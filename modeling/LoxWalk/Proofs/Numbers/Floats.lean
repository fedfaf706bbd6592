import Mathlib
import LoxWalk.Double

/-!
# Numbers to compute with and their bits

Programs compute with `Float`, tokens and constants hold bits.  A `Float` is made of bits by taking
them apart into a sign, an exponent and a fraction, and of these it is put together again; only for
NaNs is something lost on this way.  So a finite double is the same after a computation that did
nothing (`Double.ofFloat_toFloat`), and one with the other sign after a change of sign
(`Double.ofFloat_neg_toFloat`).
-/

namespace LoxWalk

namespace Double

open Float.Model UnpackedFloat

/-! ## Signs, exponents and fractions -/

variable (s : Sign) (e : BitVec 11) (m : BitVec 52)

theorem toNat_packComponents :
    (packComponents Format.binary64 s e m).toNat =
      s.toBitVec.toNat * 2 ^ 63 + e.toNat * 2 ^ 52 + m.toNat := by
  have hexponent : (s.toBitVec ++ e).toNat = s.toBitVec.toNat * 2 ^ 11 + e.toNat := by
    rw [BitVec.toNat_append, ← Nat.shiftLeft_add_eq_or_of_lt e.isLt, Nat.shiftLeft_eq]
  have hfraction : (s.toBitVec ++ e ++ m).toNat = (s.toBitVec ++ e).toNat * 2 ^ 52 + m.toNat := by
    rw [BitVec.toNat_append, ← Nat.shiftLeft_add_eq_or_of_lt m.isLt, Nat.shiftLeft_eq]
  rw [packComponents, hfraction, hexponent]
  omega

/-- The double with a given sign, exponent and fraction. -/
def ofComponents : Double :=
  ⟨.ofBitVec (packComponents Format.binary64 s e m)⟩

theorem toNat_bits_ofComponents :
    (ofComponents s e m).bits.toNat = s.toBitVec.toNat * 2 ^ 63 + e.toNat * 2 ^ 52 + m.toNat :=
  toNat_packComponents s e m

theorem size_ofComponents : (ofComponents s e m).size = e.toNat * 2 ^ 52 + m.toNat := by
  have he := e.isLt
  have hm := m.isLt
  show (ofComponents s e m).bits.toNat % 2 ^ 63 = _
  rw [toNat_bits_ofComponents]
  omega

theorem isFinite_ofComponents : (ofComponents s e m).isFinite = true ↔ e.toNat < 2047 := by
  have hm := m.isLt
  rw [isFinite, decide_eq_true_iff, size_ofComponents]
  show _ < 2047 * 2 ^ 52 ↔ _
  omega

theorem isNegative_ofComponents : (ofComponents s e m).isNegative = (s == .negative) := by
  have he := e.isLt
  have hm := m.isLt
  show decide (2 ^ 63 ≤ (ofComponents s e m).bits.toNat) = _
  rw [toNat_bits_ofComponents]
  cases s with
  | negative =>
    have hs : Sign.negative.toBitVec.toNat = 1 := rfl
    exact decide_eq_true (by omega)
  | positive =>
    have hs : Sign.positive.toBitVec.toNat = 0 := rfl
    exact decide_eq_false (by omega)

/-- All doubles are put together in this way. -/
theorem exists_components (d : Double) : ∃ s e m, d = ofComponents s e m := by
  obtain ⟨bits⟩ := d
  have hlt : bits.toNat < 2 ^ 64 := bits.toBitVec.isLt
  have heq (s : Sign) (hs : bits.toNat / 2 ^ 63 = s.toBitVec.toNat) :
      Double.mk bits = ofComponents s (.ofNat 11 (bits.toNat / 2 ^ 52)) (.ofNat 52 bits.toNat) := by
    refine congrArg mk (UInt64.toNat_inj.mp ?_)
    refine Eq.trans ?_ (toNat_packComponents _ _ _).symm
    rw [BitVec.toNat_ofNat, BitVec.toNat_ofNat, ← hs]
    omega
  by_cases hsign : 2 ^ 63 ≤ bits.toNat
  · exact ⟨.negative, _, _, heq _ (show bits.toNat / 2 ^ 63 = 1 by omega)⟩
  · exact ⟨.positive, _, _, heq _ (show bits.toNat / 2 ^ 63 = 0 by omega)⟩

/-! ## Unpacking and packing -/

/-- What a finite double is computed with. -/
def unpacked : UnpackedFloat :=
  if e = 0#11 then
    if h : m = 0#52 then
      .zero s
    else
      .finite s m.toNat (-1074) (by simpa [BitVec.toNat_pos, BitVec.pos_iff_ne_zero])
  else
    .finite s (2 ^ 52 + m.toNat) (e.toNat - 1075) (Nat.add_pos_left (Nat.two_pow_pos 52) _)

variable {s e m}

theorem unpackSign_packComponents {spec : Format} {s : Sign} {e : BitVec spec.exponentBits}
    {m : BitVec spec.mantissaBitsWithoutImplicit} :
    unpackSign (packComponents spec s e m) = s.toBitVec := by
  ext i hi
  obtain rfl : i = 0 := by omega
  simp [unpackSign, packComponents, BitVec.getLsbD_append, BitVec.getElem_append]

theorem unpack_packComponents (he : e.toNat < 2047) :
    UnpackedFloat.unpack Format.binary64 (packComponents Format.binary64 s e m) =
      unpacked s e m := by
  have hfinite : e ≠ -1#11 := by
    rintro rfl
    exact absurd he (by decide)
  have hsign : Sign.ofBitVec s.toBitVec = s := by
    cases s <;> rfl
  have hnormal : (1#1 ++ m).toNat = 2 ^ 52 + m.toNat := by
    rw [BitVec.toNat_append, ← Nat.shiftLeft_add_eq_or_of_lt m.isLt]
    rfl
  unfold UnpackedFloat.unpack unpacked
  simp only [unpackExponent_packComponents, unpackMantissa_packComponents,
    unpackSign_packComponents, hsign, hfinite, if_false, hnormal]
  by_cases hzero : e = 0#11
  · subst hzero
    rfl
  · rw [if_neg hzero, if_neg hzero]
    rfl

theorem neg_unpacked : (unpacked s e m).neg = unpacked (-s) e m := by
  unfold unpacked
  split
  · split <;> rfl
  · rfl

theorem pack_unpacked (he : e.toNat < 2047) :
    UnpackedFloat.pack Format.binary64 (unpacked s e m) =
      packComponents Format.binary64 s e m := by
  have hm := m.isLt
  have hbits : Format.binary64.mantissaBits = 53 := rfl
  have hbias : (Format.binary64.exponentBias : Int) = 1023 := rfl
  unfold unpacked
  by_cases hzero : e = 0#11
  · rw [if_pos hzero, hzero]
    split
    · rename_i h
      rw [h]
      rfl
    · rename_i h
      have hpos : m.toNat ≠ 0 := fun h0 => h (BitVec.eq_of_toNat_eq h0)
      have hlog : m.toNat.log2 < 52 := (Nat.log2_lt hpos).mpr hm
      rw [UnpackedFloat.pack, if_neg (by decide), if_neg (by omega), BitVec.ofNat_toNat]
      rfl
  · rw [if_neg hzero]
    have hlog : (2 ^ 52 + m.toNat).log2 = 52 :=
      (Nat.log2_eq_iff (by omega)).mpr ⟨by omega, by omega⟩
    have hexp : ((e.toNat : Int) - 1075 + Format.binary64.exponentBias + (52 : Nat)).toNat =
        e.toNat := by
      omega
    have hfraction : BitVec.ofNat 52 (2 ^ 52 + m.toNat) = m := by
      apply BitVec.eq_of_toNat_eq
      rw [BitVec.toNat_ofNat]
      omega
    rw [UnpackedFloat.pack]
    dsimp only
    rw [hexp, if_neg (by omega), if_pos (by omega), BitVec.ofNat_toNat, hfraction]
    rfl

theorem ofFloat_toFloat_ofComponents (he : e.toNat < 2047) :
    ofFloat (ofComponents s e m).toFloat = ofComponents s e m := by
  show Double.mk (.ofBitVec (UnpackedFloat.pack Format.binary64
    (UnpackedFloat.unpack Format.binary64 (ofComponents s e m).bits.toBitVec))) = _
  rw [ofComponents, UInt64.toBitVec_ofBitVec, unpack_packComponents he, pack_unpacked he]

theorem ofFloat_neg_toFloat_ofComponents (he : e.toNat < 2047) :
    ofFloat (-(ofComponents s e m).toFloat) = ofComponents (-s) e m := by
  have hbits : (ofComponents s e m).toFloat.toBits = (ofComponents s e m).bits :=
    congrArg bits (ofFloat_toFloat_ofComponents he)
  show Double.mk (.ofBitVec (UnpackedFloat.pack Format.binary64
    (UnpackedFloat.unpack Format.binary64 (ofComponents s e m).toFloat.toBits.toBitVec).neg)) = _
  rw [hbits, ofComponents, UInt64.toBitVec_ofBitVec, unpack_packComponents he, neg_unpacked,
    pack_unpacked he]
  rfl

/-! ## Finite doubles -/

theorem ofFloat_injective {x y : Float} (h : ofFloat x = ofFloat y) : x = y := by
  obtain ⟨x, hx⟩ := x
  obtain ⟨y, hy⟩ := y
  obtain rfl : x = y := congrArg bits h
  rfl

/-- The double without its sign. -/
def abs (d : Double) : Double :=
  ⟨.ofNat d.size⟩

theorem abs_ofComponents : (ofComponents s e m).abs = ofComponents .positive e m := by
  refine congrArg mk (UInt64.toNat_inj.mp ?_)
  have he := e.isLt
  have hm := m.isLt
  have hs : Sign.positive.toBitVec.toNat = 0 := rfl
  refine Eq.trans ?_ (toNat_bits_ofComponents .positive e m).symm
  rw [size_ofComponents, hs, Nat.zero_mul, Nat.zero_add]
  exact UInt64.toNat_ofNat_of_lt' (show _ < 2 ^ 64 by omega)

theorem size_abs (d : Double) : d.abs.size = d.size := by
  obtain ⟨s, e, m, rfl⟩ := exists_components d
  rw [abs_ofComponents, size_ofComponents, size_ofComponents]

theorem isNegative_abs (d : Double) : d.abs.isNegative = false := by
  obtain ⟨s, e, m, rfl⟩ := exists_components d
  rw [abs_ofComponents, isNegative_ofComponents]
  rfl

theorem isFinite_abs (d : Double) : d.abs.isFinite = d.isFinite := by
  rw [isFinite, size_abs, isFinite]

theorem binary_abs (d : Double) : d.abs.binary = d.binary := by
  rw [binary, size_abs, binary]

variable {d : Double}

theorem isNaN_of_isFinite (h : d.isFinite = true) : d.isNaN = false :=
  decide_eq_false (Nat.lt_asymm (of_decide_eq_true h))

/-- No bits of a finite double are lost when it is computed with. -/
theorem ofFloat_toFloat (h : d.isFinite = true) : ofFloat d.toFloat = d := by
  obtain ⟨s, e, m, rfl⟩ := exists_components d
  exact ofFloat_toFloat_ofComponents ((isFinite_ofComponents s e m).mp h)

theorem abs_of_not_negative (h : d.isNegative = false) : d.abs = d := by
  obtain ⟨s, e, m, rfl⟩ := exists_components d
  rw [isNegative_ofComponents] at h
  cases s with
  | negative => cases h
  | positive => exact abs_ofComponents

/-- A finite double with a sign is the change of sign of the one without it. -/
theorem neg_toFloat_abs (h : d.isFinite = true) (hsign : d.isNegative = true) :
    -d.abs.toFloat = d.toFloat := by
  obtain ⟨s, e, m, rfl⟩ := exists_components d
  have he := (isFinite_ofComponents s e m).mp h
  rw [isNegative_ofComponents] at hsign
  apply ofFloat_injective
  rw [abs_ofComponents, ofFloat_neg_toFloat_ofComponents he, ofFloat_toFloat_ofComponents he]
  cases s with
  | negative => rfl
  | positive => cases hsign

end Double

end LoxWalk
