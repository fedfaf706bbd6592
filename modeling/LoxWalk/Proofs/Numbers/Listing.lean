import LoxWalk.Proofs.Numbers.Numerals
import LoxWalk.Token.Listing

/-!
# Listed numbers

A listing of tokens shows the value of a numeral with a fraction, `.0` for a whole number.  Whole
numbers from `2 ^ 63` on do not fit into the integers that this format goes by, and get their
shortest digits, which have no fraction.

So the column is a numeral in every case, and it reads back; but it has a fraction exactly if the
number is not a whole one from `2 ^ 63` on (`Source.listed_iff_of_mem_tokens`).  The shortest digits
of other numbers do have a fraction, because a double next to a whole number is whole
(`Double.Rounds.exists_eq_natCast`): digits without a fraction would be rounded to another double.
-/

namespace LoxWalk

/-! ## Whole doubles -/

namespace Double

variable {x : Double}

theorem value_of_not_negative (hsign : x.isNegative = false) :
    x.value = x.binary.mantissa * 2 ^ x.binary.exponent := by
  rw [value, hsign, if_neg Bool.false_ne_true, one_mul]

/-- Every whole number of at most fifty-three binary digits is a double. -/
theorem exists_value_eq {n : Nat} (hn : n < 2 ^ 53) :
    ∃ y : Double, y.isFinite = true ∧ y.value = n := by
  rcases Nat.eq_zero_or_pos n with rfl | hpos
  · refine ⟨⟨0⟩, rfl, ?_⟩
    have hmantissa : (binary ⟨0⟩).mantissa = 0 := rfl
    rw [value, hmantissa, Nat.cast_zero, zero_mul, mul_zero]
  · -- the first digit is moved to the first place of the fraction
    have hlog : n.log2 < 53 := (Nat.log2_lt hpos.ne').mpr hn
    have hlow : 2 ^ 52 ≤ n * 2 ^ (52 - n.log2) := by
      calc 2 ^ 52 = 2 ^ n.log2 * 2 ^ (52 - n.log2) := by
            rw [← Nat.pow_add, Nat.add_sub_cancel' (by omega)]
        _ ≤ n * 2 ^ (52 - n.log2) := Nat.mul_le_mul_right _ (Nat.log2_self_le hpos.ne')
    have hhigh : n * 2 ^ (52 - n.log2) < 2 ^ 53 := by
      calc n * 2 ^ (52 - n.log2) < 2 ^ (n.log2 + 1) * 2 ^ (52 - n.log2) :=
            Nat.mul_lt_mul_of_pos_right Nat.lt_log2_self (Nat.two_pow_pos _)
        _ = 2 ^ 53 := by
          rw [← Nat.pow_add]
          congr 1
          omega
    have hinfinite : infiniteSize = 2047 * 2 ^ 52 := rfl
    have hle : (1022 + n.log2) * 2 ^ 52 + n * 2 ^ (52 - n.log2) < infiniteSize := by
      have : (1022 + n.log2) * 2 ^ 52 ≤ 1074 * 2 ^ 52 := Nat.mul_le_mul_right _ (by omega)
      omega
    obtain ⟨hsize, hsign⟩ := size_ofNat hle.le
    refine ⟨_, decide_eq_true (hsize.trans_lt hle), ?_⟩
    rw [value_of_not_negative hsign, (binary_of_size hsize hhigh.le (.inr hlow)).1]
    have hexp : ((1022 + n.log2 : Nat) : Int) - 1074 = -((52 - n.log2 : Nat) : Int) := by omega
    rw [hexp, zpow_neg, zpow_natCast]
    push_cast
    rw [mul_assoc, mul_inv_cancel₀ (by positivity), mul_one]

/-- A double with places behind the point is below `2 ^ 52`. -/
theorem value_lt_of_exponent_neg (hsign : x.isNegative = false) (h : x.binary.exponent < 0) :
    x.value < 2 ^ 52 := by
  have hmantissa : (x.binary.mantissa : ℚ) < 2 ^ 53 := by exact_mod_cast x.binary_mantissa_lt
  have hunit : (2 : ℚ) ^ x.binary.exponent ≤ 2 ^ (-1 : Int) :=
    zpow_le_zpow_right₀ one_le_two (by omega)
  rw [value_of_not_negative hsign]
  calc (x.binary.mantissa : ℚ) * 2 ^ x.binary.exponent
      ≤ x.binary.mantissa * 2 ^ (-1 : Int) := by gcongr
    _ < 2 ^ 53 * 2 ^ (-1 : Int) := by gcongr
    _ = 2 ^ 52 := by norm_num

/-- A whole number is rounded to a whole number. -/
theorem Rounds.exists_eq_natCast {n : Nat} (h : x.Rounds n) (hfinite : x.isFinite = true) :
    ∃ k : Nat, x.value = k := by
  by_cases hexp : 0 ≤ x.binary.exponent
  · refine ⟨x.binary.mantissa * 2 ^ x.binary.exponent.toNat, ?_⟩
    rw [value_of_not_negative h.not_negative]
    push_cast
    rw [← zpow_natCast, Int.toNat_of_nonneg hexp]
  · have hlt := value_lt_of_exponent_neg h.not_negative (not_le.mp hexp)
    have hsmall : n < 2 ^ 53 := by
      by_contra hle
      -- the last double below would be closer
      have hle : (2 ^ 53 : ℚ) ≤ n := by exact_mod_cast Nat.not_lt.mp hle
      obtain ⟨y, hyfinite, hy⟩ := exists_value_eq (show 2 ^ 53 - 1 < 2 ^ 53 by norm_num)
      have hclosest := h.closest hfinite y hyfinite
      rw [hy, Nat.cast_sub Nat.one_le_two_pow] at hclosest
      push_cast at hclosest
      rw [abs_of_neg (by linarith), abs_of_neg (by linarith)] at hclosest
      linarith
    obtain ⟨y, hyfinite, hy⟩ := exists_value_eq hsmall
    have hclosest := h.closest hfinite y hyfinite
    rw [hy, sub_self, abs_zero] at hclosest
    exact ⟨n, sub_eq_zero.mp (abs_nonpos_iff.mp hclosest)⟩

end Double

theorem Binary.toNat?_eq_some_iff {b : Binary} {n : Nat} :
    b.toNat? = some n ↔ (b.mantissa * 2 ^ b.exponent : ℚ) = n := by
  refine ⟨value_of_toNat?, fun h => ?_⟩
  have hscale : (0 : ℚ) < 2 ^ (-b.exponent).toNat := by positivity
  have hvalue := Double.pow_toNat_neg_mul_zpow two_ne_zero b.exponent
  by_cases hexp : 0 ≤ b.exponent
  · rw [← Int.toNat_of_nonneg hexp, zpow_natCast] at h
    rw [toNat?, if_pos hexp]
    exact congrArg some (by exact_mod_cast h)
  · rw [Int.toNat_eq_zero.mpr (show b.exponent ≤ 0 by omega), pow_zero] at hvalue
    have hmantissa : b.mantissa = n * 2 ^ (-b.exponent).toNat := by
      have : (b.mantissa : ℚ) = n * 2 ^ (-b.exponent).toNat := by
        rw [← h, mul_assoc, mul_comm (2 ^ b.exponent), hvalue, mul_one]
      exact_mod_cast this
    have hmod : b.mantissa % 2 ^ (-b.exponent).toNat = 0 := by
      rw [hmantissa]
      exact Nat.mul_mod_left _ _
    have hdiv : b.mantissa / 2 ^ (-b.exponent).toNat = n := by
      rw [hmantissa]
      exact Nat.mul_div_cancel _ (Nat.two_pow_pos _)
    rw [toNat?, if_neg hexp]
    exact (if_pos hmod).trans (congrArg some hdiv)

/-- A double is found to be whole exactly if the number behind its bits is. -/
theorem Number.whole?_eq_some_iff {x : Double} (hfinite : x.isFinite = true)
    (hsign : x.isNegative = false) {n : Nat} : whole? x = some n ↔ x.value = n := by
  rw [whole?, if_pos hfinite, Double.value_of_not_negative hsign]
  exact Binary.toNat?_eq_some_iff

/-! ## Shortest digits with and without a fraction -/

namespace Binary

variable {b : Binary}

theorem le_exponent_ofPoint (n : Nat) (step : Int) : step ≤ (ofPoint n step).exponent := by
  unfold ofPoint
  split
  · exact Int.le.intro 1 rfl
  · exact le_rfl

/-- The search does not go beyond its last grid. -/
theorem le_exponent_search (tie : Tie) (count : Nat) (step : Int) :
    step - count ≤ (b.search tie count step).exponent := by
  induction count generalizing step with
  | zero =>
    rw [Nat.cast_zero, sub_zero]
    exact le_exponent_ofPoint _ _
  | succ count ih =>
    rw [search]
    split
    · exact (Int.sub_le_self step (Int.natCast_nonneg _)).trans (le_exponent_ofPoint _ _)
    · have := ih (step - 1)
      omega

/-- A whole number from `2 ^ 63` on has no digit after the point among its first seventeen. -/
theorem exponent_shortest_nonneg {n : Nat} (hlt : b.mantissa < 2 ^ 53)
    (hvalue : (b.mantissa * 2 ^ b.exponent : ℚ) = n) (hn : 2 ^ 63 ≤ n) (tie : Tie) :
    0 ≤ (b.shortest tie).exponent := by
  have hexp : 0 ≤ b.exponent := by
    by_contra hneg
    have hle : (2 : ℚ) ^ b.exponent ≤ 1 := zpow_le_one_of_nonpos₀ one_le_two (by omega)
    have hmantissa : (b.mantissa : ℚ) < 2 ^ 53 := by exact_mod_cast hlt
    have hn : (2 ^ 63 : ℚ) ≤ n := by exact_mod_cast hn
    have hmul : (b.mantissa : ℚ) * 2 ^ b.exponent ≤ b.mantissa :=
      mul_le_of_le_one_right (Nat.cast_nonneg _) hle
    linarith
  have habove : b.mantissa * 2 ^ b.exponent.toNat = n := by
    rw [← Int.toNat_of_nonneg hexp, zpow_natCast] at hvalue
    exact_mod_cast hvalue
  have hunder : (2 : Nat) ^ (-b.exponent).toNat = 1 := by
    rw [Int.toNat_eq_zero.mpr (show -b.exponent ≤ 0 by omega), Nat.pow_zero]
  have hmagnitude : b.magnitude = digitCount n := by
    have hone : 1 ≤ n := le_trans (Nat.one_le_two_pow) hn
    unfold magnitude
    dsimp only
    rw [Nat.pow_eq, Nat.pow_eq, habove, hunder, if_pos hone, Nat.div_one]
  have hdigits : 16 < digitCount n := by
    by_contra hle
    have hpow : 10 ^ digitCount n ≤ 10 ^ 16 := Nat.pow_le_pow_right (by decide) (by omega)
    have := lt_pow_digitCount n
    omega
  have := le_exponent_search (b := b) tie 16 (b.magnitude - 1)
  unfold shortest
  omega

end Binary

namespace Decimal

variable {d : Decimal}

theorem point_mem_positional (h : d.exponent < 0) : '.' ∈ d.positional.toList := by
  rw [positional, if_neg (Int.not_le.mpr h)]
  split <;> simp [String.toList_append]

theorem point_notMem_positional (h : 0 ≤ d.exponent) : '.' ∉ d.positional.toList := by
  rw [positional, if_pos h, String.toList_append, toList_text, zeros, String.toList_ofList]
  refine fun hmem => absurd (?_ : Char.isDigit '.' = true) (by decide)
  exact (List.mem_append.mp hmem).elim isDigit_of_mem_digits isDigit_of_mem_zeros

/-- Without a fraction it is a whole number. -/
theorem exists_value_eq_natCast (h : 0 ≤ d.exponent) : ∃ n : Nat, d.value = n := by
  refine ⟨d.digits * 10 ^ d.exponent.toNat, ?_⟩
  rw [value, ← Int.toNat_of_nonneg h, zpow_natCast]
  push_cast
  rfl

end Decimal

namespace Numeral

variable (y : Numeral)

theorem point_notMem_whole : '.' ∉ y.whole :=
  fun hmem => absurd (y.isDigit_whole _ hmem) (by decide)

theorem point_mem_text_iff : '.' ∈ y.text ↔ y.fraction ≠ [] := by
  unfold text
  split
  · rename_i hnil
    exact iff_of_false y.point_notMem_whole (not_not_intro hnil)
  · rename_i hne
    exact iff_of_true (List.mem_append_right _ List.mem_cons_self) hne

/-- A text ends in `.0` if that is the whole fraction. -/
theorem zero_suffix_text_iff : ['.', '0'] <:+ y.text ↔ y.fraction = ['0'] := by
  refine ⟨fun h => ?_, fun h => ?_⟩
  · have hne : y.fraction ≠ [] := y.point_mem_text_iff.mp (h.subset List.mem_cons_self)
    obtain ⟨before, hbefore⟩ := h
    rw [text, if_neg hne] at hbefore
    -- there is one point, and what is in front of it is the same
    obtain ⟨r, hwhole, hr⟩ | ⟨r, -, hr⟩ := List.append_eq_append_iff.mp hbefore
    · cases r with
      | nil => exact (List.cons.inj hr).2.symm
      | cons c r =>
        have hmem : '.' ∈ y.whole := by
          rw [hwhole, (List.cons.inj hr).1]
          exact List.mem_append_right _ List.mem_cons_self
        exact absurd hmem y.point_notMem_whole
    · cases r with
      | nil => exact (List.cons.inj hr).2
      | cons c r =>
        have hmem : '.' ∈ y.fraction := by
          rw [(List.cons.inj hr).2]
          exact List.mem_append_right _ List.mem_cons_self
        exact absurd (y.isDigit_fraction _ hmem) (by decide)
  · rw [text, if_neg (h ▸ List.cons_ne_nil _ _), h]
    exact List.suffix_append _ _

theorem rounds_of_fraction_eq_zero (h : y.fraction = ['0']) : ∃ n : Nat, y.double.Rounds n := by
  have hrounds := Number.ofNumeral_rounds y.whole y.fraction
  have hzero : Number.fractionValue ['0'] = 0 := by
    rw [Number.fractionValue, Number.fractionValue]
    norm_num
  refine ⟨Number.digitsValue y.whole, ?_⟩
  rw [Number.digitsValue_eq]
  rwa [← double, h, hzero, add_zero] at hrounds

end Numeral

/-! ## The literal column -/

namespace Number

variable {x : Double}

/-- A text is digits, a point and digits, which denote `x`; and its end is `.0` just if `x` is a
whole number. -/
def Listed (x : Double) (text : String) : Prop :=
  ∃ y : Numeral, y.text = text.toList ∧ y.fraction ≠ [] ∧ y.double = x ∧
    (['.', '0'] <:+ text.toList ↔ ∃ n : Nat, x.value = n)

theorem sign_of_not_negative (hsign : x.isNegative = false) : sign x = "" :=
  if_neg (hsign ▸ Bool.false_ne_true)

theorem shortest_of_not_negative (hfinite : x.isFinite = true) (hsign : x.isNegative = false) :
    shortest x = (x.binary.shortest .up).positional := by
  rw [shortest, Double.isNaN_of_isFinite hfinite, if_neg Bool.false_ne_true, if_pos hfinite,
    sign_of_not_negative hsign]
  exact String.empty_append

/-- The shortest digits are a numeral for the number that they are the digits of. -/
theorem exists_numeral_shortest (hfinite : x.isFinite = true) (hsign : x.isNegative = false)
    (hpos : 0 < x.binary.mantissa) :
    ∃ y : Numeral, y.text = (shortest x).toList ∧ y.double = x := by
  obtain ⟨y, htext, hrounds⟩ := (x.binary.shortest .up).exists_numeral
  rw [shortest_of_not_negative hfinite hsign]
  exact ⟨y, htext, hrounds.unique (Double.rounds_shortest hfinite hsign hpos .up)⟩

theorem listed_shortest (hfinite : x.isFinite = true) (hsign : x.isNegative = false)
    (hnone : whole? x = none) : Listed x (shortest x) := by
  have hpos : 0 < x.binary.mantissa := by
    rw [whole?, if_pos hfinite] at hnone
    exact Binary.mantissa_pos_of_toNat? hnone
  have hfraction : ¬ ∃ n : Nat, x.value = n := by
    rintro ⟨n, hn⟩
    rw [(whole?_eq_some_iff hfinite hsign).mpr hn] at hnone
    cases hnone
  have hexp : (x.binary.shortest .up).exponent < 0 := by
    by_contra hexp
    obtain ⟨n, hn⟩ := Decimal.exists_value_eq_natCast (Int.not_lt.mp hexp)
    have hrounds := Double.rounds_shortest hfinite hsign hpos .up
    rw [hn] at hrounds
    exact hfraction (hrounds.exists_eq_natCast hfinite)
  obtain ⟨y, htext, hdouble⟩ := exists_numeral_shortest hfinite hsign hpos
  refine ⟨y, htext, y.point_mem_text_iff.mp ?_, hdouble, iff_of_false ?_ hfraction⟩
  · rw [htext, shortest_of_not_negative hfinite hsign]
    exact Decimal.point_mem_positional hexp
  · intro hsuffix
    obtain ⟨n, hn⟩ := y.rounds_of_fraction_eq_zero (y.zero_suffix_text_iff.mp (htext ▸ hsuffix))
    rw [hdouble] at hn
    exact hfraction (hn.exists_eq_natCast hfinite)

theorem literal_of_whole {n : Nat} (hsign : x.isNegative = false) (h : whole? x = some n)
    (hn : n < 2 ^ 63) : literal x = Nat.repr n ++ ".0" := by
  have hbound : n < literalBound := hn
  rw [literal, h]
  split
  · rename_i hzero
    obtain rfl := Option.some.inj hzero
    rfl
  · rename_i hsome
    obtain rfl := Option.some.inj hsome
    rw [if_pos hbound, sign_of_not_negative hsign, String.empty_append]
  · contradiction

theorem literal_of_large {n : Nat} (h : whole? x = some n) (hn : 2 ^ 63 ≤ n) :
    literal x = shortest x := by
  have hbound : ¬ n < literalBound := Nat.not_lt.mpr hn
  rw [literal, h]
  split
  · rename_i hzero
    obtain rfl := Option.some.inj hzero
    exact absurd hn (by norm_num)
  · rename_i hsome
    obtain rfl := Option.some.inj hsome
    exact if_neg hbound
  · contradiction

theorem listed_whole {n : Nat} (hfinite : x.isFinite = true) (hsign : x.isNegative = false)
    (h : whole? x = some n) : Listed x (Nat.repr n ++ ".0") := by
  have hvalue := (whole?_eq_some_iff hfinite hsign).mp h
  have hrounds : (ofNumeral (Nat.toDigits 10 n) ['0']).Rounds n := by
    have hten : (ofNumeral (Nat.toDigits 10 n) ['0']).Rounds ((10 * n : Nat) * 10 ^ (-1 : Int)) :=
      rounds_of_digits ?_ rfl
    · have heq : ((10 * n : Nat) : ℚ) * 10 ^ (-1 : Int) = n := by
        push_cast
        rw [zpow_neg_one, mul_comm 10, mul_assoc, mul_inv_cancel₀ (by norm_num), mul_one]
      rwa [heq] at hten
    · have hzero : ['0'] = List.replicate 1 '0' := rfl
      rw [digitsValue_eq_ofDigitChars, hzero, Nat.ofDigitChars_append,
        Nat.ofDigitChars_ten_toDigits, Nat.ofDigitChars_replicate_zero]
      exact (Nat.mul_one _).symm
  have htext : (⟨Nat.toDigits 10 n, ['0'], Nat.toDigits_ne_nil,
      fun _ => Nat.isDigit_of_mem_toDigits (by decide) (by decide),
      List.forall_mem_singleton.mpr rfl⟩ : Numeral).text = (Nat.repr n ++ ".0").toList := by
    rw [String.toList_append, Nat.toList_repr]
    exact if_neg (List.cons_ne_nil _ _)
  refine ⟨_, htext, List.cons_ne_nil _ _, ?_, iff_of_true ?_ ⟨n, hvalue⟩⟩
  · rw [whole?, if_pos hfinite] at h
    exact hrounds.unique (Double.rounds_toNat? hfinite hsign h)
  · rw [← htext]
    exact (Numeral.zero_suffix_text_iff _).mpr rfl

/-- The literal column of a number without a sign denotes it, and has a fraction if the number is
not a whole one from `2 ^ 63` on. -/
theorem listed_literal_iff (hfinite : x.isFinite = true) (hsign : x.isNegative = false) :
    (∃ y : Numeral, y.text = (literal x).toList ∧ y.double = x) ∧
      (Listed x (literal x) ↔ ¬ ∃ n : Nat, x.value = n ∧ 2 ^ 63 ≤ n) := by
  have hnumeral {text : String} (h : Listed x text) :
      ∃ y : Numeral, y.text = text.toList ∧ y.double = x := by
    obtain ⟨y, htext, -, hdouble, -⟩ := h
    exact ⟨y, htext, hdouble⟩
  cases hwhole : whole? x with
  | none =>
    have hlisted : Listed x (literal x) := by
      rw [literal, hwhole]
      exact listed_shortest hfinite hsign hwhole
    refine ⟨hnumeral hlisted, iff_of_true hlisted ?_⟩
    rintro ⟨n, hn, -⟩
    rw [(whole?_eq_some_iff hfinite hsign).mpr hn] at hwhole
    cases hwhole
  | some n =>
    have hvalue := (whole?_eq_some_iff hfinite hsign).mp hwhole
    by_cases hn : n < 2 ^ 63
    · have hlisted : Listed x (literal x) := by
        rw [literal_of_whole hsign hwhole hn]
        exact listed_whole hfinite hsign hwhole
      refine ⟨hnumeral hlisted, iff_of_true hlisted ?_⟩
      rintro ⟨k, hk, hle⟩
      have : n = k := by exact_mod_cast hvalue.symm.trans hk
      omega
    · have hle : 2 ^ 63 ≤ n := Nat.not_lt.mp hn
      have hbinary : (x.binary.mantissa * 2 ^ x.binary.exponent : ℚ) = n := by
        rw [← Double.value_of_not_negative hsign, hvalue]
      have hpos : 0 < x.binary.mantissa := by
        refine Nat.pos_of_ne_zero fun hzero => ?_
        rw [hzero, Nat.cast_zero, zero_mul] at hbinary
        have : n = 0 := by exact_mod_cast hbinary.symm
        omega
      have hexp := Binary.exponent_shortest_nonneg x.binary_mantissa_lt hbinary hle .up
      rw [literal_of_large hwhole hle]
      refine ⟨exists_numeral_shortest hfinite hsign hpos, iff_of_false ?_ ?_⟩
      · -- all characters are digits, and there is none behind a point
        rintro ⟨y, htext, hne, -⟩
        have hpoint := y.point_mem_text_iff.mpr hne
        rw [htext, shortest_of_not_negative hfinite hsign] at hpoint
        exact Decimal.point_notMem_positional hexp hpoint
      · exact not_not_intro ⟨n, hvalue, hle⟩

end Number

/-! ## Numbers of a source text -/

namespace Source

/-- The value of a number token is what its lexeme denotes, rounded. -/
theorem rounds_of_mem_tokens {source : String} {t : Token} {x : Double} (ht : t ∈ tokens source)
    (hkind : t.kind = .number x) : ∃ q, x.Rounds q := by
  rcases mem_tokens_locate ht with heof | ⟨p, hp, hform, -⟩
  · rw [heof] at hkind
    cases hkind
  · have hspells := forall_mem_pieces Piece.next_spells _ p hp
    rw [hkind] at hform
    obtain ⟨l, -, hl⟩ := hspells _ hform
    cases l with
    | symbol s => exact absurd hl (by simp [Lexeme.HasKind])
    | string contents hclosed => exact absurd hl (by simp [Lexeme.HasKind])
    | whole digits =>
      obtain ⟨y, hy, hrounds⟩ := hl
      obtain rfl := TokenKind.number.inj hy
      exact ⟨_, hrounds⟩
    | fractional digits fraction =>
      obtain ⟨y, hy, hrounds⟩ := hl
      obtain rfl := TokenKind.number.inj hy
      exact ⟨_, hrounds⟩
    | word w => exact absurd hl (by simp [Lexeme.HasKind])

/-- The literal column of a number token denotes its value.  It is digits, a point and digits, with
`.0` just for a whole number, exactly if the value is not a whole number from `2 ^ 63` on. -/
theorem listed_iff_of_mem_tokens {source : String} {t : Token} {x : Double}
    (ht : t ∈ tokens source) (hkind : t.kind = .number x) (hfinite : x.isFinite = true) :
    (∃ y : Numeral, y.text = t.kind.literal.toList ∧ y.double = x) ∧
      (Number.Listed x t.kind.literal ↔ ¬ ∃ n : Nat, x.value = n ∧ 2 ^ 63 ≤ n) := by
  obtain ⟨q, hrounds⟩ := rounds_of_mem_tokens ht hkind
  have hliteral : t.kind.literal = Number.literal x := by rw [hkind, TokenKind.literal]
  rw [hliteral]
  exact Number.listed_literal_iff hfinite hrounds.not_negative

/-- `3.14` is listed as it is written. -/
theorem listed_iff_of_mem_tokens_pi :
    (⟨.number ⟨0x40091EB851EB851F⟩, "3.14", 1⟩ : Token) ∈ tokens "3.14" ∧
      TokenKind.literal (.number ⟨0x40091EB851EB851F⟩) = "3.14" ∧
      Number.Listed ⟨0x40091EB851EB851F⟩ "3.14" := by
  have hmem : (⟨.number ⟨0x40091EB851EB851F⟩, "3.14", 1⟩ : Token) ∈ tokens "3.14" := by
    decide +kernel
  have hliteral : TokenKind.literal (.number ⟨0x40091EB851EB851F⟩) = "3.14" := by decide +kernel
  have hfinite : Double.isFinite ⟨0x40091EB851EB851F⟩ = true := by decide +kernel
  have hlisted := (listed_iff_of_mem_tokens hmem rfl hfinite).2
  dsimp only at hlisted
  rw [hliteral] at hlisted
  refine ⟨hmem, hliteral, hlisted.mpr ?_⟩
  rintro ⟨n, hn, -⟩
  have hsome := (Number.whole?_eq_some_iff hfinite (by decide +kernel)).mpr hn
  have hnone : Number.whole? ⟨0x40091EB851EB851F⟩ = none := by decide +kernel
  rw [hnone] at hsome
  cases hsome

/-- `2 ^ 63` is listed without a fraction, although it is finite and whole. -/
theorem literal_column_without_fraction :
    (⟨.number ⟨0x43E0000000000000⟩, "9223372036854775808", 1⟩ : Token) ∈
        tokens "9223372036854775808" ∧
      Double.isFinite ⟨0x43E0000000000000⟩ = true ∧
      TokenKind.literal (.number ⟨0x43E0000000000000⟩) = "9223372036854776000" ∧
      ¬ Number.Listed ⟨0x43E0000000000000⟩ "9223372036854776000" := by
  have hfinite : Double.isFinite ⟨0x43E0000000000000⟩ = true := by decide +kernel
  have hsign : Double.isNegative ⟨0x43E0000000000000⟩ = false := by decide +kernel
  have hliteral : Number.literal ⟨0x43E0000000000000⟩ = "9223372036854776000" := by
    decide +kernel
  have hwhole : Number.whole? ⟨0x43E0000000000000⟩ = some (2 ^ 63) := by decide +kernel
  refine ⟨by decide +kernel, hfinite, hliteral, fun hlisted => ?_⟩
  rw [← hliteral, (Number.listed_literal_iff hfinite hsign).2] at hlisted
  exact hlisted ⟨2 ^ 63, (Number.whole?_eq_some_iff hfinite hsign).mp hwhole, le_rfl⟩

end Source

end LoxWalk
