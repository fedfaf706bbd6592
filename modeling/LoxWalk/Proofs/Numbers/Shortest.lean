import LoxWalk.Proofs.Numbers.Floats
import LoxWalk.Proofs.Rounding

/-!
# Shortest decimals read back

Everything in the interval of a double rounds to it (`Double.rounds_of_readsBack`), also below a
power of two, where the doubles lie closer together: there the interval is that of a carry in the
next smaller exponent.

The search for the shortest decimal takes a grid point inside of the interval as soon as there is
one.  On the last grid there always is one, because a grid with seventeen digits is finer than
half a distance between doubles (`Binary.readsBack_nearest`).  So whatever the search ends with reads
back (`Double.rounds_shortest`).
-/

namespace LoxWalk

/-! ## The interval of a double -/

theorem Binary.mantissa_of_narrowBelow {b : Binary} (h : b.narrowBelow = true) :
    b.mantissa = 2 ^ 52 :=
  eq_of_beq ((Bool.and_eq_true _ _).mp h).1

namespace Double

/-- A number in the last places of which a double is next to it is rounded to this double.  Below a
power of two the double has to be twice as close. -/
theorem rounds_of_near {x : Double} {q : ℚ} (hfinite : x.isFinite = true)
    (hsign : x.isNegative = false)
    (hnear : IsNearest x.binary.mantissa (q / 2 ^ x.binary.exponent))
    (hnarrow : x.binary.narrowBelow = true → (2 ^ 52 - 1 / 4) * 2 ^ x.binary.exponent ≤ q) :
    x.Rounds q := by
  obtain ⟨e, f, hsize, hf, he⟩ := exists_fraction x.size
  have hlt : x.size < infiniteSize := of_decide_eq_true hfinite
  have hbinary := binary_eq_of_size hsize hf he
  rw [hbinary] at hnear hnarrow
  dsimp only at hnear hnarrow
  have hunit : (0 : ℚ) < 2 ^ ((e : Int) - 1074) := by positivity
  obtain ⟨hlow, hhigh⟩ := abs_le.mp hnear.near
  have hq : q = q / 2 ^ ((e : Int) - 1074) * 2 ^ ((e : Int) - 1074) :=
    (div_mul_cancel₀ q hunit.ne').symm
  by_cases hcarry : e = 0 ∨ 2 ^ 52 * 2 ^ ((e : Int) - 1074) ≤ q
  · refine rounds_of_isNearest hsign (hsize.trans (by omega)) hnear ?_ hcarry
    have hf' : (f : ℚ) ≤ 2 ^ 53 - 1 := by
      have : ((f + 1 : Nat) : ℚ) ≤ (2 ^ 53 : Nat) := by exact_mod_cast hf
      push_cast at this
      linarith
    rw [hq]
    gcongr
    linarith
  · -- the double is a power of two, and the number belongs to the exponent below
    obtain ⟨he0, hbelow⟩ := not_or.mp hcarry
    rw [not_le, ← div_lt_iff₀ hunit] at hbelow
    have hf : f = 2 ^ 52 := by
      have : (f : ℚ) < (2 ^ 52 + 1 : Nat) := by
        push_cast
        linarith
      have : f < 2 ^ 52 + 1 := by exact_mod_cast this
      omega
    have hnarrow := hnarrow (by
      rw [hf]
      exact (Bool.and_eq_true _ _).mpr ⟨rfl, decide_eq_true (by dsimp only; omega)⟩)
    obtain ⟨e, rfl⟩ := Nat.exists_eq_succ_of_ne_zero he0
    have hhalf : (2 : ℚ) ^ (((e + 1 : Nat) : Int) - 1074) = 2 * 2 ^ ((e : Int) - 1074) := by
      rw [← zpow_one_add₀ two_ne_zero]
      congr 1
      omega
    rw [div_lt_iff₀ hunit] at hbelow
    rw [hhalf] at hnarrow hbelow
    have hunit : (0 : ℚ) < 2 ^ ((e : Int) - 1074) := by positivity
    refine rounds_of_isNearest (e := e) (f := 2 ^ 53) hsign (by omega) ?_ ?_ (.inr ?_)
    · have hle : 2 ^ 53 - 1 / 2 ≤ q / 2 ^ ((e : Int) - 1074) := by
        rw [le_div_iff₀ hunit]
        linarith
      have hge : q / 2 ^ ((e : Int) - 1074) ≤ 2 ^ 53 := by
        rw [div_le_iff₀ hunit]
        linarith
      refine ⟨abs_le.mpr ⟨?_, ?_⟩, fun _ => rfl⟩ <;> push_cast <;> linarith
    · linarith
    · linarith

end Double

/-! ## Grids -/

/-- The number that a decimal stands for. -/
def Decimal.value (d : Decimal) : ℚ :=
  d.digits * 10 ^ d.exponent

namespace Binary

variable {b : Binary} {n k : Nat} {step : Int} {tie : Tie}

/-- The quarters of a grid and its points are counted in one unit. -/
theorem exists_unit (b : Binary) (step : Int) :
    ∃ c : ℚ, 0 < c ∧ ((b.grid step).quarter : ℚ) = c * (2 ^ b.exponent / 4) ∧
      ((b.grid step).point : ℚ) = c * 10 ^ step := by
  have hquarter : (b.grid step).quarter = 2 ^ (b.exponent - 2).toNat * 10 ^ (-step).toNat := rfl
  have hpoint : (b.grid step).point = 2 ^ (-(b.exponent - 2)).toNat * 10 ^ step.toNat := by
    rw [neg_sub]
    rfl
  have hfour : (2 : ℚ) ^ b.exponent / 4 = 2 ^ (b.exponent - 2) := by
    rw [zpow_sub₀ two_ne_zero]
    norm_num
  refine ⟨2 ^ (-(b.exponent - 2)).toNat * 10 ^ (-step).toNat, by positivity, ?_, ?_⟩
  · rw [hquarter, hfour, mul_right_comm, Double.pow_toNat_neg_mul_zpow two_ne_zero]
    push_cast
    rfl
  · rw [hpoint, mul_assoc, Double.pow_toNat_neg_mul_zpow (by norm_num)]
    push_cast
    rfl

/-- What lies between the ends of the interval, counted in quarters. -/
theorem bounds_of_readsBack (h : (b.grid step).readsBack n = true) :
    (b.grid step).low * (b.grid step).quarter ≤ n * (b.grid step).point ∧
      n * (b.grid step).point ≤ (b.grid step).high * (b.grid step).quarter ∧
      (b.mantissa % 2 = 0 ∨
        (b.grid step).low * (b.grid step).quarter ≠ n * (b.grid step).point ∧
          n * (b.grid step).point ≠ (b.grid step).high * (b.grid step).quarter) := by
  unfold Grid.readsBack at h
  split at h
  · rename_i hclosed
    obtain ⟨hlow, hhigh⟩ := (Bool.and_eq_true _ _).mp h
    exact ⟨of_decide_eq_true hlow, of_decide_eq_true hhigh, .inl (eq_of_beq hclosed)⟩
  · obtain ⟨hlow, hhigh⟩ := (Bool.and_eq_true _ _).mp h
    have hlow := of_decide_eq_true hlow
    have hhigh := of_decide_eq_true hhigh
    exact ⟨hlow.le, hhigh.le, .inr ⟨hlow.ne, hhigh.ne⟩⟩

theorem low_grid (b : Binary) (step : Int) :
    (b.grid step).low = 4 * b.mantissa - if b.narrowBelow then 1 else 2 :=
  rfl

theorem high_grid (b : Binary) (step : Int) : (b.grid step).high = 4 * b.mantissa + 2 :=
  rfl

/-- Quarters and points are compared as the numbers that they are. -/
theorem quarters_le_iff (b : Binary) (step : Int) (k n : Nat) :
    (k * (b.grid step).quarter ≤ n * (b.grid step).point ↔
        (k : ℚ) / 4 ≤ n * 10 ^ step / 2 ^ b.exponent) ∧
      (n * (b.grid step).point ≤ k * (b.grid step).quarter ↔
        n * 10 ^ step / 2 ^ b.exponent ≤ (k : ℚ) / 4) := by
  obtain ⟨c, hc, hquarter, hpoint⟩ := b.exists_unit step
  have hunit : (0 : ℚ) < 2 ^ b.exponent := by positivity
  have hleft : (k * (b.grid step).quarter : ℚ) = c * (k / 4 * 2 ^ b.exponent) := by
    rw [hquarter]
    ring
  have hright : (n * (b.grid step).point : ℚ) = c * (n * 10 ^ step) := by
    rw [hpoint]
    ring
  rw [← Nat.cast_le (α := ℚ), ← Nat.cast_le (α := ℚ)]
  push_cast
  rw [hleft, hright, mul_le_mul_iff_right₀ hc, mul_le_mul_iff_right₀ hc, le_div_iff₀ hunit,
    div_le_iff₀ hunit]
  exact ⟨Iff.rfl, Iff.rfl⟩

end Binary

/-- A grid point that reads back is rounded to the double whose grid it is. -/
theorem Double.rounds_of_readsBack {x : Double} {n : Nat} {step : Int} (hfinite : x.isFinite = true)
    (hsign : x.isNegative = false) (h : (x.binary.grid step).readsBack n = true) :
    x.Rounds (n * 10 ^ step) := by
  obtain ⟨hlow, hhigh, hends⟩ := Binary.bounds_of_readsBack h
  have hlow_iff := x.binary.quarters_le_iff step (x.binary.grid step).low n
  have hhigh_iff := x.binary.quarters_le_iff step (x.binary.grid step).high n
  have hlow := hlow_iff.1.mp hlow
  have hhigh := hhigh_iff.2.mp hhigh
  have hhigh_eq : ((x.binary.grid step).high : ℚ) = 4 * x.binary.mantissa + 2 := by
    rw [Binary.high_grid]
    push_cast
    rfl
  have hlow_ge : (4 * x.binary.mantissa - 2 : ℚ) ≤ (x.binary.grid step).low := by
    have : 4 * x.binary.mantissa ≤ (x.binary.grid step).low + 2 := by
      rw [Binary.low_grid]
      split <;> omega
    have : (4 * x.binary.mantissa : ℚ) ≤ (x.binary.grid step).low + 2 := by exact_mod_cast this
    linarith
  refine rounds_of_near hfinite hsign ⟨abs_le.mpr ⟨by linarith, by linarith⟩, fun htie => ?_⟩
    fun hnarrow => ?_
  · refine hends.resolve_right fun ⟨hne, hne'⟩ => ?_
    rcases (abs_eq (by norm_num)).mp htie with htie | htie
    · exact hne (le_antisymm (hlow_iff.1.mpr hlow) (hlow_iff.2.mpr (by linarith)))
    · exact hne' (le_antisymm (hhigh_iff.2.mpr hhigh) (hhigh_iff.1.mpr (by linarith)))
  · have hmantissa := Binary.mantissa_of_narrowBelow hnarrow
    have hlow_eq : (x.binary.grid step).low = 4 * 2 ^ 52 - 1 := by
      rw [Binary.low_grid, hnarrow, if_pos rfl, hmantissa]
    rw [hlow_eq, le_div_iff₀ (by positivity)] at hlow
    refine le_trans (le_of_eq ?_) hlow
    push_cast
    ring

/-! ## The search -/

namespace Binary

namespace Grid

variable {g : Grid} {n : Nat}

theorem readsBack_of_lt (hlow : g.low * g.quarter < n * g.point)
    (hhigh : n * g.point < g.high * g.quarter) : g.readsBack n = true := by
  unfold readsBack
  split
  · exact (Bool.and_eq_true _ _).mpr ⟨decide_eq_true hlow.le, decide_eq_true hhigh.le⟩
  · exact (Bool.and_eq_true _ _).mpr ⟨decide_eq_true hlow, decide_eq_true hhigh⟩

theorem nearest_cases (g : Grid) (tie : Tie) :
    g.nearest tie = g.below ∨ g.nearest tie = g.below + 1 := by
  unfold nearest
  split
  · exact .inl rfl
  · exact .inr rfl
  · split
    · exact .inr rfl
    · split
      · exact .inl rfl
      · exact .inr rfl

theorem readsBack_of_pick? {tie : Tie} (h : g.pick? tie = some n) : g.readsBack n = true := by
  unfold pick? at h
  split at h
  · rename_i hbelow habove
    obtain rfl := Option.some.inj h
    rcases g.nearest_cases tie with hn | hn <;> rw [hn] <;> assumption
  · obtain rfl := Option.some.inj h
    assumption
  · obtain rfl := Option.some.inj h
    assumption
  · cases h

/-- The nearest grid point is at most half the distance between points away. -/
theorem nearest_bounds (hpoint : 0 < g.point) (tie : Tie) :
    2 * (g.nearest tie * g.point) ≤ 2 * (g.value * g.quarter) + g.point ∧
      2 * (g.value * g.quarter) ≤ 2 * (g.nearest tie * g.point) + g.point := by
  have hbelow : g.below * g.point ≤ g.value * g.quarter := Nat.div_mul_le_self _ _
  have habove : g.value * g.quarter < (g.below + 1) * g.point :=
    (Nat.div_lt_iff_lt_mul hpoint).mp (Nat.lt_succ_self _)
  have hmid : (2 * g.below + 1) * g.point = 2 * (g.below * g.point) + g.point := by
    rw [Nat.add_mul, Nat.mul_assoc, Nat.one_mul]
  rw [Nat.add_mul, Nat.one_mul] at habove
  unfold nearest
  rw [hmid]
  split
  · rename_i hc
    have := compare_lt_iff_lt.mp hc
    omega
  · rename_i hc
    have := compare_gt_iff_gt.mp hc
    rw [Nat.add_mul, Nat.one_mul]
    omega
  · rename_i hc
    have := compare_eq_iff_eq.mp hc
    split
    · rw [Nat.add_mul, Nat.one_mul]
      omega
    · split
      · omega
      · rw [Nat.add_mul, Nat.one_mul]
        omega

end Grid

variable {b : Binary} {step : Int} {tie : Tie}

theorem quarter_pos (b : Binary) (step : Int) : 0 < (b.grid step).quarter :=
  Nat.mul_pos (Nat.two_pow_pos _) (Nat.pow_pos (by decide))

theorem point_pos (b : Binary) (step : Int) : 0 < (b.grid step).point :=
  Nat.mul_pos (Nat.two_pow_pos _) (Nat.pow_pos (by decide))

/-- On a grid of seventeen digits the nearest point reads back. -/
theorem readsBack_nearest (hpos : 0 < b.mantissa) (hlt : b.mantissa < 2 ^ 53)
    (hfine : 10 ^ 16 * (b.grid step).point ≤ 4 * b.mantissa * (b.grid step).quarter) (tie : Tie) :
    (b.grid step).readsBack ((b.grid step).nearest tie) = true := by
  have hquarter := b.quarter_pos step
  obtain ⟨hle, hge⟩ := Grid.nearest_bounds (b.point_pos step) tie
  have hvalue : (b.grid step).value = 4 * b.mantissa := rfl
  rw [hvalue] at hle hge
  have hmul : b.mantissa * (b.grid step).quarter ≤ 2 ^ 53 * (b.grid step).quarter :=
    Nat.mul_le_mul_right _ hlt.le
  have hhigh : (b.grid step).high * (b.grid step).quarter =
      4 * (b.mantissa * (b.grid step).quarter) + 2 * (b.grid step).quarter := by
    rw [high_grid, Nat.add_mul, Nat.mul_assoc]
  rw [Nat.mul_assoc] at hle hge hfine
  refine Grid.readsBack_of_lt ?_ (by omega)
  rw [low_grid, Nat.sub_mul, Nat.mul_assoc]
  have hone : (b.grid step).quarter ≤ b.mantissa * (b.grid step).quarter :=
    Nat.le_mul_of_pos_left _ hpos
  split
  · rename_i hnarrow
    have hmantissa := mantissa_of_narrowBelow hnarrow
    rw [hmantissa] at hle hge hfine hone ⊢
    omega
  · omega

/-! ### The first grid -/

theorem pow_digitCount_le {n : Nat} (hn : 0 < n) : 10 ^ (digitCount n - 1) ≤ n := by
  rcases Nat.eq_zero_or_pos (digitCount n - 1) with h | h
  · rw [h]
    exact hn
  · refine Nat.not_lt.mp fun hlt => ?_
    have := (Nat.length_toDigits_le_iff (by decide) h).mpr hlt
    unfold digitCount at h this
    omega

theorem lt_pow_digitCount (n : Nat) : n < 10 ^ digitCount n :=
  (Nat.length_toDigits_le_iff (by decide) Nat.length_toDigits_pos).mp le_rfl

/-- The first digit is not in front of the value. -/
theorem magnitude_le (hpos : 0 < b.mantissa) :
    (10 : ℚ) ^ (b.magnitude - 1) ≤ b.mantissa * 2 ^ b.exponent := by
  have hunder : (0 : ℚ) < 2 ^ (-b.exponent).toNat := by positivity
  have hvalue : (b.mantissa : ℚ) * 2 ^ b.exponent =
      (b.mantissa * 2 ^ b.exponent.toNat : Nat) / (2 ^ (-b.exponent).toNat : Nat) := by
    push_cast
    rw [eq_div_iff hunder.ne', ← Double.pow_toNat_neg_mul_zpow two_ne_zero b.exponent]
    ring
  have hmagnitude : b.magnitude =
      if 2 ^ (-b.exponent).toNat ≤ b.mantissa * 2 ^ b.exponent.toNat then
        (digitCount (b.mantissa * 2 ^ b.exponent.toNat / 2 ^ (-b.exponent).toNat) : Int)
      else 1 - digitCount ((2 ^ (-b.exponent).toNat - 1) / (b.mantissa * 2 ^ b.exponent.toNat)) :=
    rfl
  have hunder := Nat.two_pow_pos (-b.exponent).toNat
  have habove : 0 < b.mantissa * 2 ^ b.exponent.toNat := Nat.mul_pos hpos (Nat.two_pow_pos _)
  rw [hvalue, hmagnitude]
  generalize b.mantissa * 2 ^ b.exponent.toNat = above at *
  generalize 2 ^ (-b.exponent).toNat = under at *
  split
  · rename_i hle
    have hdigits : 0 < digitCount (above / under) := Nat.length_toDigits_pos
    have hexp : (digitCount (above / under) : Int) - 1 = (digitCount (above / under) - 1 : Nat) := by
      omega
    have hfirst := pow_digitCount_le (Nat.div_pos hle hunder)
    rw [hexp, zpow_natCast]
    exact le_trans (by exact_mod_cast hfirst) Nat.cast_div_le
  · have hexp (k : Nat) : (1 : Int) - k - 1 = -k := by omega
    have hlast := lt_pow_digitCount ((under - 1) / above)
    have hunder' : under ≤ above * 10 ^ digitCount ((under - 1) / above) := by
      have := (Nat.div_lt_iff_lt_mul habove).mp hlast
      rw [Nat.mul_comm]
      omega
    rw [hexp, zpow_neg, zpow_natCast, inv_eq_one_div,
      div_le_div_iff₀ (by positivity) (by exact_mod_cast hunder), one_mul]
    exact_mod_cast hunder'

/-! ### The result -/

theorem value_ofPoint (n : Nat) (step : Int) : (ofPoint n step).value = n * 10 ^ step := by
  unfold ofPoint
  split
  · rename_i h
    rw [h, Decimal.value, zpow_add_one₀ (by norm_num)]
    push_cast
    ring
  · rfl

/-- The search ends with a point that reads back if the last grid has one. -/
theorem exists_search (count : Nat) (step : Int)
    (hlast : (b.grid (step - count)).readsBack ((b.grid (step - count)).nearest tie) = true) :
    ∃ n t, b.search tie count step = ofPoint n t ∧ (b.grid t).readsBack n = true := by
  induction count generalizing step with
  | zero =>
    rw [Nat.cast_zero, sub_zero] at hlast
    exact ⟨_, step, rfl, hlast⟩
  | succ count ih =>
    rw [search]
    cases hpick : (b.grid step).pick? tie with
    | some n => exact ⟨n, step, rfl, Grid.readsBack_of_pick? hpick⟩
    | none =>
      refine ih (step - 1) ?_
      have : step - 1 - (count : Int) = step - (count + 1 : Nat) := by omega
      rwa [this]

/-- Seventeen digits always suffice. -/
theorem exists_shortest (hpos : 0 < b.mantissa) (hlt : b.mantissa < 2 ^ 53) (tie : Tie) :
    ∃ n t, b.shortest tie = ofPoint n t ∧ (b.grid t).readsBack n = true := by
  refine exists_search 16 (b.magnitude - 1) (readsBack_nearest hpos hlt ?_ tie)
  refine (quarters_le_iff b _ _ _).2.mpr ?_
  rw [div_le_iff₀ (by positivity)]
  refine le_trans (le_of_eq ?_) ((magnitude_le hpos).trans (le_of_eq ?_))
  · have hexp : b.magnitude - 1 = b.magnitude - 1 - (16 : Nat) + (16 : Nat) := by omega
    rw [hexp, zpow_add₀ (by norm_num : (10 : ℚ) ≠ 0) _ (16 : Nat), zpow_natCast, ← hexp, mul_comm]
    push_cast
    rfl
  · push_cast
    ring

end Binary

namespace Double

variable {x : Double}

/-- The shortest decimal of a double is rounded to this double. -/
theorem rounds_shortest (hfinite : x.isFinite = true) (hsign : x.isNegative = false)
    (hpos : 0 < x.binary.mantissa) (tie : Tie) : x.Rounds (x.binary.shortest tie).value := by
  obtain ⟨n, t, hshortest, hreads⟩ := Binary.exists_shortest hpos x.binary_mantissa_lt tie
  rw [hshortest, Binary.value_ofPoint]
  exact rounds_of_readsBack hfinite hsign hreads

end Double

/-! ## Whole numbers -/

theorem Binary.value_of_toNat? {b : Binary} {n : Nat} (h : b.toNat? = some n) :
    (b.mantissa * 2 ^ b.exponent : ℚ) = n := by
  have hscale : (0 : ℚ) < 2 ^ (-b.exponent).toNat := by positivity
  have hvalue := Double.pow_toNat_neg_mul_zpow two_ne_zero b.exponent
  unfold toNat? at h
  split at h
  · rename_i hexp
    obtain rfl := Option.some.inj h
    rw [Int.toNat_eq_zero.mpr (by omega), pow_zero, one_mul] at hvalue
    rw [hvalue]
    exact_mod_cast rfl
  · rename_i hexp
    dsimp only at h
    split at h
    · rename_i hmod
      obtain rfl := Option.some.inj h
      have hdvd : 2 ^ (-b.exponent).toNat ∣ b.mantissa := Nat.dvd_of_mod_eq_zero hmod
      rw [Int.toNat_eq_zero.mpr (show b.exponent ≤ 0 by omega), pow_zero] at hvalue
      show _ = ((b.mantissa / 2 ^ (-b.exponent).toNat : Nat) : ℚ)
      rw [Nat.cast_div hdvd (by exact_mod_cast hscale.ne'),
        eq_div_iff (by exact_mod_cast hscale.ne')]
      push_cast
      rw [mul_assoc, mul_comm (2 ^ b.exponent), hvalue, mul_one]
    · cases h

theorem Binary.mantissa_pos_of_toNat? {b : Binary} (h : b.toNat? = none) : 0 < b.mantissa := by
  rcases Nat.eq_zero_or_pos b.mantissa with hzero | hpos
  · unfold toNat? at h
    rw [hzero] at h
    split at h
    · cases h
    · dsimp only at h
      rw [Nat.zero_mod, if_pos rfl] at h
      cases h
  · exact hpos

/-- A double that is a whole number is this number rounded. -/
theorem Double.rounds_toNat? {x : Double} {n : Nat} (hfinite : x.isFinite = true)
    (hsign : x.isNegative = false) (h : x.binary.toNat? = some n) : x.Rounds n := by
  have hunit : (0 : ℚ) < 2 ^ x.binary.exponent := by positivity
  rw [← Binary.value_of_toNat? h]
  refine rounds_of_near hfinite hsign ?_ fun hnarrow => ?_
  · rw [mul_div_cancel_right₀ _ hunit.ne']
    have hdist : |(x.binary.mantissa : ℚ) - x.binary.mantissa| = 0 := by rw [sub_self, abs_zero]
    refine ⟨hdist ▸ by norm_num, fun htie => ?_⟩
    rw [hdist] at htie
    norm_num at htie
  · have hmantissa := Binary.mantissa_of_narrowBelow hnarrow
    rw [hmantissa]
    push_cast
    gcongr
    norm_num

end LoxWalk
