import Mathlib.Algebra.Order.Field.Power
import Mathlib.Tactic.FieldSimp
import Mathlib.Tactic.Linarith
import Mathlib.Tactic.NormNum
import Mathlib.Tactic.Positivity
import Mathlib.Tactic.Ring
import LoxWalk.Number

/-!
# Rounding to doubles

A finite double stands for a rational number, `Double.value`.  `Double.Rounds` says that a double is
a number rounded to nearest, where a half goes to the even fraction and what is too large becomes
infinite; there is one such double for each number (`Double.Rounds.unique`).

`Double.ofRatio` rounds quotients (`Double.ofRatio_rounds`), and so the value of a numeral is the
number that its digits denote, rounded (`Number.ofNumeral_rounds`).  The proof counts in units of
the last binary place.  There the fraction is a whole number next to the quotient; any other double
is a whole number too, or below all that have fifty-three digits; and a carry only moves to the next
exponent.
-/

namespace LoxWalk

namespace Double

/-! ## The number behind the bits -/

/-- The number that a finite double stands for. -/
def value (x : Double) : ℚ :=
  (if x.isNegative then -1 else 1) * (x.binary.mantissa * 2 ^ x.binary.exponent)

theorem binary_eq (x : Double) :
    x.binary = if x.size / 2 ^ 52 = 0 then ⟨x.size % 2 ^ 52, -1074⟩
      else ⟨2 ^ 52 + x.size % 2 ^ 52, ((x.size / 2 ^ 52 : Nat) : Int) - 1075⟩ :=
  rfl

theorem binary_mantissa_lt (x : Double) : x.binary.mantissa < 2 ^ 53 := by
  have h : x.size % 2 ^ 52 < 2 ^ 52 := Nat.mod_lt _ (by decide)
  rw [binary_eq]
  split <;> dsimp only <;> omega

theorem le_binary_exponent (x : Double) : -1074 ≤ x.binary.exponent := by
  rw [binary_eq]
  split <;> dsimp only <;> omega

/-- An exponent and a fraction, one above the other.  The smallest exponent takes all fractions. -/
theorem binary_eq_of_size {x : Double} {e f : Nat} (hx : x.size = e * 2 ^ 52 + f) (hf : f < 2 ^ 53)
    (he : e = 0 ∨ 2 ^ 52 ≤ f) : x.binary = ⟨f, (e : Int) - 1074⟩ := by
  rw [binary_eq, hx]
  by_cases hsub : f < 2 ^ 52
  · obtain rfl : e = 0 := by omega
    rw [if_pos (by omega)]
    congr 1
    omega
  · rw [if_neg (by omega)]
    congr 1 <;> omega

/-- The fraction of a power of two may also come from a carry. -/
theorem binary_of_size {x : Double} {e f : Nat} (hx : x.size = e * 2 ^ 52 + f) (hf : f ≤ 2 ^ 53)
    (he : e = 0 ∨ 2 ^ 52 ≤ f) :
    (x.binary.mantissa : ℚ) * 2 ^ x.binary.exponent = f * 2 ^ ((e : Int) - 1074) ∧
      x.binary.mantissa % 2 = f % 2 := by
  by_cases hcarry : f = 2 ^ 53
  · have hdiv : (e * 2 ^ 52 + f) / 2 ^ 52 = e + 2 := by omega
    have hmod : (e * 2 ^ 52 + f) % 2 ^ 52 = 0 := by omega
    rw [binary_eq, hx, hdiv, hmod, if_neg (by omega), hcarry]
    refine ⟨?_, by norm_num⟩
    have : ((e + 2 : Nat) : Int) - 1075 = (e - 1074) + 1 := by omega
    dsimp only
    rw [this, zpow_add₀ two_ne_zero]
    push_cast
    ring
  · rw [binary_eq_of_size hx (by omega) he]
    exact ⟨rfl, rfl⟩

/-- Every size has one exponent and one fraction. -/
theorem exists_fraction (s : Nat) :
    ∃ e f, s = e * 2 ^ 52 + f ∧ f < 2 ^ 53 ∧ (e = 0 ∨ 2 ^ 52 ≤ f) := by
  refine ⟨s / 2 ^ 52 - 1, s - (s / 2 ^ 52 - 1) * 2 ^ 52, ?_, ?_, ?_⟩ <;> omega

/-- The next size is the next number, and of the two fractions one is even. -/
theorem value_lt_of_size {x y : Double} (hx : x.isNegative = false) (hy : y.isNegative = false)
    (h : y.size = x.size + 1) :
    x.value < y.value ∧ (x.binary.mantissa % 2 = 0 → y.binary.mantissa % 2 = 1) := by
  obtain ⟨e, f, hs, hf, he⟩ := exists_fraction x.size
  obtain ⟨hxv, hxp⟩ := binary_of_size hs hf.le he
  obtain ⟨hyv, hyp⟩ := binary_of_size (x := y) (e := e) (f := f + 1) (by omega) hf (by omega)
  rw [value, value, hx, hy, hxv, hyv]
  refine ⟨?_, by omega⟩
  simp only [Bool.false_eq_true, if_false, one_mul]
  gcongr
  exact Nat.lt_succ_self f

/-! ## Whole numbers next to quotients -/

/-- `m` is a whole number next to `q`; of two equally close ones it is the even one. -/
structure IsNearest (m : Nat) (q : ℚ) : Prop where
  near : |(m : ℚ) - q| ≤ 1 / 2
  even : |(m : ℚ) - q| = 1 / 2 → m % 2 = 0

theorem roundEven_isNearest (n : Nat) {d : Nat} (hd : 0 < d) :
    IsNearest (roundEven n d) (n / d) := by
  have hpos : (0 : ℚ) < d := by exact_mod_cast hd
  have hr : n % d < d := Nat.mod_lt n hd
  -- the quotient is its whole part and the remainder
  have hq : (n : ℚ) / d = (n / d : Nat) + (n % d : Nat) / d := by
    rw [div_eq_iff hpos.ne', add_mul, div_mul_cancel₀ _ hpos.ne']
    exact_mod_cast (Nat.div_add_mod' n d).symm
  have hhalf (k : Nat) :
      ((k : ℚ) / d < 1 / 2 ↔ 2 * k < d) ∧ ((k : ℚ) / d = 1 / 2 ↔ 2 * k = d) := by
    rw [div_lt_div_iff₀ hpos two_pos, div_eq_div_iff hpos.ne' two_ne_zero, one_mul, mul_comm]
    exact ⟨by exact_mod_cast Iff.rfl, by exact_mod_cast Iff.rfl⟩
  have hnonneg : (0 : ℚ) ≤ (n % d : Nat) / d := by positivity
  have hone : ((n % d : Nat) : ℚ) / d < 1 := (div_lt_one hpos).mpr (by exact_mod_cast hr)
  obtain ⟨hlt, heq⟩ := hhalf (n % d)
  rw [hq]
  unfold roundEven
  cases hc : compare (2 * (n % d)) d with
  | lt =>
    have := hlt.mpr (compare_lt_iff_lt.mp hc)
    have habs : |((n / d : Nat) : ℚ) - ((n / d : Nat) + (n % d : Nat) / d)| =
        (n % d : Nat) / d := by
      rw [sub_add_cancel_left, abs_neg, abs_of_nonneg hnonneg]
    exact ⟨by rw [habs]; exact this.le, fun h => absurd (habs ▸ h) this.ne⟩
  | gt =>
    have hgt := compare_gt_iff_gt.mp hc
    have : (1 / 2 : ℚ) < (n % d : Nat) / d := by
      rcases lt_trichotomy ((n % d : Nat) / d : ℚ) (1 / 2) with h | h | h
      · have := hlt.mp h
        omega
      · have := heq.mp h
        omega
      · exact h
    have habs : |((n / d + 1 : Nat) : ℚ) - ((n / d : Nat) + (n % d : Nat) / d)| =
        1 - (n % d : Nat) / d := by
      rw [Nat.cast_add_one, add_sub_add_left_eq_sub, abs_of_pos (sub_pos.mpr hone)]
    refine ⟨by rw [habs]; linarith, fun h => ?_⟩
    rw [habs] at h
    linarith
  | eq =>
    have htie := heq.mpr (compare_eq_iff_eq.mp hc)
    dsimp only
    rw [htie]
    refine ⟨?_, fun _ => by omega⟩
    rcases Nat.mod_two_eq_zero_or_one (n / d) with h | h <;> rw [h]
    · norm_num
    · norm_num

namespace IsNearest

variable {m : Nat} {q : ℚ}

/-- No whole number is closer, and another one is as close only if `m` is even. -/
theorem le (h : IsNearest m q) {k : Int} (hk : k ≠ m) :
    |m - q| ≤ |k - q| ∧ (|m - q| = |k - q| → m % 2 = 0) := by
  have hdist : (1 : ℚ) ≤ |(k : ℚ) - m| := by
    have : (1 : Int) ≤ |k - m| := Int.one_le_abs (sub_ne_zero.mpr hk)
    exact_mod_cast this
  have htriangle : |(k : ℚ) - m| ≤ |k - q| + |m - q| := by
    rw [abs_sub_comm (m : ℚ) q]
    exact abs_sub_le _ _ _
  have hnear := h.near
  refine ⟨by linarith, fun heq => h.even ?_⟩
  linarith

theorem le_of_lt (h : IsNearest m q) {k : Nat} (hq : q < k) : m ≤ k := by
  have := (abs_le.mp h.near).2
  have : (m : ℚ) < (k + 1 : Nat) := by
    push_cast
    linarith
  exact Nat.lt_succ_iff.mp (by exact_mod_cast this)

theorem ge_of_le (h : IsNearest m q) {k : Nat} (hq : k ≤ q) : k ≤ m := by
  have := (abs_le.mp h.near).1
  have : (k : ℚ) < (m + 1 : Nat) := by
    push_cast
    linarith
  exact Nat.lt_succ_iff.mp (by exact_mod_cast this)

/-- Whatever is at least halfway to an even number is not rounded below it. -/
theorem even_le_iff (h : IsNearest m q) {k : Nat} (hk : k % 2 = 0) :
    k ≤ m ↔ (k : ℚ) - 1 / 2 ≤ q := by
  constructor
  · intro hle
    have := (abs_le.mp h.near).2
    have : (k : ℚ) ≤ m := by exact_mod_cast hle
    linarith
  · intro hq
    by_contra hlt
    have hle : (m : ℚ) + 1 ≤ k := by exact_mod_cast Nat.not_le.mp hlt
    have hnear := (abs_le.mp h.near).1
    have hm : (m : ℚ) + 1 = k := by linarith
    have htie := h.even (by rw [abs_of_nonpos (by linarith)]; linarith)
    have : m + 1 = k := by exact_mod_cast hm
    omega

end IsNearest

/-! ## The last place -/

/-- A power whose exponent may be negative, as a quotient of two powers of which one is 1. -/
theorem pow_toNat_neg_mul_zpow {a : ℚ} (ha : a ≠ 0) (k : Int) :
    a ^ (-k).toNat * a ^ k = a ^ k.toNat := by
  rw [← zpow_natCast, ← zpow_natCast, ← zpow_add₀ ha]
  congr 1
  omega

/-- Bringing a quotient to the unit `2 ^ p`. -/
theorem cast_scaled (n d : Nat) (p : Int) :
    ((n * 2 ^ (-p).toNat : Nat) : ℚ) / (d * 2 ^ p.toNat : Nat) = n / d / 2 ^ p := by
  have hscale : (2 : ℚ) ^ (-p).toNat ≠ 0 := pow_ne_zero _ two_ne_zero
  push_cast
  rw [← pow_toNat_neg_mul_zpow two_ne_zero p, mul_left_comm, mul_comm (n : ℚ),
    mul_div_mul_left _ _ hscale, div_mul_eq_div_div]

/-- The binary logarithms of two numbers bound their quotient. -/
theorem log2_bounds {n d : Nat} (hn : n ≠ 0) (hd : d ≠ 0) :
    (2 : ℚ) ^ ((n.log2 : Int) - d.log2 - 1) ≤ n / d ∧
      (n / d : ℚ) < 2 ^ ((n.log2 : Int) - d.log2 + 1) := by
  have hlow (k : Nat) (hk : k ≠ 0) : (2 : ℚ) ^ (k.log2 : Int) ≤ k := by
    rw [zpow_natCast]
    exact_mod_cast Nat.log2_self_le hk
  have hhigh (k : Nat) : (k : ℚ) < 2 ^ ((k.log2 : Int) + 1) := by
    have : (k : ℚ) < (2 ^ (k.log2 + 1) : Nat) := by exact_mod_cast Nat.lt_log2_self
    exact_mod_cast this
  have hpos : (0 : ℚ) < d := by exact_mod_cast Nat.pos_of_ne_zero hd
  rw [le_div_iff₀ hpos, div_lt_iff₀ hpos]
  constructor
  · calc (2 : ℚ) ^ ((n.log2 : Int) - d.log2 - 1) * d
        ≤ 2 ^ ((n.log2 : Int) - d.log2 - 1) * 2 ^ ((d.log2 : Int) + 1) := by
          gcongr
          exact (hhigh d).le
      _ = 2 ^ (n.log2 : Int) := by
          rw [← zpow_add₀ two_ne_zero]
          congr 1
          ring
      _ ≤ n := hlow n hn
  · calc (n : ℚ) < 2 ^ ((n.log2 : Int) + 1) := hhigh n
      _ = 2 ^ ((n.log2 : Int) - d.log2 + 1) * 2 ^ (d.log2 : Int) := by
          rw [← zpow_add₀ two_ne_zero]
          congr 1
          ring
      _ ≤ 2 ^ ((n.log2 : Int) - d.log2 + 1) * d := by
          gcongr
          exact hlow d hd

theorem two_pow_mul_zpow (k : Nat) (p : Int) : (2 : ℚ) ^ k * 2 ^ p = 2 ^ (k + p) := by
  rw [zpow_add₀ two_ne_zero, zpow_natCast]

/-- There is a place in whose units a quotient has fifty-three binary digits.  The logarithms leave
two places to choose from. -/
theorem exists_place {n d : Nat} (hn : n ≠ 0) (hd : d ≠ 0) :
    ∃ p : Int, lastPlace n d = max p (-1074) ∧ (n / d : ℚ) < 2 ^ 53 * 2 ^ p ∧
      2 ^ 52 * (2 : ℚ) ^ p ≤ n / d := by
  obtain ⟨hlow, hhigh⟩ := log2_bounds hn hd
  have hguess : (n * 2 ^ (-((n.log2 : Int) - d.log2 - 53)).toNat <
      2 ^ 53 * (d * 2 ^ ((n.log2 : Int) - d.log2 - 53).toNat)) ↔
        (n / d : ℚ) < 2 ^ 53 * 2 ^ ((n.log2 : Int) - d.log2 - 53) := by
    have hpos : 0 < d * 2 ^ ((n.log2 : Int) - d.log2 - 53).toNat :=
      Nat.mul_pos (Nat.pos_of_ne_zero hd) (Nat.two_pow_pos _)
    rw [← div_lt_iff₀ (by positivity), ← cast_scaled, div_lt_iff₀ (by exact_mod_cast hpos)]
    exact_mod_cast Iff.rfl
  refine ⟨_, rfl, ?_⟩
  split
  · rename_i h
    refine ⟨hguess.mp h, ?_⟩
    rw [two_pow_mul_zpow]
    convert hlow using 2
    omega
  · rename_i h
    have hle := not_lt.mp (mt hguess.mpr h)
    rw [two_pow_mul_zpow] at hle ⊢
    rw [two_pow_mul_zpow]
    constructor
    · convert hhigh using 2
      omega
    · refine (le_of_eq ?_).trans hle
      congr 1
      omega

/-- In units of its last place a quotient has fifty-three binary digits, and fewer only if the
places end there. -/
theorem lastPlace_bounds {n d : Nat} (hn : n ≠ 0) (hd : d ≠ 0) :
    -1074 ≤ lastPlace n d ∧ (n / d : ℚ) < 2 ^ 53 * 2 ^ lastPlace n d ∧
      (lastPlace n d = -1074 ∨ 2 ^ 52 * (2 : ℚ) ^ lastPlace n d ≤ n / d) := by
  obtain ⟨p, hplace, hhigh, hlow⟩ := exists_place hn hd
  rw [hplace]
  refine ⟨le_max_right _ _, hhigh.trans_le ?_, ?_⟩
  · gcongr
    · norm_num
    · exact le_max_left _ _
  · rcases le_total p (-1074) with h | h
    · exact .inl (max_eq_right h)
    · rw [max_eq_left h]
      exact .inr hlow

/-! ## Rounding -/

/-- The double `x` is `q` rounded, a number that is not negative: no finite double is closer, and of
two equally close ones `x` is the one with the even fraction.  From halfway between the largest
finite double and the power of two that would come next on, `x` is infinite. -/
structure Rounds (x : Double) (q : ℚ) : Prop where
  not_negative : x.isNegative = false
  not_nan : x.isNaN = false
  infinite_iff : x.isFinite = false ↔ 2 ^ 1024 - 2 ^ 970 ≤ q
  closest : x.isFinite = true → ∀ y : Double, y.isFinite = true → |x.value - q| ≤ |y.value - q|
  even : x.isFinite = true → ∀ y : Double, y.isFinite = true → y.value ≠ x.value →
    |x.value - q| = |y.value - q| → x.binary.mantissa % 2 = 0

/-- A double is a multiple of a power of two, or it is small. -/
theorem multiple_or_lt (y : Double) (p : Int) :
    (∃ k : Int, y.value = k * 2 ^ p) ∨ -1074 < p ∧ y.value < 2 ^ 52 * 2 ^ p := by
  rcases le_or_gt p y.binary.exponent with h | h
  · obtain ⟨k, hk⟩ := Int.le.dest h
    refine .inl ⟨(if y.isNegative then -1 else 1) * (y.binary.mantissa * 2 ^ k), ?_⟩
    rw [value, ← hk, add_comm, zpow_add₀ two_ne_zero, zpow_natCast]
    push_cast
    ring
  · refine .inr ⟨(le_binary_exponent y).trans_lt h, ?_⟩
    have hmantissa : (y.binary.mantissa : ℚ) < 2 ^ 53 := by exact_mod_cast binary_mantissa_lt y
    have hpos : (0 : ℚ) < 2 ^ y.binary.exponent := by positivity
    calc y.value ≤ y.binary.mantissa * 2 ^ y.binary.exponent := by
          rw [value]
          split
          · have : (0 : ℚ) ≤ y.binary.mantissa * 2 ^ y.binary.exponent := by positivity
            linarith
          · rw [one_mul]
      _ < 2 ^ 53 * 2 ^ y.binary.exponent := by gcongr
      _ ≤ 2 ^ 53 * 2 ^ (p - 1) := by
          gcongr
          · norm_num
          · omega
      _ = 2 ^ 52 * 2 ^ p := by
          rw [zpow_sub_one₀ two_ne_zero]
          ring

section

variable {x : Double} {e f : Nat} {q : ℚ}

/-- No double is closer to a number than the one whose fraction is next to it in units of its last
place. -/
theorem le_of_isNearest (hx : x.value = f * 2 ^ ((e : Int) - 1074))
    (hf : IsNearest f (q / 2 ^ ((e : Int) - 1074)))
    (hlow : e = 0 ∨ 2 ^ 52 * 2 ^ ((e : Int) - 1074) ≤ q) (y : Double) :
    |x.value - q| ≤ |y.value - q| ∧
      (y.value ≠ x.value → |x.value - q| = |y.value - q| → f % 2 = 0) := by
  have hunit : (0 : ℚ) < 2 ^ ((e : Int) - 1074) := by positivity
  have hdist (k : ℚ) : |k * 2 ^ ((e : Int) - 1074) - q| =
      |k - q / 2 ^ ((e : Int) - 1074)| * 2 ^ ((e : Int) - 1074) := by
    rw [← abs_of_pos hunit, ← abs_mul, abs_of_pos hunit, sub_mul, div_mul_cancel₀ _ hunit.ne']
  have hmultiple (k : Int) (hk : k ≠ f) :
      |x.value - q| ≤ |k * 2 ^ ((e : Int) - 1074) - q| ∧
        (|x.value - q| = |k * 2 ^ ((e : Int) - 1074) - q| → f % 2 = 0) := by
    obtain ⟨hle, htie⟩ := hf.le hk
    rw [hx, hdist, hdist]
    exact ⟨by gcongr, fun h => htie (mul_right_cancel₀ hunit.ne' h)⟩
  rcases multiple_or_lt y ((e : Int) - 1074) with ⟨k, hk⟩ | ⟨he, hsmall⟩
  · by_cases hkf : k = f
    · have hvalue : y.value = x.value := by rw [hk, hx, hkf, Int.cast_natCast]
      exact ⟨by rw [hvalue], fun h => absurd hvalue h⟩
    · rw [hk]
      obtain ⟨hle, htie⟩ := hmultiple k hkf
      exact ⟨hle, fun _ => htie⟩
  · -- smaller doubles are further away than the first one with fifty-three digits
    have hlow : 2 ^ 52 * 2 ^ ((e : Int) - 1074) ≤ q := hlow.resolve_left (by omega)
    have hfirst : |x.value - q| ≤ q - 2 ^ 52 * 2 ^ ((e : Int) - 1074) := by
      have habs : |((2 ^ 52 : Int) : ℚ) * 2 ^ ((e : Int) - 1074) - q| =
          q - 2 ^ 52 * 2 ^ ((e : Int) - 1074) := by
        rw [abs_sub_comm, Int.cast_pow, Int.cast_ofNat, abs_of_nonneg (sub_nonneg.mpr hlow)]
      by_cases hkf : (2 ^ 52 : Int) = f
      · rw [← habs, hx, ← Int.cast_natCast f, hkf]
      · rw [← habs]
        exact (hmultiple _ hkf).1
    have hfar : |y.value - q| = q - y.value := by
      rw [abs_sub_comm, abs_of_pos (by linarith)]
    exact ⟨by linarith, fun _ heq => by linarith⟩

theorem fraction_bounds (hf : IsNearest f (q / 2 ^ ((e : Int) - 1074)))
    (hhigh : q < 2 ^ 53 * 2 ^ ((e : Int) - 1074))
    (hlow : e = 0 ∨ 2 ^ 52 * 2 ^ ((e : Int) - 1074) ≤ q) :
    f ≤ 2 ^ 53 ∧ (e = 0 ∨ 2 ^ 52 ≤ f) := by
  have hunit : (0 : ℚ) < 2 ^ ((e : Int) - 1074) := by positivity
  constructor
  · apply hf.le_of_lt
    rw [div_lt_iff₀ hunit]
    exact_mod_cast hhigh
  · refine hlow.imp_right fun hle => hf.ge_of_le ?_
    rw [le_div_iff₀ hunit]
    exact_mod_cast hle

/-- Where the quotient is halfway or more to the first power of two that is too large, the size is
that of an infinite double, and only there. -/
theorem infiniteSize_le_iff (hf : IsNearest f (q / 2 ^ ((e : Int) - 1074)))
    (hhigh : q < 2 ^ 53 * 2 ^ ((e : Int) - 1074))
    (hlow : e = 0 ∨ 2 ^ 52 * 2 ^ ((e : Int) - 1074) ≤ q) :
    infiniteSize ≤ e * 2 ^ 52 + f ↔ 2 ^ 1024 - 2 ^ 970 ≤ q := by
  have hunit : (0 : ℚ) < 2 ^ ((e : Int) - 1074) := by positivity
  have hsize : infiniteSize = 2047 * 2 ^ 52 := rfl
  obtain ⟨hle, hge⟩ := fraction_bounds hf hhigh hlow
  have htop (k : Nat) : (2 : ℚ) ^ ((970 + k : Nat) : Int) = 2 ^ k * 2 ^ 970 := by
    rw [zpow_natCast, add_comm, pow_add]
  have htop' : (2 : ℚ) ^ 1024 - 2 ^ 970 = (2 ^ 54 - 1) * 2 ^ 970 := by
    rw [show 1024 = 54 + 970 from rfl, pow_add, sub_mul, one_mul]
  have hpos : (0 : ℚ) < 2 ^ 970 := by positivity
  rw [htop']
  rcases lt_trichotomy e 2045 with he | rfl | he
  · have hle970 : (2 : ℚ) ^ ((e : Int) - 1074) ≤ 2 ^ ((970 + 0 : Nat) : Int) :=
      zpow_le_zpow_right₀ one_le_two (by omega)
    rw [htop] at hle970
    refine iff_of_false (by omega) (not_le.mpr ?_)
    generalize (2 : ℚ) ^ 970 = g at *
    linarith
  · have hunit' : (2 : ℚ) ^ (((2045 : Nat) : Int) - 1074) = 2 ^ 1 * 2 ^ 970 := htop 1
    have hcarry := hf.even_le_iff (k := 2 ^ 53) (by norm_num)
    rw [hunit', le_div_iff₀ (hunit' ▸ hunit)] at hcarry
    have hhalf : (((2 ^ 53 : Nat) : ℚ) - 1 / 2) * (2 ^ 1 * 2 ^ 970) = (2 ^ 54 - 1) * 2 ^ 970 := by
      generalize (2 : ℚ) ^ 970 = g
      push_cast
      ring
    rw [← hhalf, ← hcarry]
    omega
  · have hlow : 2 ^ 52 * 2 ^ ((e : Int) - 1074) ≤ q := hlow.resolve_left (by omega)
    have hle972 : (2 : ℚ) ^ ((970 + 2 : Nat) : Int) ≤ 2 ^ ((e : Int) - 1074) :=
      zpow_le_zpow_right₀ one_le_two (by omega)
    rw [htop] at hle972
    refine iff_of_true (by omega) ?_
    generalize (2 : ℚ) ^ 970 = g at *
    linarith

/-- A double that is put together from the exponent and the fraction of a number is that number
rounded. -/
theorem rounds_of_isNearest (hsign : x.isNegative = false)
    (hsize : x.size = min infiniteSize (e * 2 ^ 52 + f))
    (hf : IsNearest f (q / 2 ^ ((e : Int) - 1074))) (hhigh : q < 2 ^ 53 * 2 ^ ((e : Int) - 1074))
    (hlow : e = 0 ∨ 2 ^ 52 * 2 ^ ((e : Int) - 1074) ≤ q) : x.Rounds q := by
  obtain ⟨hle, hge⟩ := fraction_bounds hf hhigh hlow
  have hfinite : x.isFinite = true → x.value = f * 2 ^ ((e : Int) - 1074) ∧
      x.binary.mantissa % 2 = f % 2 := by
    intro h
    have hlt : x.size < infiniteSize := of_decide_eq_true h
    obtain ⟨hvalue, hparity⟩ := binary_of_size (hsize.trans (by omega)) hle hge
    refine ⟨?_, hparity⟩
    rw [value, hsign, if_neg Bool.false_ne_true, one_mul, hvalue]
  constructor
  · exact hsign
  · exact decide_eq_false (by omega)
  · rw [← infiniteSize_le_iff hf hhigh hlow, isFinite, decide_eq_false_iff_not]
    omega
  · exact fun h y _ => (le_of_isNearest (hfinite h).1 hf hlow y).1
  · intro h y _ hne heq
    rw [(hfinite h).2]
    exact (le_of_isNearest (hfinite h).1 hf hlow y).2 hne heq

end

theorem size_ofNat {s : Nat} (hs : s ≤ infiniteSize) :
    size ⟨UInt64.ofNat s⟩ = s ∧ isNegative ⟨UInt64.ofNat s⟩ = false := by
  have hbound : infiniteSize < 2 ^ 63 := by decide
  have hbits : (UInt64.ofNat s).toNat = s := UInt64.toNat_ofNat_of_lt' (by
    show s < 2 ^ 64
    omega)
  constructor
  · show (UInt64.ofNat s).toNat % 2 ^ 63 = s
    rw [hbits]
    exact Nat.mod_eq_of_lt (by omega)
  · show decide (2 ^ 63 ≤ (UInt64.ofNat s).toNat) = false
    rw [hbits]
    exact decide_eq_false (by omega)

/-- A zero is zero rounded. -/
theorem zero_rounds : Rounds ⟨0⟩ 0 := by
  have hvalue : value ⟨0⟩ = 0 := by
    have hmantissa : (binary ⟨0⟩).mantissa = 0 := rfl
    rw [value, hmantissa, Nat.cast_zero, zero_mul, mul_zero]
  constructor
  · rfl
  · rfl
  · refine iff_of_false (by decide) (not_le.mpr (sub_pos.mpr ?_))
    exact pow_lt_pow_right₀ one_lt_two (by norm_num)
  · intro _ y _
    rw [hvalue, sub_zero, abs_zero]
    exact abs_nonneg _
  · exact fun _ _ _ _ _ => rfl

/-- Every quotient is rounded. -/
theorem ofRatio_rounds (n : Nat) {d : Nat} (hd : d ≠ 0) : (ofRatio n d).Rounds (n / d) := by
  unfold ofRatio
  by_cases hn : n = 0
  · rw [if_pos hn, hn, Nat.cast_zero, zero_div]
    exact zero_rounds
  · rw [if_neg hn]
    obtain ⟨hplace, hhigh, hlow⟩ := lastPlace_bounds hn hd
    obtain ⟨e, he⟩ := Int.eq_ofNat_of_zero_le (show 0 ≤ lastPlace n d + 1074 by omega)
    have hexp : lastPlace n d = (e : Int) - 1074 := by omega
    have hnat : (lastPlace n d + 1074).toNat = e := by omega
    have hnext := roundEven_isNearest (n * 2 ^ (-lastPlace n d).toNat)
      (Nat.mul_pos (Nat.pos_of_ne_zero hd) (Nat.two_pow_pos (lastPlace n d).toNat))
    rw [cast_scaled, hexp] at hnext
    rw [hexp] at hhigh hlow
    obtain ⟨hsize, hsign⟩ := size_ofNat (Nat.min_le_left infiniteSize (e * 2 ^ 52 +
      roundEven (n * 2 ^ (-((e : Int) - 1074)).toNat) (d * 2 ^ ((e : Int) - 1074).toNat)))
    dsimp only
    rw [hnat, hexp]
    exact rounds_of_isNearest hsign hsize hnext hhigh (hlow.imp_left fun h => by omega)

/-! ## One rounding -/

section

variable {x y : Double}

theorem eq_of_size (hx : x.isNegative = false) (hy : y.isNegative = false)
    (h : x.size = y.size) : x = y := by
  have hbits (z : Double) (hz : z.isNegative = false) : z.size = z.bits.toNat :=
    Nat.mod_eq_of_lt (Nat.not_le.mp (of_decide_eq_false hz))
  rw [hbits x hx, hbits y hy] at h
  cases x
  cases y
  exact congrArg mk (UInt64.toNat_inj.mp h)

/-- Larger sizes are larger numbers. -/
theorem value_lt_value (hx : x.isNegative = false) (hy : y.isNegative = false)
    (hsize : y.size ≤ infiniteSize) (h : x.size < y.size) : x.value < y.value := by
  obtain ⟨k, hk⟩ := Nat.exists_eq_add_of_lt h
  induction k generalizing y with
  | zero => exact (value_lt_of_size hx hy hk).1
  | succ k ih =>
    obtain ⟨hz, hzsign⟩ := size_ofNat (show x.size + k + 1 ≤ infiniteSize by omega)
    calc x.value < value ⟨UInt64.ofNat (x.size + k + 1)⟩ :=
          ih hzsign (by omega) (by omega) hz
      _ < y.value := (value_lt_of_size hzsign hy (by omega)).1

theorem Rounds.not_lt {q : ℚ} (hx : x.Rounds q) (hy : y.Rounds q) : ¬ x.size < y.size := by
  intro hlt
  have hxle : x.size ≤ infiniteSize := Nat.not_lt.mp (of_decide_eq_false hx.not_nan)
  have hyle : y.size ≤ infiniteSize := Nat.not_lt.mp (of_decide_eq_false hy.not_nan)
  have hxfin : x.isFinite = true := decide_eq_true (hlt.trans_le hyle)
  have hyfin : y.isFinite = true := by
    refine Bool.eq_true_of_not_eq_false fun h => ?_
    rw [hx.infinite_iff.mpr (hy.infinite_iff.mp h)] at hxfin
    cases hxfin
  have hvalue := value_lt_value hx.not_negative hy.not_negative hyle hlt
  have heq : |x.value - q| = |y.value - q| :=
    le_antisymm (hx.closest hxfin y hyfin) (hy.closest hyfin x hxfin)
  have hmid : x.value - q = -(y.value - q) :=
    (abs_eq_abs.mp heq).resolve_left (by
      intro h
      linarith)
  by_cases hnext : y.size = x.size + 1
  · -- of two neighbours one fraction is odd
    have hodd := (value_lt_of_size hx.not_negative hy.not_negative hnext).2
      (hx.even hxfin y hyfin hvalue.ne' heq)
    have heven := hy.even hyfin x hxfin hvalue.ne heq.symm
    omega
  · -- and what lies between two others is closer
    obtain ⟨hz, hzsign⟩ := size_ofNat (show x.size + 1 ≤ infiniteSize by omega)
    have hzfin : isFinite ⟨UInt64.ofNat (x.size + 1)⟩ = true := decide_eq_true (by omega)
    have hxz := value_lt_value hx.not_negative hzsign (by omega) (by omega)
    have hzy := value_lt_value hzsign hy.not_negative hyle (by omega)
    have hcloser : |value ⟨UInt64.ofNat (x.size + 1)⟩ - q| < |x.value - q| := by
      rw [abs_of_neg (show x.value - q < 0 by linarith), abs_lt]
      constructor <;> linarith
    exact absurd (hx.closest hxfin _ hzfin) (not_le.mpr hcloser)

/-- A number is rounded in one way. -/
theorem Rounds.unique {q : ℚ} (hx : x.Rounds q) (hy : y.Rounds q) : x = y := by
  apply eq_of_size hx.not_negative hy.not_negative
  exact le_antisymm (Nat.not_lt.mp (hy.not_lt hx)) (Nat.not_lt.mp (hx.not_lt hy))

end

end Double

/-! ## Numerals -/

namespace Number

/-- The number that the digits in front of a point denote, each by its place. -/
def wholeValue : List Char → ℚ
  | [] => 0
  | c :: cs => (c.toNat - '0'.toNat : Nat) * 10 ^ cs.length + wholeValue cs

/-- The number that the digits behind a point denote. -/
def fractionValue : List Char → ℚ
  | [] => 0
  | c :: cs => ((c.toNat - '0'.toNat : Nat) + fractionValue cs) / 10

theorem digitsValue_append (whole fraction : List Char) :
    (digitsValue (whole ++ fraction) : ℚ) =
      digitsValue whole * 10 ^ fraction.length + wholeValue fraction := by
  rw [digitsValue, List.foldl_append, ← digitsValue]
  generalize digitsValue whole = n
  induction fraction generalizing n with
  | nil => rw [List.foldl_nil, List.length_nil, pow_zero, mul_one, wholeValue, add_zero]
  | cons c cs ih =>
    rw [List.foldl_cons, ih, List.length_cons, wholeValue, pow_succ]
    push_cast
    ring

theorem digitsValue_eq (digits : List Char) : (digitsValue digits : ℚ) = wholeValue digits := by
  have h := digitsValue_append [] digits
  have hnil : digitsValue [] = 0 := rfl
  rwa [hnil, Nat.cast_zero, zero_mul, zero_add] at h

theorem fractionValue_eq (digits : List Char) :
    fractionValue digits = wholeValue digits / 10 ^ digits.length := by
  induction digits with
  | nil => rw [fractionValue, wholeValue, zero_div]
  | cons c cs ih =>
    rw [fractionValue, wholeValue, ih, List.length_cons, pow_succ]
    field_simp

/-- The value of a numeral is the number that it denotes, rounded. -/
theorem ofNumeral_rounds (whole fraction : List Char) :
    (ofNumeral whole fraction).Rounds (wholeValue whole + fractionValue fraction) := by
  have hdenom : (10 : ℚ) ^ fraction.length ≠ 0 := by positivity
  have h := Double.ofRatio_rounds (digitsValue (whole ++ fraction))
    (pow_ne_zero fraction.length (show (10 : Nat) ≠ 0 by decide))
  rwa [digitsValue_append, digitsValue_eq, Nat.cast_pow, Nat.cast_ofNat, add_div,
    mul_div_cancel_right₀ _ hdenom, ← fractionValue_eq] at h

/-- The number `2 ^ 53 + 1` lies halfway between two doubles. -/
example : ofNumeral "9007199254740993".toList [] = ⟨0x4340000000000000⟩ := by decide +kernel

end Number

end LoxWalk
