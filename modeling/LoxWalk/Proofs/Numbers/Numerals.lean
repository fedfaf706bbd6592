import LoxWalk.Proofs.LongestMatch
import LoxWalk.Proofs.Numbers.Shortest

/-!
# Numbers as numerals

A numeral is what the scanner takes for a number: digits, and possibly a point and further digits.
A decimal that is written with every digit in its place is a numeral, and so is a whole number in
full; there are no exponents, and there is a digit on both sides of a point.  What is printed for a
finite double is a numeral, with `-` in front of it for a double with a sign, and the numeral stands
for the double without its sign (`Number.exists_numeral_display`).
-/

namespace LoxWalk

/-- Digits in front of a point and behind it.  Without digits behind it there is no point. -/
structure Numeral where
  whole : List Char
  fraction : List Char
  whole_ne_nil : whole ≠ []
  isDigit_whole : ∀ c ∈ whole, c.isDigit = true
  isDigit_fraction : ∀ c ∈ fraction, c.isDigit = true

namespace Numeral

/-- How a numeral is written. -/
def text (x : Numeral) : List Char :=
  if x.fraction = [] then x.whole else x.whole ++ '.' :: x.fraction

/-- The double that a numeral stands for. -/
def double (x : Numeral) : Double :=
  Number.ofNumeral x.whole x.fraction

end Numeral

/-! ## Digits of naturals -/

namespace Number

theorem digitsValue_eq_ofDigitChars (digits : List Char) :
    digitsValue digits = Nat.ofDigitChars 10 digits 0 :=
  Nat.ofDigitChars_eq_foldl.symm

/-- The value of digits that are those of a scaled natural. -/
theorem rounds_of_digits {whole fraction : List Char} {n : Nat} {t : Int}
    (hvalue : digitsValue (whole ++ fraction) = n * 10 ^ t.toNat)
    (hlength : fraction.length = (-t).toNat) : (ofNumeral whole fraction).Rounds (n * 10 ^ t) := by
  have hten : (0 : ℚ) < 10 ^ (-t).toNat := by positivity
  have hrounds := Double.ofRatio_rounds (n * 10 ^ t.toNat)
    (pow_ne_zero (-t).toNat (show (10 : Nat) ≠ 0 by decide))
  have heq : ((n * 10 ^ t.toNat : Nat) : ℚ) / (10 ^ (-t).toNat : Nat) = n * 10 ^ t := by
    push_cast
    rw [div_eq_iff hten.ne', ← Double.pow_toNat_neg_mul_zpow (by norm_num) t]
    ring
  rw [heq] at hrounds
  unfold ofNumeral
  rw [hvalue, hlength]
  exact hrounds

end Number

/-! ## Decimals in full -/

namespace Decimal

open Number

variable {d : Decimal}

theorem toList_text (d : Decimal) : d.text.toList = Nat.toDigits 10 d.digits :=
  Nat.toList_repr

theorem pointAt_eq (d : Decimal) : d.pointAt = (Nat.toDigits 10 d.digits).length + d.exponent := by
  rw [pointAt, ← String.length_toList, toList_text]

theorem isDigit_of_mem_digits {c : Char} (hc : c ∈ Nat.toDigits 10 d.digits) : c.isDigit = true :=
  Nat.isDigit_of_mem_toDigits (by decide) (by decide) hc

theorem isDigit_of_mem_zeros {n : Nat} {c : Char} (hc : c ∈ List.replicate n '0') :
    c.isDigit = true := by
  rw [List.eq_of_mem_replicate hc]
  rfl

theorem exists_numeral_of_nonneg (h : 0 ≤ d.exponent) :
    ∃ x : Numeral, x.text = d.positional.toList ∧ x.double.Rounds d.value := by
  refine ⟨⟨Nat.toDigits 10 d.digits ++ List.replicate d.exponent.toNat '0', [],
    List.append_ne_nil_of_left_ne_nil Nat.toDigits_ne_nil _, ?_, nofun⟩, ?_, ?_⟩
  · exact List.forall_mem_append.mpr
      ⟨fun _ => isDigit_of_mem_digits, fun _ => isDigit_of_mem_zeros⟩
  · rw [positional, if_pos h, String.toList_append, toList_text, zeros, String.toList_ofList]
    exact if_pos rfl
  · refine rounds_of_digits ?_ ?_
    · rw [List.append_nil, digitsValue_eq_ofDigitChars, Nat.ofDigitChars_append,
        Nat.ofDigitChars_ten_toDigits, Nat.ofDigitChars_replicate_zero, Nat.mul_comm]
    · rw [List.length_nil]
      omega

theorem exists_numeral_of_pointAt_pos (h : d.exponent < 0) (hpoint : 0 < d.pointAt) :
    ∃ x : Numeral, x.text = d.positional.toList ∧ x.double.Rounds d.value := by
  have hlength := d.pointAt_eq
  have hfraction : ((Nat.toDigits 10 d.digits).drop d.pointAt.toNat).length =
      (-d.exponent).toNat := by
    rw [List.length_drop]
    omega
  refine ⟨⟨(Nat.toDigits 10 d.digits).take d.pointAt.toNat,
    (Nat.toDigits 10 d.digits).drop d.pointAt.toNat, ?_, ?_, ?_⟩, ?_, ?_⟩
  · refine List.ne_nil_of_length_pos ?_
    rw [List.length_take]
    omega
  · exact fun _ hc => isDigit_of_mem_digits (List.mem_of_mem_take hc)
  · exact fun _ hc => isDigit_of_mem_digits (List.mem_of_mem_drop hc)
  · have hne : (Nat.toDigits 10 d.digits).drop d.pointAt.toNat ≠ [] :=
      List.ne_nil_of_length_pos (by omega)
    rw [positional, if_neg (Int.not_le.mpr h), if_pos hpoint]
    simp only [String.toList_append, String.toList_ofList, toList_text, List.append_assoc]
    exact if_neg hne
  · refine rounds_of_digits ?_ hfraction
    rw [List.take_append_drop, digitsValue_eq_ofDigitChars, Nat.ofDigitChars_ten_toDigits,
      Int.toNat_eq_zero.mpr h.le, Nat.pow_zero, Nat.mul_one]

theorem exists_numeral_of_pointAt_nonpos (h : d.exponent < 0) (hpoint : d.pointAt ≤ 0) :
    ∃ x : Numeral, x.text = d.positional.toList ∧ x.double.Rounds d.value := by
  have hlength := d.pointAt_eq
  refine ⟨⟨['0'], List.replicate (-d.pointAt).toNat '0' ++ Nat.toDigits 10 d.digits,
    List.cons_ne_nil _ _, List.forall_mem_singleton.mpr rfl, ?_⟩, ?_, ?_⟩
  · exact List.forall_mem_append.mpr
      ⟨fun _ => isDigit_of_mem_zeros, fun _ => isDigit_of_mem_digits⟩
  · have hne : List.replicate (-d.pointAt).toNat '0' ++ Nat.toDigits 10 d.digits ≠ [] :=
      List.append_ne_nil_of_right_ne_nil _ Nat.toDigits_ne_nil
    rw [positional, if_neg (Int.not_le.mpr h), if_neg (Int.not_lt.mpr hpoint)]
    simp only [zeros, String.toList_append, String.toList_ofList, toList_text, List.append_assoc]
    exact if_neg hne
  · refine rounds_of_digits ?_ ?_
    · rw [digitsValue_eq_ofDigitChars, ← List.append_assoc, Nat.ofDigitChars_append]
      have hzeros : ['0'] ++ List.replicate (-d.pointAt).toNat '0' =
          List.replicate ((-d.pointAt).toNat + 1) '0' := rfl
      rw [hzeros, Nat.ofDigitChars_replicate_zero, Nat.mul_zero, Nat.ofDigitChars_ten_toDigits,
        Int.toNat_eq_zero.mpr h.le, Nat.pow_zero, Nat.mul_one]
    · rw [List.length_append, List.length_replicate]
      omega

/-- A decimal with every digit in its place is a numeral that denotes the decimal. -/
theorem exists_numeral (d : Decimal) :
    ∃ x : Numeral, x.text = d.positional.toList ∧ x.double.Rounds d.value := by
  by_cases h : 0 ≤ d.exponent
  · exact exists_numeral_of_nonneg h
  · by_cases hpoint : 0 < d.pointAt
    · exact exists_numeral_of_pointAt_pos (Int.not_le.mp h) hpoint
    · exact exists_numeral_of_pointAt_nonpos (Int.not_le.mp h) (Int.not_lt.mp hpoint)

end Decimal

/-! ## What is printed -/

namespace Number

variable {x : Double}

theorem toList_sign (x : Double) : (sign x).toList = if x.isNegative then ['-'] else [] := by
  unfold sign
  split <;> rfl

theorem exists_numeral_repr (n : Nat) :
    ∃ y : Numeral, y.text = (Nat.repr n).toList ∧ y.double.Rounds n := by
  refine ⟨⟨Nat.toDigits 10 n, [], Nat.toDigits_ne_nil,
    fun _ => Nat.isDigit_of_mem_toDigits (by decide) (by decide), nofun⟩, ?_, ?_⟩
  · rw [Nat.toList_repr]
    exact if_pos rfl
  · have hvalue : digitsValue (Nat.toDigits 10 n ++ []) = n * 10 ^ (0 : Int).toNat := by
      rw [List.append_nil, digitsValue_eq_ofDigitChars, Nat.ofDigitChars_ten_toDigits]
      exact (Nat.mul_one n).symm
    have hrounds := rounds_of_digits hvalue rfl
    rwa [zpow_zero, mul_one] at hrounds

/-- A finite double is printed as a numeral, behind its sign. -/
theorem exists_numeral_display (h : x.isFinite = true) :
    ∃ y : Numeral, (display x).toList = (if x.isNegative then ['-'] else []) ++ y.text ∧
      y.double = x.abs := by
  have hfinite : x.abs.isFinite = true := x.isFinite_abs.trans h
  have hsign := x.isNegative_abs
  have hwhole : whole? x = x.binary.toNat? := if_pos h
  unfold display
  rw [hwhole]
  cases hn : x.binary.toNat? with
  | some n =>
    obtain ⟨y, htext, hrounds⟩ := exists_numeral_repr n
    refine ⟨y, ?_, hrounds.unique (Double.rounds_toNat? hfinite hsign (x.binary_abs ▸ hn))⟩
    dsimp only
    rw [String.toList_append, toList_sign, htext]
  | none =>
    have hpos := Binary.mantissa_pos_of_toNat? hn
    obtain ⟨y, htext, hrounds⟩ := (x.binary.shortest .up).exists_numeral
    rw [← x.binary_abs] at hpos hrounds
    refine ⟨y, ?_, hrounds.unique (Double.rounds_shortest hfinite hsign hpos .up)⟩
    dsimp only
    rw [shortest, Double.isNaN_of_isFinite h, if_neg Bool.false_ne_true, if_pos h,
      String.toList_append, toList_sign, htext]

end Number

/-! ## Numerals in texts -/

namespace Numeral

open Piece Source

theorem span_of_digits {cs : List Char} (h : ∀ c ∈ cs, c.isDigit = true) :
    cs.takeWhile Char.isDigit = cs ∧ cs.dropWhile Char.isDigit = [] :=
  ⟨List.takeWhile_eq_self_iff.mpr h, List.dropWhile_eq_nil_iff.mpr h⟩

variable (x : Numeral)

theorem newline_notMem_text : '\n' ∉ x.text := by
  have hdigits : ∀ cs : List Char, (∀ c ∈ cs, c.isDigit = true) → '\n' ∉ cs :=
    fun cs hcs hmem => absurd (hcs _ hmem) (by decide)
  have hwhole := hdigits x.whole x.isDigit_whole
  have hfraction := hdigits x.fraction x.isDigit_fraction
  unfold text
  split
  · exact hwhole
  · rw [List.mem_append, List.mem_cons]
    rintro (hmem | hpoint | hmem)
    · exact hwhole hmem
    · exact absurd hpoint (by decide)
    · exact hfraction hmem

/-- The scanner takes a whole numeral for a number. -/
theorem number_text : number x.text = (⟨.token (.number x.double), x.text⟩, []) := by
  unfold text double
  by_cases hnil : x.fraction = []
  · obtain ⟨htake, hdrop⟩ := span_of_digits x.isDigit_whole
    rw [if_pos hnil, hnil, number_of_not_fraction, htake, hdrop]
    intro d r h
    rw [hdrop] at h
    cases h
  · obtain ⟨d, r, hfraction⟩ := List.exists_cons_of_ne_nil hnil
    have hd : d.isDigit = true := x.isDigit_fraction d (hfraction ▸ List.mem_cons_self)
    have hpoint : ∀ c ∈ ('.' :: x.fraction).head?, c.isDigit = false := by
      rintro c ⟨⟩
      rfl
    obtain ⟨htake, hdrop⟩ := span_append x.isDigit_whole hpoint
    obtain ⟨htake', hdrop'⟩ := span_of_digits x.isDigit_fraction
    rw [hfraction] at htake hdrop htake' hdrop'
    rw [if_neg hnil, hfraction, number_of_fraction hdrop hd, htake, htake', hdrop']

theorem pieces_text : pieces x.text = [⟨.token (.number x.double), x.text⟩] := by
  have hnumber := x.number_text
  obtain ⟨c, cs, hwhole⟩ := List.exists_cons_of_ne_nil x.whole_ne_nil
  have hc : c.isDigit = true := x.isDigit_whole c (hwhole ▸ List.mem_cons_self)
  obtain ⟨cs', htext⟩ : ∃ cs', x.text = c :: cs' := by
    unfold text
    split
    · exact ⟨cs, hwhole⟩
    · exact ⟨cs ++ '.' :: x.fraction, by rw [hwhole, List.cons_append]⟩
  rw [htext] at hnumber ⊢
  rw [pieces_cons, next_of_isDigit hc, hnumber, pieces]

theorem locate_text (line : Nat) : locate line [⟨.token (.number x.double), x.text⟩] =
    [.token ⟨.number x.double, String.ofList x.text, line⟩, .token ⟨.eof, "", line⟩] := by
  rw [locate, locate, List.count_eq_zero.mpr x.newline_notMem_text]
  rfl

/-- A text that is a numeral is one token. -/
theorem scan_text {source : String} (h : source.toList = x.text) :
    scan source = [.token ⟨.number x.double, source, 1⟩, .token ⟨.eof, "", 1⟩] := by
  rw [scan, h, x.pieces_text, x.locate_text, ← h, String.ofList_toList]

/-- A minus sign in front of a numeral is a token of its own. -/
theorem scan_minus_text {source : String} (h : source.toList = '-' :: x.text) :
    scan source = [.token ⟨.symbol .minus, "-", 1⟩,
      .token ⟨.number x.double, String.ofList x.text, 1⟩, .token ⟨.eof, "", 1⟩] := by
  have hminus : Piece.next '-' x.text = (Piece.symbol .minus ['-'], x.text) := next_of_lone rfl
  rw [scan, h, pieces_cons, hminus, x.pieces_text, ← x.locate_text]
  rfl

end Numeral

end LoxWalk
