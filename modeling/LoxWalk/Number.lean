import LoxWalk.Decimal.Layout
import LoxWalk.Double

/-!
# Numbers as text

Numbers are doubles.  They are written in three ways: as a program prints them (`Number.display`),
as a listing shows the value of a numeral (`Number.literal`), and as JSON (`Number.json`).  They are
read in one way, from digits with at most one point between them (`Number.ofNumeral`).
-/

namespace LoxWalk.Number

/-- `-` in front of whatever has its sign bit set. -/
def sign (x : Double) : String :=
  if x.isNegative then "-" else ""

/-- The size of `x` if `x` is a whole number. -/
def whole? (x : Double) : Option Nat :=
  if x.isFinite then x.binary.toNat? else none

/-- The shortest digits that read back, all in their places; infinities and NaN by name. -/
def shortest (x : Double) : String :=
  if x.isNaN then
    "NaN"
  else if x.isFinite then
    sign x ++ (x.binary.shortest .up).positional
  else
    sign x ++ "inf"

/-- A number as a program prints it: a whole number in full, without a point, and any other by its
shortest digits. -/
def display (x : Double) : String :=
  match whole? x with
  | some n => sign x ++ Nat.repr n
  | none => shortest x

/-- Whole numbers of this size and above are listed without a fraction. -/
def literalBound : Nat :=
  Nat.pow 2 63

/-- The value of a numeral as a listing shows it: `.0` marks a whole number below `literalBound`,
and zero has no sign. -/
def literal (x : Double) : String :=
  match whole? x with
  | some 0 => "0.0"
  | some n => if n < literalBound then sign x ++ Nat.repr n ++ ".0" else shortest x
  | none => shortest x

/-- A number as JSON, which has no infinities and no NaN: positional from `1e-5` up to `1e16`, a
whole number with `.0`, and with an exponent outside that range. -/
def json (x : Double) : String :=
  if !x.isFinite then
    "null"
  else if x.isZero then
    sign x ++ "0.0"
  else
    let d := x.binary.shortest .toEven
    if -5 < d.pointAt ∧ d.pointAt ≤ 16 then
      sign x ++ d.positional ++ (if 0 ≤ d.exponent then ".0" else "")
    else
      sign x ++ d.scientific

/-! ## Reading -/

/-- The number that a run of digits stands for. -/
def digitsValue (digits : List Char) : Nat :=
  digits.foldl (fun n c => 10 * n + (c.toNat - '0'.toNat)) 0

/-- The double nearest to `whole.fraction`, both given by their digits. -/
def ofNumeral (whole fraction : List Char) : Double :=
  .ofRatio (digitsValue (whole ++ fraction)) (Nat.pow 10 fraction.length)

end LoxWalk.Number
