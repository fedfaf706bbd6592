import LoxWalk.Decimal

/-!
# Writing a decimal down

A decimal is written positionally, with every digit in its place, or scientifically, with one digit
in front of the point and the rest of the size in an exponent.
-/

namespace LoxWalk.Decimal

/-- The digits, most significant first. -/
def text (d : Decimal) : String :=
  Nat.repr d.digits

/-- `n` zeros. -/
def zeros (n : Nat) : String :=
  String.ofList (List.replicate n '0')

/-- How many digits stand in front of the point; negative when zeros follow it. -/
def pointAt (d : Decimal) : Int :=
  d.text.length + d.exponent

/-- Every digit in its place: a whole number has no point, any other a digit on both sides of
it. -/
def positional (d : Decimal) : String :=
  let digits := d.text
  if 0 ≤ d.exponent then
    digits ++ zeros d.exponent.toNat
  else if 0 < d.pointAt then
    let whole := d.pointAt.toNat
    String.ofList (digits.toList.take whole) ++ "." ++ String.ofList (digits.toList.drop whole)
  else
    "0." ++ zeros (-d.pointAt).toNat ++ digits

/-- One digit, the other digits after a point if there are any, and the power of ten with its
sign. -/
def scientific (d : Decimal) : String :=
  let fraction := String.ofList (d.text.toList.drop 1)
  let power := d.pointAt - 1
  String.ofList (d.text.toList.take 1)
    ++ (if fraction.isEmpty then "" else "." ++ fraction)
    ++ "e" ++ (if power < 0 then "-" else "+") ++ Nat.repr power.natAbs

end LoxWalk.Decimal
