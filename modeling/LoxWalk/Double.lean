import LoxWalk.Decimal

/-!
# Doubles by their bits

A `Double` is the sixty-four bits of a number in the binary64 format: a sign, eleven bits for the
exponent and fifty-two for the fraction.  A token and a constant of a program hold a number in this
form, which tells all numbers apart, NaNs too, and which exact arithmetic can take apart.  Running
programs compute with `Float`.

`Double.ofRatio` is the way from exact numbers to doubles: the double next to a quotient of
naturals.
-/

namespace LoxWalk

/-- A number in the binary64 format. -/
structure Double where
  bits : UInt64
deriving DecidableEq

namespace Double

/-- The number to compute with. -/
def toFloat (d : Double) : Float :=
  .ofBits d.bits

/-- The bits of a number that was computed. -/
def ofFloat (x : Float) : Double :=
  ⟨x.toBits⟩

/-- Whether the sign bit is set, which zeros and NaNs have too. -/
def isNegative (d : Double) : Bool :=
  Nat.pow 2 63 ≤ d.bits.toNat

/-- All bits but the sign; larger sizes are larger numbers. -/
def size (d : Double) : Nat :=
  d.bits.toNat % Nat.pow 2 63

/-- The size of the infinities; NaNs are larger. -/
def infiniteSize : Nat :=
  2047 * Nat.pow 2 52

/-- Whether `d` is neither infinite nor a NaN. -/
def isFinite (d : Double) : Bool :=
  d.size < infiniteSize

/-- Whether `d` is a NaN. -/
def isNaN (d : Double) : Bool :=
  infiniteSize < d.size

/-- Whether `d` is a zero of either sign. -/
def isZero (d : Double) : Bool :=
  d.size == 0

/-- The size of a finite double without its sign. -/
def binary (d : Double) : Binary :=
  let fraction : Nat := d.size % Nat.pow 2 52
  let biased : Nat := d.size / Nat.pow 2 52
  if biased = 0 then ⟨fraction, -1074⟩ else ⟨Nat.pow 2 52 + fraction, (biased : Int) - 1075⟩

/-! ## The double next to a quotient -/

/-- `n / d` as a whole number; a half goes to the even neighbour. -/
def roundEven (n d : Nat) : Nat :=
  match compare (2 * (n % d)) d with
  | .lt => n / d
  | .gt => n / d + 1
  | .eq => n / d + n / d % 2

/-- The exponent of the last binary place of the doubles around `n / d`: with it the quotient has
fifty-three binary digits, unless it is so small that the places end before. -/
def lastPlace (n d : Nat) : Int :=
  let guess := (n.log2 : Int) - d.log2 - 53
  let exact :=
    if n * Nat.pow 2 (-guess).toNat < Nat.pow 2 53 * (d * Nat.pow 2 guess.toNat) then guess
    else guess + 1
  max exact (-1074)

/-- The double next to `n / d`; of two equally close ones that with the even fraction, and infinity
if the quotient is too large.  A fraction that is rounded up to a power of two carries into the
exponent, because that stands in the bits above it. -/
def ofRatio (n d : Nat) : Double :=
  if n = 0 then
    ⟨0⟩
  else
    let place := lastPlace n d
    let fraction := roundEven (n * Nat.pow 2 (-place).toNat) (d * Nat.pow 2 place.toNat)
    ⟨UInt64.ofNat (min infiniteSize ((place + 1074).toNat * Nat.pow 2 52 + fraction))⟩

end Double

end LoxWalk
