/-!
# The fewest decimal digits that read back

A finite double is `mantissa · 2 ^ exponent`.  The reals that round to it form an interval, from
halfway to the double below to halfway to the double above, whose ends belong to it exactly when
the mantissa is even.  `Binary.shortest` tries ever finer decimal grids; on each grid only the two
points next to the value matter, and the first grid with a point inside the interval wins.

Everything is exact arithmetic on naturals: two scaled numbers are compared by multiplying both
sides up to a common unit (`Binary.Grid`).
-/

namespace LoxWalk

/-- The size of a finite double: `mantissa · 2 ^ exponent`. -/
structure Binary where
  mantissa : Nat
  exponent : Int
deriving DecidableEq

/-- The number `digits · 10 ^ exponent`. -/
structure Decimal where
  digits : Nat
  exponent : Int
deriving DecidableEq

/-- What becomes of a value that lies halfway between two decimals of one length. -/
inductive Tie where
  | up
  | toEven
deriving DecidableEq

namespace Binary

/-- The double below a power of two is half as far away as the double above it. -/
def narrowBelow (b : Binary) : Bool :=
  b.mantissa == Nat.pow 2 52 && b.exponent > -1074

/-- The whole number that `b` stands for, if it is one. -/
def toNat? (b : Binary) : Option Nat :=
  if 0 ≤ b.exponent then
    some (b.mantissa * Nat.pow 2 b.exponent.toNat)
  else
    let scale := Nat.pow 2 (-b.exponent).toNat
    if b.mantissa % scale = 0 then some (b.mantissa / scale) else none

/-! ## One decimal grid

Quarters of the last binary place make both ends of the interval whole numbers. -/

/-- The interval of `b` in quarters of its last binary place, and the factors that bring these
quarters and the points of a decimal grid to one unit. -/
structure Grid where
  low : Nat
  value : Nat
  high : Nat
  quarter : Nat
  point : Nat
  closed : Bool

/-- The grid of the multiples of `10 ^ step`, seen from `b`. -/
def grid (b : Binary) (step : Int) : Grid where
  low := 4 * b.mantissa - if b.narrowBelow then 1 else 2
  value := 4 * b.mantissa
  high := 4 * b.mantissa + 2
  quarter := Nat.pow 2 (b.exponent - 2).toNat * Nat.pow 10 (-step).toNat
  point := Nat.pow 2 (2 - b.exponent).toNat * Nat.pow 10 step.toNat
  closed := b.mantissa % 2 == 0

namespace Grid

/-- Whether the grid point `n` lies among the reals that round to the value. -/
def readsBack (g : Grid) (n : Nat) : Bool :=
  let here := n * g.point
  if g.closed then
    g.low * g.quarter ≤ here && here ≤ g.high * g.quarter
  else
    g.low * g.quarter < here && here < g.high * g.quarter

/-- The last grid point that is not above the value. -/
def below (g : Grid) : Nat :=
  g.value * g.quarter / g.point

/-- Of the two grid points around the value the closer one. -/
def nearest (g : Grid) (tie : Tie) : Nat :=
  match compare (2 * (g.value * g.quarter)) ((2 * g.below + 1) * g.point) with
  | .lt => g.below
  | .gt => g.below + 1
  | .eq =>
    match tie with
    | .up => g.below + 1
    | .toEven => if g.below % 2 = 0 then g.below else g.below + 1

/-- The closest grid point that reads back, if one does. -/
def pick? (g : Grid) (tie : Tie) : Option Nat :=
  match g.readsBack g.below, g.readsBack (g.below + 1) with
  | true, true => some (g.nearest tie)
  | true, false => some g.below
  | false, true => some (g.below + 1)
  | false, false => none

end Grid

/-! ## The search -/

/-- The number of decimal digits of `n`, one for zero. -/
def digitCount (n : Nat) : Nat :=
  (Nat.toDigits 10 n).length

/-- The least `k` with `b < 10 ^ k`, for `b` other than zero. -/
def magnitude (b : Binary) : Int :=
  let above := b.mantissa * Nat.pow 2 b.exponent.toNat
  let under := Nat.pow 2 (-b.exponent).toNat
  if under ≤ above then
    digitCount (above / under)
  else
    1 - (digitCount ((under - 1) / above) : Int)

/-- `10 · 10 ^ e` is written `1 · 10 ^ (e + 1)`. -/
def ofPoint (n : Nat) (step : Int) : Decimal :=
  if n = 10 then ⟨1, step + 1⟩ else ⟨n, step⟩

/-- Tries `count` grids from `step` downwards, and takes the nearest point of the one after them
when none of these has a point that reads back. -/
def search (b : Binary) (tie : Tie) : Nat → Int → Decimal
  | 0, step => ofPoint ((b.grid step).nearest tie) step
  | count + 1, step =>
    match (b.grid step).pick? tie with
    | some n => ofPoint n step
    | none => search b tie count (step - 1)

/-- The shortest decimal that reads back as `b`, the closest one of that length; `b` is not
zero.  Seventeen digits always suffice. -/
def shortest (b : Binary) (tie : Tie) : Decimal :=
  b.search tie 16 (b.magnitude - 1)

end Binary

end LoxWalk
