import CobolCalls.Decimal.Binary

/-
  The shortest decimal that reads back as a given double.

  A finite double is `m · 2^q`. The reals that round to it form an interval around it; a decimal
  in that interval reads back as the double. `shortest` tries grids of one digit, two digits and
  so on, and on each grid the two neighbours of the value: if any point of a grid lies in the
  interval, one of these does. Everything is compared as integers over a common denominator.
-/

namespace CobolCalls.Decimal

/-- A positive binary fraction with the interval of reals that round to it, all three over one
denominator. -/
structure Rounding where
  low : Nat
  value : Nat
  high : Nat
  denominator : Nat
  /-- Whether the ends of the interval round to the value too. -/
  closed : Bool

/-- The interval of `m · 2^q`. `narrow` holds at a power of two, below which the doubles are
twice as dense. A tie goes to the even neighbour, so the ends belong to an even `m`. -/
def Rounding.ofBinary (m : Nat) (q : Int) (narrow : Bool) : Rounding :=
  let low := if narrow then 4 * m - 1 else 4 * m - 2
  let scale := q - 2
  if 0 ≤ scale then
    let f := pow2 scale.toNat
    ⟨low * f, 4 * m * f, (4 * m + 2) * f, 1, m % 2 == 0⟩
  else
    ⟨low, 4 * m, 4 * m + 2, pow2 (-scale).toNat, m % 2 == 0⟩

/-- Where a decimal `digits · 10^exponent` lies: both sides of a comparison with `n / d`. -/
def sides (n d : Nat) (digits : Nat) (exponent : Int) : Nat × Nat :=
  if 0 ≤ exponent then (n, digits * pow10 exponent.toNat * d)
  else (n * pow10 (-exponent).toNat, digits * d)

def Rounding.contains (r : Rounding) (digits : Nat) (exponent : Int) : Bool :=
  let (low, here) := sides r.low r.denominator digits exponent
  let (high, here') := sides r.high r.denominator digits exponent
  if r.closed then low ≤ here && here' ≤ high else low < here && here' < high

/-- The greatest `digits` with `digits · 10^exponent` not above the value. -/
def Rounding.floor (r : Rounding) (exponent : Int) : Nat :=
  if 0 ≤ exponent then r.value / (r.denominator * pow10 exponent.toNat)
  else r.value * pow10 (-exponent).toNat / r.denominator

/-- Of two neighbours on a grid, the one nearer to the value; the even one if both are equally
near. -/
def Rounding.nearer (r : Rounding) (below : Nat) (exponent : Int) : Nat :=
  let (value, here) := sides (2 * r.value) r.denominator (2 * below + 1) exponent
  if value < here then below
  else if here < value then below + 1
  else if below % 2 == 0 then below else below + 1

/-- The point of one grid that stands for the value, if the grid has any. -/
def Rounding.onGrid (r : Rounding) (exponent : Int) : Option Nat :=
  let below := r.floor exponent
  match r.contains below exponent, r.contains (below + 1) exponent with
  | true, true => some (r.nearer below exponent)
  | true, false => some below
  | false, true => some (below + 1)
  | false, false => none

/-- The number of decimal digits. -/
def width (n : Nat) : Nat := (Nat.toDigits 10 n).length

/-- The exponent of the leading digit: counted from the integer part, or, for a value below one,
from the first power of ten that lifts it to one. -/
def Rounding.leading (r : Rounding) : Int :=
  if r.denominator ≤ r.value then (width (r.value / r.denominator) : Int) - 1
  else -((List.range 400).countP fun k => r.value * pow10 k < r.denominator : Nat)

/-- Digits and exponent of the shortest decimal in the interval. Seventeen digits always
suffice for a double. -/
def Rounding.shortest (r : Rounding) : Nat × Int :=
  let exponents := (List.range 17).map fun k => r.leading - (k : Nat)
  match exponents.findSome? fun e => (r.onGrid e).map fun d => (d, e) with
  | some answer => answer
  | none => (r.floor (r.leading - 16), r.leading - 16)

end CobolCalls.Decimal
