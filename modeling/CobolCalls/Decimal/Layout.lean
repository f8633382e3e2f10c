import CobolCalls.Decimal.Shortest

/-
  Doubles as text and back. The digits are the fewest that read back; `Layout` says how they are
  laid out. A decimal is read as its digits rounded to a double and scaled by a power of ten.
-/

namespace CobolCalls.Decimal

/-! ## Writing -/

structure Layout where
  /-- Exponents of the leading digit that are written positionally. -/
  lowest : Int
  highest : Int

/-- Positional from `0.00001` up to below `10^16`. -/
def plain : Layout := ⟨-5, 15⟩

def zeros (n : Nat) : List Char := List.replicate n '0'

def digitsOf (n : Nat) : List Char := Nat.toDigits 10 n

/-- Digits with a point after the first `before` of them; at least one digit stands on each
side. -/
def positional (digits : List Char) (leading : Int) : List Char :=
  if leading < 0 then '0' :: '.' :: zeros (-leading - 1).toNat ++ digits
  else
    let before := leading.toNat + 1
    if digits.length ≤ before then digits ++ zeros (before - digits.length) ++ ['.', '0']
    else digits.take before ++ '.' :: digits.drop before

/-- One digit before the point, and the exponent with its sign. -/
def scientific (digits : List Char) (leading : Int) : List Char :=
  let mantissa := match digits with
    | d :: [] => [d]
    | d :: rest => d :: '.' :: rest
    | [] => []
  mantissa ++ 'e' :: (if leading < 0 then '-' else '+') :: digitsOf leading.natAbs

def Layout.write (layout : Layout) (digits : Nat) (exponent : Int) : List Char :=
  let text := digitsOf digits
  -- a neighbour that rounds up to the next power of ten ends in zeros
  let text := (text.reverse.dropWhile (· == '0')).reverse
  let leading := exponent + (width digits : Int) - 1
  if layout.lowest ≤ leading && leading ≤ layout.highest then positional text leading
  else scientific text leading

def signed (b : Binary) (text : List Char) : List Char := if b.negative then '-' :: text else text

/-- The text of a finite double; an infinity or a NaN has none. -/
def Layout.float? (layout : Layout) (x : Float) : Option (List Char) := do
  let b ← Binary.ofFloat? x
  if b.m == 0 then return signed b ['0', '.', '0']
  else
    let (digits, exponent) := (Rounding.ofBinary b.m b.q b.narrow).shortest
    return signed b (layout.write digits exponent)

/-- A double to one decimal; a half goes to the even digit. -/
def oneDecimal (x : Float) : List Char :=
  match Binary.ofFloat? x with
  | none => []
  | some b =>
    let numerator := if 0 ≤ b.q then 10 * b.m * pow2 b.q.toNat else 10 * b.m
    let denominator := if 0 ≤ b.q then 1 else pow2 (-b.q).toNat
    let below := numerator / denominator
    let rest := 2 * (numerator % denominator)
    let up := denominator < rest || (denominator == rest && below % 2 == 1)
    let tenths := if up then below + 1 else below
    signed b (digitsOf (tenths / 10) ++ '.' :: digitsOf (tenths % 10))

/-! ## Reading -/

def tenTo (n : Nat) : Float := Float.ofScientific 1 false n

/-- Divides by a power of ten, in steps when the power is beyond the range of doubles. -/
def scaleDown (x : Float) (n : Nat) : Float :=
  if n ≤ 308 then x / tenTo n
  else if x == 0 then x
  else scaleDown (x / tenTo 308) (n - 308)
termination_by n

/-- `significand · 10^exponent`, or `none` when it is too large for a double. -/
def scale? (significand : Nat) (exponent : Int) : Option Float :=
  let x := significand.toUInt64.toFloat
  if exponent < 0 then some (scaleDown x exponent.natAbs)
  else if exponent ≤ 308 then
    let y := x * tenTo exponent.toNat
    if y.isInf then none else some y
  else if x == 0 then some x
  else none

end CobolCalls.Decimal
