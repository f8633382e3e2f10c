/-
  The parts of a double: a finite one is `m · 2^q` up to its sign.
-/

namespace CobolCalls.Decimal

def pow2 (k : Nat) : Nat := Nat.pow 2 k

def pow10 (k : Nat) : Nat := Nat.pow 10 k

structure Binary where
  negative : Bool
  m : Nat
  q : Int
  /-- Whether the doubles just below are twice as dense as those above. -/
  narrow : Bool

/-- The leading bit of a normal double, which is not stored. -/
def hidden : Nat := pow2 52

/-- An infinity or a NaN has no parts. -/
def Binary.ofFloat? (x : Float) : Option Binary :=
  let bits := x.toBits.toNat
  let negative := bits / 0x8000000000000000 == 1
  let field : Nat := bits / hidden % 0x800
  let fraction : Nat := bits % hidden
  if field == 0x7ff then none
  else if field == 0 then some ⟨negative, fraction, -1074, false⟩
  else some ⟨negative, hidden + fraction, (field : Int) - 1075, fraction == 0 && 1 < field⟩

end CobolCalls.Decimal
