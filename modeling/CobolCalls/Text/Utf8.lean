/-
  Reading bytes as text. Source files are not always UTF-8, so decoding never fails: each
  maximal ill-formed part of the bytes becomes one replacement character. The decoder looks at
  one byte at a time and remembers the sequence it is inside of.
-/

namespace CobolCalls.Text.Utf8

/-- A multi-byte sequence that is not complete yet. -/
structure Pending where
  /-- The bits collected so far. -/
  value : Nat
  /-- Bounds of the next byte. -/
  low : UInt8
  high : UInt8
  /-- How many bytes follow the next one. -/
  more : Nat

/-- Stands for an ill-formed part. -/
def replacement : Char := '\uFFFD'

/-- A byte at the start of a sequence: the characters it gives and the sequence it opens.
The narrower bounds of the second byte keep out overlong forms, surrogates and numbers beyond
the last code point. -/
def start (b : UInt8) : List Char × Option Pending :=
  if b < 0x80 then ([Char.ofNat b.toNat], none)
  else if b < 0xC2 then ([replacement], none)
  else if b < 0xE0 then ([], some ⟨b.toNat - 0xC0, 0x80, 0xBF, 0⟩)
  else if b == 0xE0 then ([], some ⟨0, 0xA0, 0xBF, 1⟩)
  else if b == 0xED then ([], some ⟨0xD, 0x80, 0x9F, 1⟩)
  else if b < 0xF0 then ([], some ⟨b.toNat - 0xE0, 0x80, 0xBF, 1⟩)
  else if b == 0xF0 then ([], some ⟨0, 0x90, 0xBF, 2⟩)
  else if b < 0xF4 then ([], some ⟨b.toNat - 0xF0, 0x80, 0xBF, 2⟩)
  else if b == 0xF4 then ([], some ⟨4, 0x80, 0x8F, 2⟩)
  else ([replacement], none)

/-- One byte inside or outside a sequence. A byte that cannot go on with the open sequence ends
it as ill-formed and is looked at again on its own. -/
def feed (pending : Option Pending) (b : UInt8) : List Char × Option Pending :=
  match pending with
  | none => start b
  | some p =>
    if p.low ≤ b && b ≤ p.high then
      let value := p.value * 64 + (b.toNat - 0x80)
      match p.more with
      | 0 => ([Char.ofNat value], none)
      | more + 1 => ([], some ⟨value, 0x80, 0xBF, more⟩)
    else
      let (chars, next) := start b
      (replacement :: chars, next)

/-- Decodes the rest of the bytes onto what was decoded before, last character first. -/
def decodeOnto (done : List Char) (pending : Option Pending) : List UInt8 → List Char
  | [] => (if pending.isSome then replacement :: done else done).reverse
  | b :: rest =>
    let (chars, next) := feed pending b
    decodeOnto (chars.reverse ++ done) next rest

/-- The text of a byte sequence, ill-formed parts replaced. -/
def decode (bytes : ByteArray) : String :=
  String.ofList (decodeOnto [] none bytes.toList)

end CobolCalls.Text.Utf8
