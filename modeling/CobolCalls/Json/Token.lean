import CobolCalls.Decimal.Layout
import CobolCalls.Json.Basic

/-
  The tokens of JSON text. `lex` is strict: no leading zeros, no control characters inside
  strings, and only the four blanks of JSON between tokens. A literal may be well formed and have
  no value: a number beyond the doubles, a string with half a surrogate pair.
-/

namespace CobolCalls.Json

inductive Token where
  | openArray
  | closeArray
  | openObject
  | closeObject
  | comma
  | colon
  | null
  | bool (b : Bool)
  | num (n : Option Number)
  | str (s : Option String)

/-! ## Strings -/

/-- A part of a string literal: a character, or a UTF-16 unit written in hexadecimal. -/
inductive Piece where
  | char (c : Char)
  | unit (n : Nat)

def hexDigit? (c : Char) : Option Nat :=
  if '0' ≤ c && c ≤ '9' then some (c.toNat - 0x30)
  else if 'a' ≤ c && c ≤ 'f' then some (c.toNat - 0x61 + 10)
  else if 'A' ≤ c && c ≤ 'F' then some (c.toNat - 0x41 + 10)
  else none

def unit? (a b c d : Char) : Option Nat := do
  let a ← hexDigit? a
  let b ← hexDigit? b
  let c ← hexDigit? c
  let d ← hexDigit? d
  return ((a * 16 + b) * 16 + c) * 16 + d

/-- The character meant by a backslash and one more character. -/
def escaped? : Char → Option Char
  | '"' => some '"'
  | '\\' => some '\\'
  | '/' => some '/'
  | 'b' => some '\x08'
  | 'f' => some '\x0c'
  | 'n' => some '\n'
  | 'r' => some '\r'
  | 't' => some '\t'
  | _ => none

/-- The parts of a string literal up to its closing quote, added to those already read (last
first), and what follows the quote. -/
def pieces (done : List Piece) : List Char → Option (List Piece × List Char)
  | [] => none
  | '"' :: rest => some (done.reverse, rest)
  | '\\' :: 'u' :: a :: b :: c :: d :: rest =>
    match unit? a b c d with
    | some n => pieces (.unit n :: done) rest
    | none => none
  | '\\' :: e :: rest =>
    match escaped? e with
    | some c => pieces (.char c :: done) rest
    | none => none
  | c :: rest => if c == '\\' || c.toNat < 0x20 then none else pieces (.char c :: done) rest

def isHighSurrogate (n : Nat) : Bool := 0xD800 ≤ n && n < 0xDC00
def isLowSurrogate (n : Nat) : Bool := 0xDC00 ≤ n && n < 0xE000

/-- The characters of a string's parts; surrogates must come in pairs. -/
def characters? : List Piece → Option (List Char)
  | [] => some []
  | .char c :: rest => (characters? rest).map (c :: ·)
  | .unit n :: .unit m :: rest =>
    if isHighSurrogate n then
      if isLowSurrogate m then
        let c := Char.ofNat (0x10000 + (n - 0xD800) * 0x400 + (m - 0xDC00))
        (characters? rest).map (c :: ·)
      else none
    else if isLowSurrogate n then none
    else (characters? (.unit m :: rest)).map (Char.ofNat n :: ·)
  | .unit n :: rest =>
    if isHighSurrogate n || isLowSurrogate n then none
    else (characters? rest).map (Char.ofNat n :: ·)

/-- A string after its opening quote. -/
def string? (text : List Char) : Option (Option String × List Char) := do
  let (parts, rest) ← pieces [] text
  return ((characters? parts).map String.ofList, rest)

/-! ## Numbers -/

def isDigit (c : Char) : Bool := '0' ≤ c && c ≤ '9'

def digitValue (c : Char) : Nat := c.toNat - 0x30

def natOf (digits : List Char) : Nat := digits.foldl (fun n c => 10 * n + digitValue c) 0

/-- Whole numbers from zero that are kept exactly. -/
def maxNat : Nat := 0xffffffffffffffff

/-- The leading digits that together fit in 64 bits, as a number on top of `n`, and how many
digits are left over. -/
def significand (n : Nat) : List Char → Nat × Nat
  | [] => (n, 0)
  | c :: rest =>
    let next := 10 * n + digitValue c
    if next ≤ maxNat then significand next rest else (n, rest.length + 1)

/-- The double written by sign, digits before and after the point, and exponent. Digits beyond
64 bits do not count, only their places before the point do. -/
def float? (negative : Bool) (whole fraction : List Char) (exponent : Int) : Option Float :=
  let (n, dropped) := significand 0 whole
  let (n, ignored) := significand n fraction
  let places := fraction.length - ignored
  (Decimal.scale? n (exponent + dropped - places)).map fun x => if negative then -x else x

/-- A number without point and exponent is kept exactly where 64 bits hold it. -/
def integer? (negative : Bool) (digits : List Char) : Option Number :=
  let n := natOf digits
  if !negative && n ≤ maxNat then some (.nat n)
  else if negative && 0 < n && n ≤ 0x8000000000000000 then some (.neg n)
  else (float? negative digits [] 0).map .float

/-- An exponent after its mark. -/
def exponent? (text : List Char) : Option (Int × List Char) :=
  let (negative, text) := match text with
    | '-' :: rest => (true, rest)
    | '+' :: rest => (false, rest)
    | _ => (false, text)
  match text.takeWhile isDigit with
  | [] => none
  | digits =>
    let n : Int := natOf digits
    some (if negative then -n else n, text.dropWhile isDigit)

/-- The digits after a point, if there is one. -/
def fraction? : List Char → Option (Option (List Char) × List Char)
  | '.' :: rest =>
    match rest.takeWhile isDigit with
    | [] => none
    | digits => some (some digits, rest.dropWhile isDigit)
  | text => some (none, text)

def mark? : List Char → Option (Option Int × List Char)
  | c :: rest =>
    if c == 'e' || c == 'E' then
      match exponent? rest with
      | some (e, rest') => some (some e, rest')
      | none => none
    else some (none, c :: rest)
  | [] => some (none, [])

/-- A number's value from its parts; a point or an exponent makes it a double. -/
def numberOf? (negative : Bool) (whole : List Char) (fraction : Option (List Char))
    (exponent : Option Int) : Option Number :=
  match fraction, exponent with
  | none, none => integer? negative whole
  | _, _ => (float? negative whole (fraction.getD []) (exponent.getD 0)).map .float

def unsigned? (negative : Bool) (text : List Char) : Option (Option Number × List Char) :=
  match text.takeWhile isDigit with
  | [] => none
  | '0' :: _ :: _ => none
  | whole => do
    let (fraction, rest) ← fraction? (text.dropWhile isDigit)
    let (exponent, rest) ← mark? rest
    return (numberOf? negative whole fraction exponent, rest)

def number? : List Char → Option (Option Number × List Char)
  | '-' :: rest => unsigned? true rest
  | text => unsigned? false text

/-! ## The lexer -/

def isSpace (c : Char) : Bool := c == ' ' || c == '\n' || c == '\r' || c == '\t'

/-- One token at the front of text that starts with no blank. -/
def token? : List Char → Option (Token × List Char)
  | '[' :: rest => some (.openArray, rest)
  | ']' :: rest => some (.closeArray, rest)
  | '\x7b' :: rest => some (.openObject, rest)
  | '\x7d' :: rest => some (.closeObject, rest)
  | ',' :: rest => some (.comma, rest)
  | ':' :: rest => some (.colon, rest)
  | '"' :: rest => (string? rest).map fun (s, rest) => (.str s, rest)
  | 'n' :: 'u' :: 'l' :: 'l' :: rest => some (.null, rest)
  | 't' :: 'r' :: 'u' :: 'e' :: rest => some (.bool true, rest)
  | 'f' :: 'a' :: 'l' :: 's' :: 'e' :: rest => some (.bool false, rest)
  | text => (number? text).map fun (n, rest) => (.num n, rest)

theorem length_dropWhile_le (p : Char → Bool) (text : List Char) :
    (text.dropWhile p).length ≤ text.length :=
  (List.dropWhile_sublist p).length_le

theorem pieces_length {done parts : List Piece} {text rest : List Char}
    (h : pieces done text = some (parts, rest)) : rest.length < text.length := by
  fun_induction pieces done text <;> simp_all <;> omega

theorem string?_length {text rest : List Char} {s : Option String}
    (h : string? text = some (s, rest)) : rest.length < text.length := by
  simp only [string?, bind, Option.bind_eq_some_iff, pure, Option.some.injEq] at h
  obtain ⟨⟨parts, rest'⟩, hp, he⟩ := h
  exact (Prod.mk.inj he).2 ▸ pieces_length hp

theorem fraction?_length {text rest : List Char} {digits : Option (List Char)}
    (h : fraction? text = some (digits, rest)) : rest.length ≤ text.length := by
  unfold fraction? at h
  split at h
  · split at h
    · simp at h
    · obtain ⟨_, rfl⟩ := by simpa using h
      have := length_dropWhile_le isDigit
      grind
  · grind

theorem exponent?_length {text rest : List Char} {e : Int}
    (h : exponent? text = some (e, rest)) : rest.length ≤ text.length := by
  unfold exponent? at h
  grind [length_dropWhile_le]

theorem mark?_length {text rest : List Char} {e : Option Int}
    (h : mark? text = some (e, rest)) : rest.length ≤ text.length := by
  unfold mark? at h
  split at h
  · split at h
    · split at h
      next heq =>
        have := exponent?_length heq
        grind
      · simp at h
    · grind
  · grind

theorem dropWhile_length_lt {p : Char → Bool} {text : List Char}
    (h : text.takeWhile p ≠ []) : (text.dropWhile p).length < text.length := by
  have whole := congrArg List.length (List.takeWhile_append_dropWhile (p := p) (l := text))
  have := List.length_pos_iff.2 h
  rw [List.length_append] at whole
  omega

theorem unsigned?_length {negative : Bool} {text rest : List Char} {n : Option Number}
    (h : unsigned? negative text = some (n, rest)) : rest.length < text.length := by
  unfold unsigned? at h
  split at h
  · simp at h
  · simp at h
  next notEmpty _ =>
    simp only [bind, Option.bind_eq_some_iff, pure, Option.some.injEq] at h
    obtain ⟨⟨fraction, rest₁⟩, hf, ⟨exponent, rest₂⟩, hm, he⟩ := h
    have h₁ := fraction?_length hf
    have h₂ := mark?_length hm
    have h₃ := dropWhile_length_lt notEmpty
    obtain ⟨_, rfl⟩ := Prod.mk.inj he
    dsimp only at h₂ ⊢
    omega

theorem number?_length {text rest : List Char} {n : Option Number}
    (h : number? text = some (n, rest)) : rest.length < text.length := by
  unfold number? at h
  split at h
  · have := unsigned?_length h
    grind
  · exact unsigned?_length h

theorem token?_length {text rest : List Char} {t : Token}
    (h : token? text = some (t, rest)) : rest.length < text.length := by
  unfold token? at h
  split at h <;> simp only [Option.map_eq_some_iff, Option.some.injEq, Prod.mk.injEq] at h
  case h_7 =>
    obtain ⟨⟨s, rest'⟩, hs, _, rfl⟩ := h
    exact Nat.lt_succ_of_lt (string?_length hs)
  case h_11 =>
    obtain ⟨⟨n, rest'⟩, hn, _, rfl⟩ := h
    exact number?_length hn
  all_goals
    obtain ⟨_, rfl⟩ := h
    simp only [List.length_cons]
    omega

/-- The tokens of the rest of a text after those already read, last first. -/
def lexOnto (done : List Token) (text : List Char) : Option (List Token) :=
  match text with
  | [] => some done.reverse
  | c :: rest =>
    if isSpace c then lexOnto done rest
    else
      match h : token? (c :: rest) with
      | some (t, rest') =>
        have := token?_length h
        lexOnto (t :: done) rest'
      | none => none
termination_by text.length
decreasing_by
  · exact Nat.lt_succ_self _
  · assumption

def lex (text : String) : Option (List Token) := lexOnto [] text.toList

end CobolCalls.Json
