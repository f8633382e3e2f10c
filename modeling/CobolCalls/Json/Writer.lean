import CobolCalls.Decimal.Layout
import CobolCalls.Json.Basic

/-
  Writing JSON text, either compact or pretty. Pretty text has one item or member a line,
  indented by two spaces a level; an empty container stays on its line. Strings escape quotes,
  backslashes and control characters and nothing else.
-/

namespace CobolCalls.Json

def hexChar (n : Nat) : Char := Nat.digitChar n

/-- How a character stands inside a string. -/
def escape (c : Char) : List Char :=
  match c with
  | '"' => ['\\', '"']
  | '\\' => ['\\', '\\']
  | '\x08' => ['\\', 'b']
  | '\x0c' => ['\\', 'f']
  | '\n' => ['\\', 'n']
  | '\r' => ['\\', 'r']
  | '\t' => ['\\', 't']
  | c =>
    if c.toNat < 0x20 then ['\\', 'u', '0', '0', hexChar (c.toNat / 16), hexChar (c.toNat % 16)]
    else [c]

def quoted (s : String) : List Char := '"' :: s.toList.flatMap escape ++ ['"']

def Number.text : Number → List Char
  | .nat n => Nat.toDigits 10 n
  | .neg n => '-' :: Nat.toDigits 10 n
  | .float x => (Decimal.plain.float? x).getD "null".toList

/-- The text of a value that is no container. -/
def scalar : Json → List Char
  | .null => "null".toList
  | .bool true => "true".toList
  | .bool false => "false".toList
  | .num n => n.text
  | .str s => quoted s
  | .void => "null".toList
  | .arr _ => []
  | .obj _ => []

/-! ## Compact text -/

mutual

def compactChars : Json → List Char
  | .arr [] => ['[', ']']
  | .arr (j :: rest) => '[' :: compactChars j ++ compactItems rest
  | .obj [] => ['\x7b', '\x7d']
  | .obj ((name, j) :: rest) =>
    '\x7b' :: quoted name ++ ':' :: compactChars j ++ compactMembers rest
  | j => scalar j

/-- The items after the first, and the end of the array. -/
def compactItems : List Json → List Char
  | [] => [']']
  | j :: rest => ',' :: compactChars j ++ compactItems rest

def compactMembers : List (String × Json) → List Char
  | [] => ['\x7d']
  | (name, j) :: rest => ',' :: quoted name ++ ':' :: compactChars j ++ compactMembers rest

end

def compact (j : Json) : String := String.ofList (compactChars j)

/-! ## Pretty text -/

/-- A new line at a level of nesting. -/
def newline (level : Nat) : List Char := '\n' :: List.replicate (2 * level) ' '

mutual

def prettyChars (level : Nat) : Json → List Char
  | .arr [] => ['[', ']']
  | .arr (j :: rest) =>
    '[' :: newline (level + 1) ++ prettyChars (level + 1) j ++ prettyItems level rest
  | .obj [] => ['\x7b', '\x7d']
  | .obj ((name, j) :: rest) =>
    '\x7b' :: newline (level + 1) ++ quoted name ++ ':' :: ' ' :: prettyChars (level + 1) j ++
      prettyMembers level rest
  | j => scalar j

/-- The items after the first, and the end of the array. -/
def prettyItems (level : Nat) : List Json → List Char
  | [] => newline level ++ [']']
  | j :: rest =>
    ',' :: newline (level + 1) ++ prettyChars (level + 1) j ++ prettyItems level rest

def prettyMembers (level : Nat) : List (String × Json) → List Char
  | [] => newline level ++ ['\x7d']
  | (name, j) :: rest =>
    ',' :: newline (level + 1) ++ quoted name ++ ':' :: ' ' :: prettyChars (level + 1) j ++
      prettyMembers level rest

end

def pretty (j : Json) : String := String.ofList (prettyChars 0 j)

end CobolCalls.Json
