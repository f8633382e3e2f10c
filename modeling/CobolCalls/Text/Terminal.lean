/-
  Text for a terminal. Some of its characters are not shown but steer: control characters, and
  escape sequences, which start with the escape character and run up to an end of their own.

  `plain` is what is left where no terminal stands behind the text. `visible` writes the steering
  characters out, so that text from elsewhere cannot steer.
-/

namespace CobolCalls.Text

/-- Where in an escape sequence a character stands. -/
inductive Mode where
  /-- In no sequence. -/
  | ground
  /-- Right after the escape character. -/
  | escape
  /-- After the first of the characters that precede the final one. -/
  | intermediate
  /-- In a control sequence: parameters and a final character. -/
  | control
  /-- In a command, which a bell ends. -/
  | command
  /-- At the start of a device control string. -/
  | device
  /-- In the parameters of a device control string. -/
  | deviceParameters
  /-- After the parameters of a device control string. -/
  | deviceIntermediate
  /-- In a string that only a terminator or another sequence ends. -/
  | body
deriving DecidableEq

def within (low high c : Char) : Bool := low ≤ c && c ≤ high

/-- The byte that ends a string, even as part of a character. -/
def terminator : UInt8 := 0x9c

namespace Mode

/-- What a character in a sequence leads to, a new sequence or a cancellation apart. -/
def advance (c : Char) : Mode → Mode
  | ground => ground
  | escape =>
    if c == '[' then control
    else if c == ']' then command
    else if c == 'P' then device
    else if c == 'X' || c == '^' || c == '_' then body
    else if within ' ' '/' c then intermediate
    else if within '0' '~' c then ground
    else escape
  | intermediate => if within '0' '~' c then ground else intermediate
  | control => if within '@' '~' c then ground else control
  | command => if c == '\x07' then ground else command
  | device =>
    if within '@' '~' c then body
    else if within '0' '?' c then deviceParameters
    else if within ' ' '/' c then deviceIntermediate
    else device
  | deviceParameters =>
    if within '<' '~' c then body
    else if within ' ' '/' c then deviceIntermediate
    else deviceParameters
  | deviceIntermediate => if within '0' '~' c then body else deviceIntermediate
  | body => if (String.utf8EncodeChar c).contains terminator then ground else body

/-- The mode after a character that is not shown. -/
def next (c : Char) (m : Mode) : Mode :=
  if c == '\x1b' then escape
  else if c == '\x18' || c == '\x1a' then ground
  else m.advance c

/-- Whether a control character acts at once, even in the middle of a sequence. -/
def executes : Mode → Bool
  | ground | escape | intermediate | control => true
  | _ => false

end Mode

/-- Control characters that part words. -/
def isLayout (c : Char) : Bool := c == '\t' || c == '\n' || c == '\x0c' || c == '\r'

/-- Characters that are shown outside of sequences. -/
def isShown (c : Char) : Bool := within ' ' '~' c || isLayout c || 0x80 ≤ c.toNat

/-- Whether a character is shown. Once one is shown, all are up to the next that never is, also
in a sequence that a layout character broke into. -/
def shows (m : Mode) (showing : Bool) (c : Char) : Bool :=
  if showing || m == .ground then isShown c else m.executes && isLayout c

/-- What is shown of text that starts in a mode. A character outside ASCII ends the sequence that
it is shown in. -/
def plainFrom (m : Mode) (showing : Bool) : List Char → List Char
  | [] => []
  | c :: rest =>
    if shows m showing c then c :: plainFrom (if c.toNat < 0x80 then m else .ground) true rest
    else plainFrom (m.next c) false rest

/-- Text without escape sequences and control characters. -/
def plain (text : String) : String := String.ofList (plainFrom .ground false text.toList)

def hexadecimal (n : Nat) : List Char := Nat.toDigits 16 n

/-- A character that can steer a terminal, written out. -/
def visibleChar (c : Char) : List Char :=
  if c == '\x1b' then "\\x1b".toList
  else if c == '\x07' then "\\x07".toList
  else if c == '\x08' then "\\x08".toList
  else if c == '\x0c' then "\\x0c".toList
  else if c == '\x7f' then "\\x7f".toList
  else if 0x80 ≤ c.toNat && c.toNat ≤ 0x9f then
    "\\u\x7b".toList ++ hexadecimal c.toNat ++ "\x7d".toList
  else [c]

/-- Text whose steering characters are written out. -/
def visible (text : String) : String := String.ofList (text.toList.flatMap visibleChar)

end CobolCalls.Text
