/-
  Lines of a text. A line ends at a line feed, and one carriage return right before the line
  feed belongs to the end, not to the line. Any other carriage return stays in its line. A final
  line feed opens no further line.

  Columns are counted in bytes of the UTF-8 form, so a character outside ASCII takes more than
  one column.
-/

namespace CobolCalls

/-- A line of source text, without its end. -/
abbrev Line := List Char

namespace Text

/-- The line read so far, given last character first, once its line feed is met. -/
def closeLine : List Char → Line
  | '\r' :: before => before.reverse
  | before => before.reverse

/-- The lines of `text` when `before` (last character first) already stands in the first one. -/
def linesAfter (before : List Char) : List Char → List Line
  | [] => if before.isEmpty then [] else [before.reverse]
  | '\n' :: rest => closeLine before :: linesAfter [] rest
  | c :: rest => linesAfter (c :: before) rest

def lines (text : String) : List Line := linesAfter [] text.toList

/-- The character that starts at a byte offset of the line. -/
def charAtByte? : Nat → Line → Option Char
  | _, [] => none
  | 0, c :: _ => some c
  | n + 1, c :: rest => if c.utf8Size ≤ n + 1 then charAtByte? (n + 1 - c.utf8Size) rest else none

end Text
end CobolCalls
