import CobolCalls.Text.Blank
import CobolCalls.Text.Line
import CobolCalls.Text.WordChar

/-
  The statements that matter for a call graph, recognised one line at a time.

  Sources are in fixed columns: seven columns of margin come first, so a heading starts after
  exactly seven spaces and a statement after at least eight. Each recogniser reads its form from
  the left; what stands after the form is free. Captured names are longest runs over their
  alphabet, and no alphabet holds the character that must follow, so reading never backtracks.

  Two searches look inside the line: a PROGRAM clause may follow any blank, and END-EXEC counts
  wherever it is not part of a longer word.
-/

namespace CobolCalls

/-- The name of a section: its number and what follows the first hyphen. -/
structure SectionName where
  number : String
  title : String
deriving DecidableEq

/-- `N-TITLE`, after the program's name in brackets if one is given. -/
def SectionName.label (s : SectionName) (program : Option String) : String :=
  match program with
  | some p => s!"[{p}] {s.number}-{s.title}"
  | none => s!"{s.number}-{s.title}"

namespace Statement

/-! ## Alphabets -/

def isUpper (c : Char) : Bool := 'A' ≤ c && c ≤ 'Z'
def isDigit (c : Char) : Bool := '0' ≤ c && c ≤ '9'

/-- Of a program's name in its heading. -/
def isProgramChar (c : Char) : Bool := isUpper c || isDigit c

/-- Of section titles, linked programs, declared fields and their values. -/
def isNameChar (c : Char) : Bool := isUpper c || isDigit c || c == '-'

/-- Of moved literals, their receiving fields and called programs. -/
def isOperandChar (c : Char) : Bool := isNameChar c || c == '_'

def isQuote (c : Char) : Bool := c == '\'' || c == '"'

/-! ## Reading from the left -/

/-- What follows `word`, if the line starts with it. -/
def after (word : String) (line : Line) : Option Line := word.toList.isPrefixOf? line

def skipSpaces (line : Line) : Line := line.dropWhile (· == ' ')

/-- What follows one or more spaces. -/
def afterSpaces : Line → Option Line
  | ' ' :: rest => some (skipSpaces rest)
  | _ => none

/-- What follows the margin of a heading. -/
def afterMargin (line : Line) : Option Line := after "       " line

/-- What follows the indentation of a statement: the margin and at least one more space. -/
def afterIndent (line : Line) : Option Line := afterMargin line >>= afterSpaces

def afterQuote : Line → Option Line
  | c :: rest => if isQuote c then some rest else none
  | [] => none

def skipQuote (line : Line) : Line := (afterQuote line).getD line

/-- The longest run over an alphabet, which must not be empty, and what follows it. -/
def run (alphabet : Char → Bool) (line : Line) : Option (String × Line) :=
  match line.takeWhile alphabet with
  | [] => none
  | name => some (String.ofList name, line.dropWhile alphabet)

/-- A section's name: digits, a hyphen and a title. -/
def sectionName (line : Line) : Option (SectionName × Line) := do
  let (number, line) ← run isDigit line
  let line ← after "-" line
  let (title, line) ← run isNameChar line
  return (⟨number, title⟩, line)

/-! ## Recognisers -/

/-- A comment has an asterisk or a slash in column seven. -/
def isComment (line : Line) : Bool :=
  match Text.charAtByte? 6 line with
  | some c => c == '*' || c == '/'
  | none => false

/-- `PROGRAM-ID. NAME.` -/
def programId (line : Line) : Option String := do
  let line ← afterMargin line
  let line ← after "PROGRAM-ID." line
  let line ← afterSpaces line
  let (name, line) ← run isProgramChar line
  let _ ← after "." line
  return name

/-- `NNNN-TITLE SECTION.` -/
def sectionBegin (line : Line) : Option SectionName := do
  let line ← afterMargin line
  let (name, line) ← sectionName line
  let line ← afterSpaces line
  let _ ← after "SECTION." line
  return name

/-- `NNNN-99-FIM. EXIT.`, of which the section's number is kept. -/
def sectionExit (line : Line) : Option String := do
  let line ← afterMargin line
  let (number, line) ← run isDigit line
  let line ← after "-99-FIM." line
  let line ← afterSpaces line
  let _ ← after "EXIT." line
  return number

/-- `MOVE 'VALUE' TO FIELD`, as the value and the field. The quotes need not be of one kind. -/
def assignment (line : Line) : Option (String × String) := do
  let line ← afterIndent line
  let line ← after "MOVE" line
  let line ← afterSpaces line
  let line ← afterQuote line
  let (value, line) ← run isOperandChar line
  let line ← afterQuote line
  let line ← afterSpaces line
  let line ← after "TO" line
  let line ← afterSpaces line
  let (field, _) ← run isOperandChar line
  return (value, field)

/-- `PERFORM NNNN-TITLE` -/
def performTarget (line : Line) : Option SectionName := do
  let line ← afterIndent line
  let line ← after "PERFORM" line
  let line ← afterSpaces line
  let (name, _) ← sectionName line
  return name

/-- `CALL 'PROGRAM'` or `CALL FIELD` -/
def callTarget (line : Line) : Option String := do
  let line ← afterIndent line
  let line ← after "CALL" line
  let line ← afterSpaces line
  let (target, _) ← run isOperandChar (skipQuote line)
  return target

/-- No word character stands first. -/
def wordEnds : Line → Bool
  | c :: _ => !Text.isWordChar c
  | [] => true

/-- `EXEC CICS LINK`, the beginning of a link block. -/
def isLinkBegin (line : Line) : Bool :=
  let rest := do
    let line ← afterIndent line
    let line ← after "EXEC" line
    let line ← afterSpaces line
    let line ← after "CICS" line
    let line ← afterSpaces line
    after "LINK" line
  rest.any wordEnds

/-! ### The program of a link -/

/-- The program named by a clause, after its opening parenthesis or spaces. -/
def clauseTarget (line : Line) : Option String := do
  let (target, _) ← run isNameChar (skipQuote line)
  return target

/-- `PROGRAM ( NAME`, with any number of spaces around the parenthesis. -/
def programClause (line : Line) : Option String := do
  let line ← after "PROGRAM" line
  let line ← after "(" (skipSpaces line)
  clauseTarget (skipSpaces line)

/-- A PROGRAM clause that opens the line's text. Here spaces may stand for the parenthesis. -/
def openingProgram (line : Line) : Option String := do
  let line ← afterIndent line
  let line ← after "PROGRAM" line
  match after "(" (skipSpaces line) with
  | some line => clauseTarget (skipSpaces line)
  | none => afterSpaces line >>= clauseTarget

/-- The first parenthesised clause that directly follows a blank. -/
def programAfterBlank : Line → Option String
  | [] => none
  | c :: rest =>
    (if Text.isBlank c then programClause rest else none) <|> programAfterBlank rest

/-- The program that a line of a link block names. -/
def linkProgram (line : Line) : Option String :=
  openingProgram line <|> programClause line <|> programAfterBlank line

/-! ### The end of a link block -/

/-- END-EXEC as a whole word somewhere in the line; `before` is the character to its left. -/
def endExecAfter (before : Option Char) : Line → Bool
  | [] => false
  | c :: rest =>
    (!before.any Text.isWordChar && (after "END-EXEC" (c :: rest)).any wordEnds) ||
      endExecAfter (some c) rest

def hasEndExec (line : Line) : Bool := endExecAfter none line

/-! ### Fields -/

/-- ` VALUE 'LITERAL'.` -/
def valueClause (line : Line) : Option String := do
  let line ← after " VALUE" line
  let line ← afterSpaces line
  let line ← afterQuote line
  let (value, line) ← run isNameChar line
  let line ← afterQuote line
  let _ ← after "." line
  return value

/-- The value of the rightmost VALUE clause. -/
def lastValue : Line → Option String
  | [] => none
  | c :: rest => lastValue rest <|> valueClause (c :: rest)

/-- `NN FIELD PIC ... VALUE 'LITERAL'.`, as the field and its last literal. -/
def fieldDeclaration (line : Line) : Option (String × String) := do
  let line ← afterIndent line
  let (_, line) ← run isDigit line
  let line ← afterSpaces line
  let (field, line) ← run isNameChar line
  let line ← afterSpaces line
  let line ← after "PIC" line
  let value ← lastValue (line.takeWhile (· != '\n'))
  return (field, value)

end Statement
end CobolCalls
