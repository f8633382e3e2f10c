import CobolCalls.Dict
import CobolCalls.Statement

/-
  The outline of a source: what its lines say, in order, before any option is looked at.

  Outside a section only program headings and section headings count. Inside a section the
  statements count, up to the section's exit. From EXEC CICS LINK on, the line itself included,
  only PROGRAM clauses count, up to and including the first line with END-EXEC. Comment lines are
  passed over everywhere, but they are counted.

  A section may not stand before the first program heading, its exit must carry its number, and
  sections and link blocks must be closed when the source ends. The first violation ends the
  outline.
-/

namespace CobolCalls

/-- A section of a program. -/
structure Procedure where
  program : String
  name : SectionName
deriving DecidableEq

/-- What a line says. -/
inductive Event where
  | program (name : String)
  | opens (procedure : Procedure)
  | performs (procedure : Procedure) (target : SectionName)
  | calls (procedure : Procedure) (target : String)
  | links (procedure : Procedure) (target : String)
  /-- A section heading inside an open section, which has no effect. -/
  | strays (procedure : Procedure) (found : SectionName)
  /-- A section's exit, with the literals moved to each field in it. -/
  | closes (procedure : Procedure) (fields : Dict (List String))
deriving DecidableEq

/-- How a source can violate its block structure. -/
inductive Fault where
  | mismatchedEnd (beginLine endLine : Nat) (expected found : String)
  | beforeProgram (line : Nat) (found : SectionName)
  | unterminatedSection (beginLine : Nat) (procedure : Procedure)
  | unterminatedLink (beginLine : Nat)
deriving DecidableEq

/-- A section whose exit has not come yet. -/
structure OpenSection where
  procedure : Procedure
  beginLine : Nat
  fields : Dict (List String)
deriving DecidableEq

/-- The blocks around a line. -/
inductive Block where
  /-- No section is open; the last program heading is known. -/
  | outside (program : Option String)
  | inSection (s : OpenSection)
  | inLink (s : OpenSection) (beginLine : Nat)
deriving DecidableEq

/-- One more literal moved to a field. -/
def OpenSection.assign (s : OpenSection) (value field : String) : OpenSection :=
  { s with fields := s.fields.insert field ((s.fields.get? field).getD [] ++ [value]) }

namespace Block

def stepOutside (n : Nat) (line : Line) (program : Option String) :
    Except Fault (Option Event × Block) :=
  match Statement.programId line with
  | some name => .ok (some (.program name), outside (some name))
  | none =>
    match Statement.sectionBegin line, program with
    | some name, some program =>
      let procedure : Procedure := ⟨program, name⟩
      .ok (some (.opens procedure), inSection ⟨procedure, n, ∅⟩)
    | some name, none => .error (.beforeProgram n name)
    | none, _ => .ok (none, outside program)

def stepLink (line : Line) (s : OpenSection) (beginLine : Nat) : Option Event × Block :=
  ((Statement.linkProgram line).map (.links s.procedure),
    if Statement.hasEndExec line then inSection s else inLink s beginLine)

def stepSection (n : Nat) (line : Line) (s : OpenSection) :
    Except Fault (Option Event × Block) :=
  match Statement.sectionExit line with
  | some number =>
    if number = s.procedure.name.number then
      .ok (some (.closes s.procedure s.fields), outside (some s.procedure.program))
    else .error (.mismatchedEnd s.beginLine n s.procedure.name.number number)
  | none =>
    match Statement.assignment line with
    | some (value, field) => .ok (none, inSection (s.assign value field))
    | none =>
      match Statement.performTarget line with
      | some target => .ok (some (.performs s.procedure target), inSection s)
      | none =>
        match Statement.callTarget line with
        | some target => .ok (some (.calls s.procedure target), inSection s)
        | none =>
          if Statement.isLinkBegin line then .ok (stepLink line s n)
          else .ok ((Statement.sectionBegin line).map (.strays s.procedure), inSection s)

/-- One line that is no comment, at line number `n`. -/
def step (n : Nat) (line : Line) : Block → Except Fault (Option Event × Block)
  | outside program => stepOutside n line program
  | inSection s => stepSection n line s
  | inLink s beginLine => .ok (stepLink line s beginLine)

/-- What is wrong when the source ends here. -/
def fault? : Block → Option Fault
  | outside _ => none
  | inSection s => some (.unterminatedSection s.beginLine s.procedure)
  | inLink _ beginLine => some (.unterminatedLink beginLine)

end Block

structure Outline where
  /-- What was read, each with its line number. -/
  events : List (Nat × Event)
  /-- What ended the reading, if not the end of a complete source. -/
  fault : Option Fault
deriving DecidableEq

namespace Outline

/-- The outline of lines from number `n` on, inside the given blocks. -/
def ofLinesFrom (n : Nat) (block : Block) : List Line → Outline
  | [] => ⟨[], block.fault?⟩
  | line :: rest =>
    if Statement.isComment line then ofLinesFrom (n + 1) block rest
    else
      match block.step n line with
      | .error fault => ⟨[], some fault⟩
      | .ok (event, block) =>
        let outline := ofLinesFrom (n + 1) block rest
        { outline with events := (event.map (n, ·)).toList ++ outline.events }

/-- The outline of a source text; lines count from one. -/
def ofSource (source : String) : Outline := ofLinesFrom 1 (.outside none) (Text.lines source)

end Outline
end CobolCalls
