import CobolCalls.Dict
import CobolCalls.Statement

/-
  Literal values of declared fields. A CALL or a link may name a field instead of a program; the
  literal of the field's declaration then tells which program is meant.
-/

namespace CobolCalls.Fields

/-- Fields with the literals they are declared with; of several declarations the last counts.
Comment lines declare nothing. -/
def ofLines (lines : List Line) : Dict String :=
  Dict.ofList ((lines.filter fun l => !Statement.isComment l).filterMap Statement.fieldDeclaration)

def ofSource (source : String) : Dict String := ofLines (Text.lines source)

end CobolCalls.Fields
