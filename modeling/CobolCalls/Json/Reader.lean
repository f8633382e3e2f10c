import CobolCalls.Json.Token

/-
  Reading JSON text. The tokens drive a machine that keeps the containers still open, innermost
  first. A container beyond a fixed depth is void, and so is an object with a name that has no
  value.

  The reader stands for that of the library serde_json, with its limit on the depth: it takes the
  same texts and gives the same values. What is wrong with a text that it does not take is left out.
-/

namespace CobolCalls.Json

/-- The deepest nesting of arrays and objects that is read. -/
def maxDepth : Nat := 127

/-- A container that is still open, with what it holds so far, last first. -/
inductive Frame where
  | items (done : List Json)
  /-- The value of `name` is being read. -/
  | members (done : List (Option String × Json)) (name : Option String)

/-- What has been read, and so what may come next. -/
inductive Progress where
  /-- A value must come. -/
  | value (around : List Frame)
  /-- An array was opened: a value or its end. -/
  | firstItem (around : List Frame)
  /-- An object was opened: a name or its end. -/
  | firstName (around : List Frame)
  /-- A name must come. -/
  | name (done : List (Option String × Json)) (around : List Frame)
  /-- The colon after a name must come. -/
  | colon (done : List (Option String × Json)) (name : Option String) (around : List Frame)
  /-- A value is complete: what is around it goes on or ends. -/
  | complete (value : Json) (around : List Frame)

/-- Whether a container has room inside those around it. Only the first of them are counted. -/
def hasRoom (around : List Frame) : Bool := (around.take maxDepth).length < maxDepth

/-- A container that is complete, given what is around it. -/
def contained (around : List Frame) (value : Option Json) : Json :=
  if hasRoom around then value.getD .void else .void

/-- The object of members that come last first. -/
def object? (done : List (Option String × Json)) : Option Json :=
  (done.reverse.mapM fun m : Option String × Json => m.1.map (·, m.2)).map .obj

/-- A token where a value must come. -/
def Progress.begin (around : List Frame) (t : Token) : Option Progress :=
  match t with
  | .null => some (.complete .null around)
  | .bool b => some (.complete (.bool b) around)
  | .num n => some (.complete ((n.map .num).getD .void) around)
  | .str s => some (.complete ((s.map .str).getD .void) around)
  | .openArray => some (.firstItem around)
  | .openObject => some (.firstName around)
  | _ => none

def Progress.step (p : Progress) (t : Token) : Option Progress :=
  match p, t with
  | .value around, t => begin around t
  | .firstItem around, .closeArray => some (.complete (contained around (some (.arr []))) around)
  | .firstItem around, t => begin (.items [] :: around) t
  | .firstName around, .closeObject => some (.complete (contained around (object? [])) around)
  | .firstName around, .str key => some (.colon [] key around)
  | .name done around, .str key => some (.colon done key around)
  | .colon done key around, .colon => some (.value (.members done key :: around))
  | .complete v (.items done :: around), .comma => some (.value (.items (v :: done) :: around))
  | .complete v (.items done :: around), .closeArray =>
    some (.complete (contained around (some (.arr (v :: done).reverse))) around)
  | .complete v (.members done key :: around), .comma =>
    some (.name ((key, v) :: done) around)
  | .complete v (.members done key :: around), .closeObject =>
    some (.complete (contained around (object? ((key, v) :: done))) around)
  | _, _ => none

/-- The value that tokens spell, if they spell exactly one. -/
def ofTokens? (tokens : List Token) : Option Json :=
  match tokens.foldlM Progress.step (.value []) with
  | some (.complete v []) => some v
  | _ => none

def parse? (text : String) : Option Json := lex text >>= ofTokens?

end CobolCalls.Json
