import CobolCalls.Json.Record
import CobolCalls.Statement

/-
  How the lines of a source become nodes and edges: whether repeated edges stay, whether sections
  are labelled with their program, and which called and linked programs are renamed.
-/

namespace CobolCalls

/-- Whether repeated edges stay where nothing is said of them. -/
def defaultKeepsRepeats : Bool := true

structure Options where
  keepsRepeats : Bool := defaultKeepsRepeats
  namespaced : Bool := false
  renames : Dict String := ∅
deriving DecidableEq

namespace Options

/-- The name under which a called or linked program enters the graph. A renamed program is not
looked up again. -/
def resolve (o : Options) (target : String) : String := (o.renames.get? target).getD target

/-- Adds renames for programs that have none yet. -/
def supplement (o : Options) (renames : Dict String) : Options :=
  { o with
    renames := renames.entries.foldl (fun d (name, target) => d.insertNew name target) o.renames }

/-! ## JSON form -/

def memberNames : List String := ["allow_duplicate_edges", "namespace_procedures", "replacements"]

/-- The members of the JSON form, with a form of the renames. -/
def members (o : Options) (renames : Json) : List (String × Json) :=
  [("allow_duplicate_edges", .bool o.keepsRepeats),
    ("namespace_procedures", .bool o.namespaced),
    ("replacements", renames)]

def toJson (o : Options) : Json := .obj (o.members (Json.ofDict .str o.renames))

def ofJson? (j : Json) : Option Options := do
  match ← j.slots? memberNames with
  | [keepsRepeats, namespaced, renames] =>
    return {
      keepsRepeats := ← Json.optional defaultKeepsRepeats Json.asBool? keepsRepeats
      namespaced := ← Json.optional false Json.asBool? namespaced
      renames := ← Json.optional ∅ (Json.asDict? Json.asString?) renames }
  | _ => none

end Options
end CobolCalls
