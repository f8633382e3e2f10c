import CobolCalls.Json.Basic

/-
  Typed reading of JSON values. Nothing is converted: a text is a string, a count a whole number
  that 64 bits hold. A record is an object of named members, of which unknown ones do not count
  and no declared one may come twice, or an array of its members in their declared order, of
  which trailing ones may be left out. A dictionary is an object; of a repeated name the last
  value stays.
-/

namespace CobolCalls.Json

variable {α : Type}

def asString? : Json → Option String
  | .str s => some s
  | _ => none

def asBool? : Json → Option Bool
  | .bool b => some b
  | _ => none

def asNat? : Json → Option Nat
  | .num (.nat n) => some n
  | _ => none

/-- Whole numbers are read as doubles too. -/
def asFloat? : Json → Option Float
  | .num (.nat n) => some n.toUInt64.toFloat
  | .num (.neg n) => some (-n.toUInt64.toFloat)
  | .num (.float x) => some x
  | _ => none

def asList? (item : Json → Option α) : Json → Option (List α)
  | .arr items => items.mapM item
  | _ => none

def asDict? (value : Json → Option α) : Json → Option (Dict α)
  | .obj members =>
    (members.mapM fun (m : String × Json) => (value m.2).map (m.1, ·)).map Dict.ofList
  | _ => none

/-- One of several named alternatives, as its name or as an object of that one name. -/
def asVariant? (ofName? : String → Option α) : Json → Option α
  | .str name => ofName? name
  | .obj [(name, .null)] => ofName? name
  | _ => none

/-- Any value without void parts; its objects stand for dictionaries. -/
def asAny? (j : Json) : Option Json := if j.isWhole then some j.sorted else none

/-! ## Records -/

/-- What is given for each declared member of a record. -/
def slots? (declared : List String) : Json → Option (List (Option Json))
  | .obj members =>
    if declared.all fun name => members.countP (·.1 == name) ≤ 1 then
      some (declared.map fun name => members.lookup name)
    else none
  | .arr items =>
    if items.length ≤ declared.length then
      some (items.map some ++ List.replicate (declared.length - items.length) none)
    else none
  | _ => none

/-- A member that must be given. -/
def required (read : Json → Option α) (slot : Option Json) : Option α := slot >>= read

/-- A member that may be left out. -/
def optional (byDefault : α) (read : Json → Option α) : Option Json → Option α
  | none => some byDefault
  | some j => read j

end CobolCalls.Json
