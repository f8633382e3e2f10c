import CobolCalls.Dict

/-
  JSON values. An object keeps its members as they stand in the text, repeated names included,
  because a record may not repeat a member while a dictionary may. `sorted` gives the form in
  which objects stand for dictionaries: names in ascending order, of repeated names the last.

  Text can be well formed and yet stand for nothing that can be held: a number beyond the doubles,
  half a surrogate pair, a name with one, a container nested too deep. Such a part is `void`. It
  does no harm in a member that nobody asks for.
-/

namespace CobolCalls

inductive Json.Number where
  | nat (n : Nat)
  /-- The negative of a positive number. -/
  | neg (n : Nat)
  | float (x : Float)

inductive Json where
  | null
  | bool (b : Bool)
  | num (n : Json.Number)
  | str (s : String)
  | arr (items : List Json)
  | obj (members : List (String × Json))
  /-- Well formed, but without a value. -/
  | void

namespace Json

instance : Inhabited Json := ⟨.null⟩

def ofNat (n : Nat) : Json := .num (.nat n)

/-- Infinities and NaN have no number in JSON. -/
def ofFloat (x : Float) : Json := if x.isFinite then .num (.float x) else .null

def ofStrings (items : List String) : Json := .arr (items.map .str)

def ofDict {α : Type} (value : α → Json) (d : Dict α) : Json :=
  .obj (d.entries.map fun (name, v) => (name, value v))

mutual

/-- Objects as dictionaries, at every depth. -/
def sorted : Json → Json
  | .arr items => .arr (sortedItems items)
  | .obj members => .obj (Dict.ofList (sortedMembers members)).entries
  | j => j

def sortedItems : List Json → List Json
  | [] => []
  | j :: rest => sorted j :: sortedItems rest

def sortedMembers : List (String × Json) → List (String × Json)
  | [] => []
  | (name, j) :: rest => (name, sorted j) :: sortedMembers rest

end

mutual

/-- Whether no part is void. -/
def isWhole : Json → Bool
  | .void => false
  | .arr items => allWhole items
  | .obj members => membersWhole members
  | _ => true

def allWhole : List Json → Bool
  | [] => true
  | j :: rest => isWhole j && allWhole rest

def membersWhole : List (String × Json) → Bool
  | [] => true
  | (_, j) :: rest => isWhole j && membersWhole rest

end

end Json
end CobolCalls
