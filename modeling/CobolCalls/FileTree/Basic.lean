import CobolCalls.FileTree.Path
import Std.Data.TreeMap

/-
  A file tree as a value: what stands at each place, and the working folder that relative paths
  start from. Symbolic links are followed as the operating system follows them, and what it
  refuses is refused for the same reason.

  Places are compared name by name, so the items below a folder come in the order of a walk that
  goes through each folder by name.

  Rights are all or nothing, and only for folders: a folder may be used, or it is closed. Left out
  are the rights to files, the rights to list a folder and to go through it apart from each other,
  faults of devices, items that are neither files nor folders nor links, and names that are not
  UTF-8.
-/

namespace CobolCalls

/-- The names that lead from the root to an item. -/
abbrev Place := List String

inductive Item where
  | file (content : ByteArray)
  | folder
  | link (target : String)
  /-- A folder that may not be opened. What is in it is not known. -/
  | closed

structure FileTree where
  items : Std.TreeMap Place Item
  /-- The working folder. -/
  here : Place

/-- Why an operation on files is refused. -/
inductive FileError where
  | notFound
  | denied
  | occupied
  | notAFolder
  | isAFolder
  | nameTooLong
  | tooManyLinks
  /-- A path holds the character that ends texts for the operating system. -/
  | nul
deriving DecidableEq

def FileError.message : FileError → String
  | notFound => "No such file or directory (os error 2)"
  | denied => "Permission denied (os error 13)"
  | occupied => "File exists (os error 17)"
  | notAFolder => "Not a directory (os error 20)"
  | isAFolder => "Is a directory (os error 21)"
  | nameTooLong => "File name too long (os error 36)"
  | tooManyLinks => "Too many levels of symbolic links (os error 40)"
  | nul => "file name contained an unexpected NUL byte"

namespace FileTree

/-- What stands at a place. The root is always a folder. -/
def item? (t : FileTree) (p : Place) : Option Item :=
  if p.isEmpty then some .folder else t.items[p]?

def isFolder (t : FileTree) (p : Place) : Bool :=
  match t.item? p with
  | some .folder => true
  | _ => false

def isClosed (t : FileTree) (p : Place) : Bool :=
  match t.item? p with
  | some .closed => true
  | _ => false

def put (t : FileTree) (p : Place) (i : Item) : FileTree := { t with items := t.items.insert p i }

/-! ## Paths -/

/-- How many links are followed on the way along one path. -/
def maxLinks : Nat := 40

/-- How many bytes a name may have. -/
def maxName : Nat := 255

/-- How many bytes a path may have. -/
def maxPath : Nat := 4095

/-- Why a text cannot be a path, whatever the tree. -/
def refusal? (path : String) : Option FileError :=
  if path.toList.contains '\x00' then some .nul
  else if path.utf8ByteSize > maxPath then some .nameTooLong
  else none

/-- The names that must be walked for a path. A final slash asks for a folder: the empty name,
which as a dot does leads to where it stands. -/
def steps (path : String) : List String :=
  if Path.endsInSlash path then Path.parts path ++ [""] else Path.parts path

/-- Where a relative or absolute path starts. -/
def start (path : String) (folder : Place) : Place :=
  if Path.isAbsolute path then [] else folder

/-- Why no name leads on from a place where no folder may be gone through. -/
def barrier (t : FileTree) (p : Place) : FileError :=
  if t.isClosed p then .denied else .notAFolder

/-- The place that a path leads to from a folder, following links. The last name may be that of
nothing yet. If a file is to be created, a final slash is refused without a look at the name
before it. -/
def locateFrom (t : FileTree) (creating : Bool) (links : Nat) (p : Place) (names : List String) :
    Except FileError Place :=
  match names with
  | [] => .ok p
  | name :: rest =>
    -- a final slash asks for a folder, not for the right to open it
    if name == "" && t.isClosed p then locateFrom t creating links p rest
    else if !t.isFolder p then .error (t.barrier p)
    else if name == "" || name == "." then locateFrom t creating links p rest
    else if name == ".." then locateFrom t creating links p.dropLast rest
    else if creating && rest == [""] then .error .isAFolder
    else if name.utf8ByteSize > maxName then .error .nameTooLong
    else
      match t.item? (p ++ [name]) with
      | some (.link target) =>
        match links with
        | 0 => .error .tooManyLinks
        | links + 1 => locateFrom t creating links (start target p) (steps target ++ rest)
      | some _ => locateFrom t creating links (p ++ [name]) rest
      | none => if rest.isEmpty then .ok (p ++ [name]) else .error .notFound
termination_by (links, names.length)

/-- The place of a path, where something may or may not stand. -/
def locate (t : FileTree) (creating : Bool) (path : String) : Except FileError Place :=
  match refusal? path with
  | some e => .error e
  | none =>
    if path.isEmpty then .error .notFound
    else t.locateFrom creating maxLinks (start path t.here) (steps path)

/-- The place of something that exists, all links followed. -/
def resolve (t : FileTree) (path : String) : Except FileError Place := do
  let p ← t.locate false path
  if (t.item? p).isSome then return p else .error .notFound

/-- Whether a path names a link, by its last name and not by what that leads to. -/
def namesLink (t : FileTree) (path : String) : Bool :=
  match (steps path).getLast? with
  | none => false
  | some name =>
    if name == "" || name == "." || name == ".." then false
    else
      match t.locateFrom false maxLinks (start path t.here) (steps path).dropLast with
      | .error _ => false
      | .ok p =>
        match t.item? (p ++ [name]) with
        | some (.link _) => true
        | _ => false

/-! ## Canonical places -/

/-- The place that a path leads to, found by a look at every place on the way. Each look is by the
place's own path, which the operating system has to take. -/
def canonicalFrom (t : FileTree) (links : Nat) (p : Place) (names : List String) :
    Except FileError Place :=
  match names with
  | [] => .ok p
  | name :: rest =>
    if name == "" && t.isClosed p then canonicalFrom t links p rest
    else if !t.isFolder p then .error (t.barrier p)
    else if name == "" || name == "." then canonicalFrom t links p rest
    else if name == ".." then canonicalFrom t links p.dropLast rest
    else if name.utf8ByteSize > maxName then .error .nameTooLong
    else
      match refusal? (Path.absolute (p ++ [name])), t.item? (p ++ [name]) with
      | some e, _ => .error e
      | none, some (.link target) =>
        match links with
        | 0 => .error .tooManyLinks
        | links + 1 => canonicalFrom t links (start target p) (steps target ++ rest)
      | none, some _ => canonicalFrom t links (p ++ [name]) rest
      | none, none => .error .notFound
termination_by (links, names.length)

/-- The place that a path leads to, however long the path is, if the places on the way have paths
that are not too long. -/
def canonical (t : FileTree) (path : String) : Except FileError Place :=
  if path.toList.contains '\x00' then .error .nul
  else if path.isEmpty then .error .notFound
  else t.canonicalFrom maxLinks (start path t.here) (steps path)

/-! ## Reading -/

def contentAt (t : FileTree) (p : Place) : Except FileError ByteArray :=
  match t.item? p with
  | some (.file content) => .ok content
  | some .closed => .error .denied
  | some _ => .error .isAFolder
  | none => .error .notFound

def read (t : FileTree) (path : String) : Except FileError ByteArray :=
  t.resolve path >>= t.contentAt

/-- Why a folder cannot be opened along a path, if it cannot. -/
def obstacle? (path : String) : Item → Option FileError
  | .closed => some ((refusal? path).getD .denied)
  | _ => refusal? path

/-- The items below a folder that are reached without following a link, each with the names that
lead to it from the folder. A folder comes before what is in it. -/
def itemsBelow (t : FileTree) (p : Place) : List (List String × Item) :=
  t.items.toList.filterMap fun (q, item) =>
    match p.isPrefixOf? q with
    | none | some [] => none
    | some below =>
      if (List.range below.length).all fun k => t.isFolder (p ++ below.take k) then
        some (below, item)
      else none

end FileTree
end CobolCalls
