import CobolCalls.FileTree.Basic

/-
  Changes of a file tree. An operation gives the tree it leaves behind and what stopped it, if
  anything did: folders made before a failure stay.
-/

namespace CobolCalls.FileTree

/-- A tree after an operation, and why the operation did not succeed. -/
abbrev Change := FileTree × Option FileError

/-- The place of a folder on which an operation is to work. -/
def folderAt (t : FileTree) (base : Place) (names : List String) : Except FileError Place := do
  let p ← t.locateFrom false maxLinks base names
  match t.item? p with
  | some .folder => return p
  | some _ => .error (t.barrier p)
  | none => .error .notFound

/-- Makes one folder in an existing one. Whatever stands there already, a link included, keeps
its place. -/
def makeFolder (t : FileTree) (base : Place) (above : List String) (name : String) :
    Except FileError FileTree := do
  let p ← t.folderAt base above
  if name == ".." || (t.item? (p ++ [name])).isSome then .error .occupied
  else if name.utf8ByteSize > maxName then .error .nameTooLong
  else return t.put (p ++ [name]) .folder

/-- Whether the names lead to a folder, links followed. It may be closed. -/
def leadsToFolder (t : FileTree) (base : Place) (names : List String) : Bool :=
  match t.locateFrom false maxLinks base names with
  | .ok p => t.isFolder p || t.isClosed p
  | .error _ => false

/-- Makes one folder unless there is one. -/
def ensureFolder (t : FileTree) (base : Place) (above : List String) (name : String) : Change :=
  match t.makeFolder base above name with
  | .ok t => (t, none)
  | .error .occupied =>
    if t.leadsToFolder base (above ++ [name]) then (t, none) else (t, some .occupied)
  | .error e => (t, some e)

/-- Makes a folder and those above it that are missing. The names come last first. -/
def makeFolders (t : FileTree) (base : Place) : List String → Change
  | [] => (t, none)
  | name :: above =>
    match t.ensureFolder base above.reverse name with
    | (t, some .notFound) =>
      match t.makeFolders base above with
      | (t, none) => t.ensureFolder base above.reverse name
      | failed => failed
    | change => change

/-- Makes the folders that a path of a file needs. -/
def makeFoldersFor (t : FileTree) (path : String) : Change :=
  match refusal? (Path.above path) with
  | some e => (t, some e)
  | none => t.makeFolders (start path t.here) (Path.names path).reverse.tail

/-- The place that writing to a path changes. -/
def writePlace (t : FileTree) (path : String) : Except FileError Place := do
  let p ← t.locate true path
  if t.isFolder p || t.isClosed p then .error .isAFolder else return p

/-- Writes a file in an existing folder, in the stead of one that is there. -/
def write (t : FileTree) (path : String) (content : ByteArray) : Change :=
  match t.writePlace path with
  | .ok p => (t.put p (.file content), none)
  | .error e => (t, some e)

/-- Writes a file and makes the folders above it. -/
def writeWithFolders (t : FileTree) (path : String) (content : ByteArray) : Change :=
  match t.makeFoldersFor path with
  | (t, none) => t.write path content
  | failed => failed

end CobolCalls.FileTree
