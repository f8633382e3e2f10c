import CobolCalls.AnalysisError
import CobolCalls.Config
import CobolCalls.FileTree.Basic
import CobolCalls.Log

/-
  Which files an analysis reads. An input that is a file is taken as it is. An input that is a
  folder contributes the files below it that have a listed extension and are not too large, in
  the order of a walk by name. Left out are excluded names, at any depth and the folder's own
  name included, and hidden folders below the input. Links below a folder are not followed.

  The walk stands for that of the library walkdir, with its filter on entries. The filter sees an
  input that names a link as the link: if its name is excluded the link is left out, but not what
  is below the folder that it leads to.

  A walk names what it meets by longer and longer paths. A folder that cannot be opened, since it
  is closed or its path has become too long, is a warning. A file's path may be too long to ask for
  the file's size; such a file counts as empty.

  A file is known by its canonical place, and of the files at one place the first is listed, under
  the path that reached it. Where there is no canonical place, since the way there leads through
  places whose own paths are too long, a file is known by the path that reached it. Two paths to
  such a file are listed both.
-/

namespace CobolCalls

/-- What files are told apart by. -/
inductive FileKey where
  | place (p : Place)
  | path (components : List String)
deriving DecidableEq

/-- A file to be analysed. -/
structure SourceFile where
  /-- The path in reports, with forward slashes. -/
  path : String
  /-- Where the file stands. -/
  place : Place
  /-- The path that reached the file, if it has no canonical place. -/
  walked : Option String
deriving DecidableEq

namespace SourceFile

/-- The file that a path reached at a place. -/
def reached (t : FileTree) (path : String) (p : Place) : SourceFile :=
  match t.canonical path with
  | .ok q => ⟨Path.withForwardSlashes path, q, none⟩
  | .error _ => ⟨Path.withForwardSlashes path, p, some path⟩

def key (f : SourceFile) : FileKey :=
  match f.walked with
  | none => .place f.place
  | some path => .path (Path.components path)

def content (t : FileTree) (f : SourceFile) : Except FileError ByteArray :=
  match f.walked with
  | none => t.contentAt f.place
  | some path => t.read path

end SourceFile

namespace Discovery

/-- Names that folders never contribute. -/
def alwaysExcluded : List String := [".git", ".svn", "target", "node_modules", "build", "dist"]

def excludes (c : Config) (name : String) : Bool :=
  alwaysExcluded.contains name || c.excludes.contains name

def isHidden (name : String) : Bool := name.toList.head? == some '.'

/-- Whether the operating system takes the path to what stands below an input. -/
def isReachable (input : String) (below : List String) : Bool :=
  (FileTree.refusal? (Path.join input below)).isNone

/-- Whether a walk goes into folders along these names: none is excluded and none is hidden. -/
def enters (c : Config) (folders : List String) : Bool :=
  !folders.any (excludes c) && !folders.any isHidden

/-- Whether a walk comes to something along these names: the folders above are entered and can be
opened, and its own name is not excluded. -/
def visits (c : Config) (input : String) (below : List String) : Bool :=
  enters c below.dropLast && isReachable input below.dropLast &&
    !below.getLast?.any (excludes c)

def lowerAscii (c : Char) : Char :=
  if 'A' ≤ c && c ≤ 'Z' then Char.ofNat (c.toNat + 32) else c

/-- Equality that ignores the case of ASCII letters. -/
def sameIgnoringCase (a b : String) : Bool := a.toList.map lowerAscii == b.toList.map lowerAscii

def hasListedExtension (c : Config) (name : String) : Bool :=
  (Path.extension? name).any fun ext => c.extensions.any (sameIgnoringCase · ext)

/-- The size of a file as a walk sees it. -/
def sizeSeen (input : String) (below : List String) (content : ByteArray) : Nat :=
  if isReachable input below then content.size else 0

/-- A file that a folder contributes, or a warning that it is too large. -/
def select (c : Config) (t : FileTree) (input : String) (p : Place) (below : List String)
    (content : ByteArray) : Except Log.Record SourceFile :=
  let path := Path.join input below
  let size := sizeSeen input below content
  if size ≤ c.maxFileSize then .ok (.reached t path (p ++ below))
  else .error ⟨.warn, .discovery,
    s!"skipping {path} ({size} bytes exceeds limit of {c.maxFileSize})"⟩

/-- The warning about a folder, if it cannot be opened. -/
def unopened? (input : String) (below : List String) (item : Item) :
    Option (Except Log.Record SourceFile) :=
  let path := Path.join input below
  (FileTree.obstacle? path item).map fun cause =>
    let problem := s!"IO error for operation on {path}: {cause.message}"
    .error ⟨.warn, .discovery, s!"skipping unreadable entry under {input}: {problem}"⟩

/-- What a walk makes of one item that it visits. -/
def ofItem (c : Config) (t : FileTree) (input : String) (p : Place) (below : List String) :
    Item → Option (Except Log.Record SourceFile)
  | .file content =>
    if below.getLast?.any (hasListedExtension c) then some (select c t input p below content)
    else none
  | .link _ => none
  | item => if enters c below then unopened? input below item else none

/-- Whether a walk leaves out its input. Of a link to a folder it leaves out only the link. -/
def leavesOut (c : Config) (t : FileTree) (input : String) : Bool :=
  excludes c (Path.walkName input) && !t.namesLink input

/-- What the folder at a place contributes, in order. -/
def ofFolder (c : Config) (t : FileTree) (input : String) (p : Place) :
    List (Except Log.Record SourceFile) :=
  if leavesOut c t input then []
  else
    ((t.item? p).bind (unopened? input [])).toList ++
      (t.itemsBelow p).filterMap fun (below, item) =>
        if visits c input below then ofItem c t input p below item else none

/-- What one input contributes. -/
def ofInput (c : Config) (t : FileTree) (input : String) :
    Except FileError (List (Except Log.Record SourceFile)) := do
  let p ← t.resolve input
  match t.item? p with
  | some (.file _) => return [.ok (.reached t input p)]
  | _ => return ofFolder c t input p

def warnings (found : List (Except Log.Record SourceFile)) : List Log.Record :=
  found.filterMap fun
    | .error warning => some warning
    | .ok _ => none

def contributed (found : List (Except Log.Record SourceFile)) : List SourceFile :=
  found.filterMap fun
    | .error _ => none
    | .ok file => some file

/-- What the inputs contribute, one after the other. The first one that cannot be read ends the
search. -/
def ofInputs (c : Config) (t : FileTree) :
    List String → Logged (Except AnalysisError (List SourceFile))
  | [] => ⟨[], .ok []⟩
  | input :: rest =>
    match ofInput c t input with
    | .error e => ⟨[], .error (.file input e)⟩
    | .ok found =>
      let others := ofInputs c t rest
      ⟨warnings found ++ others.log, others.value.map (contributed found ++ ·)⟩

/-- Of the files of one key the first, and none of the keys already seen. -/
def distinct (seen : List FileKey) : List SourceFile → List SourceFile
  | [] => []
  | f :: rest =>
    if seen.contains f.key then distinct seen rest
    else f :: distinct (f.key :: seen) rest

end Discovery

/-- The files that a configuration selects from a tree. -/
def discover (c : Config) (t : FileTree) : Logged (Except AnalysisError (List SourceFile)) :=
  let found := Discovery.ofInputs c t c.inputs
  match found.value with
  | .error e => ⟨found.log, .error e⟩
  | .ok files =>
    let files := Discovery.distinct [] files
    let record : Log.Record :=
      ⟨.debug, .discovery, s!"discovered {files.length} source files"⟩
    ⟨found.log ++ [record], .ok files⟩

end CobolCalls
