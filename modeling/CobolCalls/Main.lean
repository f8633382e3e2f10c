import CobolCalls.Session
import Std.Time

/-
  The command line on the machine's own files. The part of the file system that a command names is
  loaded as a file tree, the command runs on that value, and what it changed is written back.

  Which files stand below a folder is read from standard input, one path a line, as `find` lists
  them. Nothing is read from there when no input is a folder. Every folder counts as one that may
  be opened.
-/

namespace CobolCalls.Disk

/-- The place that a path leads to, all links followed. -/
def realPlace? (path : String) : IO (Option Place) := do
  try
    let real ← IO.FS.realPath path
    return some (Path.parts (toString real))
  catch _ => return none

/-- What stands at a place where something is known to stand. -/
def itemAt (p : Place) : IO Item := do
  try
    return .file (← IO.FS.readBinFile (Path.absolute p))
  catch _ => return .folder

/-- Takes a place into the tree, with the folders above it. -/
def loadPlace (t : FileTree) (p : Place) : IO FileTree := do
  if (t.item? p).isSome then return t
  else
    let above := (List.range p.length).map fun k => p.take k
    let t := above.foldl (fun t q => t.put q .folder) t
    return t.put p (← itemAt p)

/-- Takes what stands along a path into the tree, as far as it exists. -/
def loadFrom (t : FileTree) (p : Place) : List String → IO FileTree
  | [] => return t
  | name :: rest => do
    if name == "." then loadFrom t p rest
    else if name == ".." then loadFrom t p.dropLast rest
    else
      let q := p ++ [name]
      match ← realPlace? (Path.absolute q) with
      | none => return t
      | some real =>
        let t := if real == q then t else t.put q (.link (Path.absolute real))
        let t ← loadPlace t real
        if t.isFolder real then loadFrom t real rest else return t

def load (t : FileTree) (path : String) : IO FileTree :=
  loadFrom t (FileTree.start path t.here) (Path.parts path)

def loadAll (t : FileTree) (paths : List String) : IO FileTree := paths.foldlM load t

/-- The lines of standard input. -/
partial def listing (input : IO.FS.Stream) : IO (List String) := do
  let line ← input.getLine
  if line.isEmpty then return []
  else return (Text.lines line).map String.ofList ++ (← listing input)

/-- Whether a path leads to a folder of the tree. -/
def isFolder (t : FileTree) (path : String) : Bool :=
  match t.resolve path with
  | .ok p => t.isFolder p
  | .error _ => false

/-- The part of the file system that a command works on. -/
def treeFor (command : CommandLine.Command) : IO FileTree := do
  let here := (← realPlace? ".").getD []
  let t ← loadPlace ⟨∅, here⟩ here
  match command with
  | .fields path output => loadAll t (path :: output.toList)
  | .analyze a =>
    let t ← loadAll t (a.paths ++ a.renameMap.toList)
    let t ← if a.paths.any (isFolder t) then loadAll t (← listing (← IO.getStdin)) else pure t
    load t (a.output.getD (Session.defaultOutput t a.paths a.format))

/-- Writes to disk what differs between two trees; a folder comes before what is in it. -/
def store (before after : FileTree) : IO Unit :=
  after.items.toList.forM fun (p, item) => do
    match before.items[p]?, item with
    | some (.file old), .file new =>
      if old.data == new.data then return else IO.FS.writeBinFile (Path.absolute p) new
    | none, .file content => IO.FS.writeBinFile (Path.absolute p) content
    | none, .folder => IO.FS.createDirAll (Path.absolute p)
    | _, _ => return

/-! ## Times -/

/-- The present moment in universal time. -/
def moment : IO String := do
  let now := Std.Time.WallTime.ofTimestamp (← Std.Time.Timestamp.now) .zero
  let text := (Std.Time.PlainDateTime.ofWallTime now).format "uuuu-MM-dd'T'HH:mm:ss.SSSSSSSSS"
  return text ++ "+00:00"

/-- A value and the seconds that it takes to compute it. -/
def timed {α : Type} (compute : Unit → α) : IO (α × Float) := do
  let started ← IO.monoNanosNow
  let value ← IO.lazyPure compute
  return (value, (← IO.monoNanosNow).toFloat - started.toFloat)

/-- How long the phases of an analysis take on a tree. -/
def phasesOf (c : Config) (t : FileTree) : IO (Dict Float) := do
  let (found, discovery) ← timed fun _ => (discover c t).value.toOption.getD []
  let (parsed, parsing) ← timed fun _ => (FileAnalysis.ofFiles c t found).value.toOption.getD []
  let (_, merge) ← timed fun _ => (Analysis.merge c parsed).graph.nodeCount
  return Dict.ofList [(Phase.discovery.name, discovery / 1e9), (Phase.parsing.name, parsing / 1e9),
    (Phase.merge.name, merge / 1e9)]

def timingOf (command : CommandLine.Command) (t : FileTree) : IO Timing := do
  match command with
  | .fields _ _ => return ⟨← moment, 0, ∅⟩
  | .analyze a =>
    let renames := (Session.loadRenames t a.renameMap).toOption.getD ∅
    let phases ← phasesOf (Session.configOf a "" renames) t
    let seconds := (phases.entries.map (·.2)).foldl (· + ·) 0
    return ⟨← moment, seconds * 1000, phases⟩

/-! ## Showing an outcome -/

/-- Prints what a command says and gives its exit code. -/
def present (moment : String) (o : Outcome) : IO UInt32 := do
  for record in o.log do
    IO.eprintln s!"{moment} {record.line}"
  IO.print o.stdout
  match o.failure with
  | none => return 0
  | some (.usage .helpAsked) => IO.println CommandLine.help
  | some failure => IO.eprintln failure.message
  return o.exitCode.toUInt32

end CobolCalls.Disk

open CobolCalls

def main (arguments : List String) : IO UInt32 := do
  match CommandLine.parse arguments with
  | .error e => Disk.present "" { failure := some (.usage e), tree := ⟨∅, []⟩ }
  | .ok command =>
    let tree ← Disk.treeFor command
    let timing ← Disk.timingOf command tree
    let outcome := Session.run timing tree arguments
    try
      Disk.store tree outcome.tree
      Disk.present timing.moment outcome
    catch e =>
      IO.eprintln s!"Error writing output: {e}"
      return 1
