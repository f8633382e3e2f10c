import CobolCalls.Analysis
import CobolCalls.CommandLine.Command
import CobolCalls.Json.Reader
import CobolCalls.Output
import CobolCalls.Text.Terminal

/-
  What a command does: what it prints, what it logs, why it fails, and the file tree it leaves
  behind. A command fails before it writes anything, or at the write itself.
-/

namespace CobolCalls

/-! ## Failures -/

/-- Why a rename map cannot be used. -/
inductive RenameMapError where
  | unreadable (cause : FileError)
  | notText
  | notARenameMap
deriving DecidableEq

def RenameMapError.message : RenameMapError → String
  | unreadable cause => cause.message
  | notText => "stream did not contain valid UTF-8"
  | notARenameMap => "expected a JSON object of strings"

/-- Why a command fails. -/
inductive Failure where
  | usage (cause : CommandLine.UsageError)
  | renameMap (path : String) (cause : RenameMapError)
  | analysis (cause : AnalysisError)
  /-- The result of an analysis cannot be written. -/
  | result (cause : AnalysisError)
  /-- The source whose fields are asked for cannot be read. -/
  | source (path : String) (cause : FileError)
  /-- The list of fields cannot be written. -/
  | fields (cause : FileError)
deriving DecidableEq

namespace Failure

def message : Failure → String
  | usage cause => cause.message
  | renameMap path cause => s!"Error reading rename map {path}: {cause.message}"
  | analysis cause => s!"Analysis failed: {cause.message}"
  | result cause => s!"Error writing output: {cause.message}"
  | source path cause => s!"Error reading {path}: {cause.message}"
  | fields cause => s!"Error writing output: {cause.message}"

def exitCode : Failure → Nat
  | usage .helpAsked => 0
  | usage _ => 2
  | _ => 1

end Failure

/-- How a command ended. -/
structure Outcome where
  stdout : String := ""
  /-- The log records that are shown. -/
  log : List Log.Record := []
  failure : Option Failure := none
  tree : FileTree

def Outcome.exitCode (o : Outcome) : Nat := (o.failure.map Failure.exitCode).getD 0

/-- A log record as a line, the level set to the right. The message may quote text from
elsewhere, which must not steer a terminal. -/
def Log.Record.line (r : Log.Record) : String :=
  let level := r.level.name
  let indent := String.ofList (List.replicate (5 - level.length) ' ')
  s!"{indent}{level} {r.origin.target}: {Text.visible r.message}"

namespace Session

open CommandLine (Analyze)

/-- The output path that stands for standard output. -/
def standardOutput : String := "-"

/-! ## Preparing an analysis -/

/-- Without an output path, the result goes to a file in the working folder that is named after
the first input. -/
def defaultOutput (t : FileTree) (paths : List String) (format : Format) : String :=
  let name := paths.head?.bind fun path =>
    match t.canonical path with
    | .ok p => p.getLast?
    | .error _ => Path.name? path
  let stem := (name.map Path.stem).getD "callgraph"
  s!"{stem}.{format.extension}"

def renamesOf (content : ByteArray) : Except RenameMapError (Dict String) :=
  match String.fromUTF8? content with
  | none => .error .notText
  | some text =>
    match Json.parse? text >>= Json.asDict? Json.asString? with
    | some renames => .ok renames
    | none => .error .notARenameMap

/-- The renames of a rename map, if one is given. -/
def loadRenames (t : FileTree) (path : Option String) : Except Failure (Dict String) :=
  match path with
  | none => .ok ∅
  | some path =>
    match t.read path with
    | .error e => .error (.renameMap path (.unreadable e))
    | .ok content => (renamesOf content).mapError (.renameMap path)

/-- The configuration of an analysis. Renames given as arguments come after those of the map. -/
def configOf (a : Analyze) (outputPath : String) (renames : Dict String) : Config where
  inputs := a.paths
  outputPath := some outputPath
  format := a.format
  options := {
    keepsRepeats := !a.noDuplicates
    namespaced := a.namespaced
    renames := renames.extend a.renames }
  resolvesFields := a.resolvesFields
  extensions := a.extensions.getD ({} : Config).extensions
  excludes := a.excludes
  verbose := a.verbose
  quiet := a.quiet

/-- Which records are shown: all of them, only warnings, or none when nothing but the result may
be seen. -/
def shows (silent verbose : Bool) (r : Log.Record) : Bool :=
  !silent && (verbose || r.level == .warn)

/-! ## The summary -/

def padded (width : Nat) (text : String) : String :=
  text ++ String.ofList (List.replicate (width - text.length) ' ')

def summaryLine (label value : String) : String := s!"  {padded 14 label} {value}"

def milliseconds (ms : Float) : String := s!"{String.ofList (Decimal.oneDecimal ms)}ms"

def phaseLines (timing : Timing) : List String :=
  ["", "  Phase Timings:"] ++
    timing.phases.entries.map fun (phase, seconds) =>
      s!"    {padded 14 phase} {milliseconds (seconds * 1000)}"

def summary (c : Config) (a : Analysis) (timing : Timing) : List String :=
  let inputs := ", ".intercalate c.inputs
  ["", s!"✓  ccgraph: {inputs}",
    summaryLine "Files:" (toString a.files.length),
    summaryLine "Lines:" (toString (FileSummary.totalLines a.files)),
    summaryLine "Nodes:" (toString a.graph.nodeCount),
    summaryLine "Edges:" (toString a.graph.edgeCount)] ++
  a.graph.edgeTally.entries.map (fun (kind, n) => s!"    {padded 12 kind} {n}") ++
  [summaryLine "Duration:" (milliseconds timing.totalMs)] ++
  if c.verbose then phaseLines timing else []

def unlines (lines : List String) : String := String.join (lines.map (· ++ "\n"))

/-! ## Commands -/

/-- The text of a result. -/
def resultText (c : Config) (a : Analysis) (timing : Timing) : Except AnalysisError String :=
  match c.format with
  | .json => .ok (a.report c timing).text
  | .dot => a.graph.dot.mapError .render

/-- Writes a result to a file. -/
def saveResult (c : Config) (a : Analysis) (timing : Timing) (t : FileTree) (path : String) :
    FileTree × Option AnalysisError :=
  match c.format with
  | .json =>
    let (t, failure) := (a.report c timing).save t path
    (t, failure.map (.file path))
  | .dot => a.graph.saveDot t path

/-- Emits the result of an analysis: to standard output, or to a file between the two parts of
the summary. -/
def emit (c : Config) (a : Analysis) (timing : Timing) (t : FileTree) (path : String) : Outcome :=
  if path == standardOutput then
    match resultText c a timing with
    | .ok text => { stdout := text ++ "\n", tree := t }
    | .error e => { failure := some (.result e), tree := t }
  else
    let before := if c.quiet then [] else summary c a timing
    let after := if c.quiet then [] else ["", s!"  Output written to: {path}"]
    match saveResult c a timing t path with
    | (t, none) => { stdout := unlines (before ++ after), tree := t }
    | (t, some e) => { stdout := unlines before, failure := some (.result e), tree := t }

def analyze (timing : Timing) (t : FileTree) (a : Analyze) : Outcome :=
  let path := a.output.getD (defaultOutput t a.paths a.format)
  let silent := a.quiet || path == standardOutput
  match loadRenames t a.renameMap with
  | .error e => { failure := some e, tree := t }
  | .ok renames =>
    let c := configOf a path renames
    let run := Analysis.run c t
    let log := run.log.filter (shows silent a.verbose)
    match run.outcome with
    | .error e => { log, failure := some (.analysis e), tree := t }
    | .ok result => { emit c result timing t path with log }

def fields (t : FileTree) (path : String) (output : Option String) : Outcome :=
  match t.read path with
  | .error e => { failure := some (.source path e), tree := t }
  | .ok content =>
    let declared := Fields.ofSource (Text.Utf8.decode content)
    let text := (Json.ofDict .str declared).pretty
    let path := output.getD standardOutput
    if path == standardOutput then { stdout := text ++ "\n", tree := t }
    else
      let (t, failure) := t.write path text.toUTF8
      { failure := failure.map .fields, tree := t }

/-- Runs the command that the arguments ask for. -/
def run (timing : Timing) (t : FileTree) (arguments : List String) : Outcome :=
  match CommandLine.parse arguments with
  | .error e => { failure := some (.usage e), tree := t }
  | .ok (.analyze a) => analyze timing t a
  | .ok (.fields path output) => fields t path output

end Session
end CobolCalls
