import CobolCalls.Discovery
import CobolCalls.Report
import CobolCalls.Text.Utf8

/-
  A whole analysis: find the sources, read the call graph of each, and merge the graphs in the
  order of the files.
-/

namespace CobolCalls

/-- What an analysis does, one after the other. -/
inductive Phase where
  | discovery
  | parsing
  | merge
deriving DecidableEq

namespace Phase

def name : Phase → String
  | discovery => "discovery"
  | parsing => "parsing"
  | merge => "merge"

/-- How the phase is announced. -/
def label : Phase → String
  | discovery => "Discovering source files"
  | parsing => "Parsing call graphs"
  | merge => "Merging call graphs"

end Phase

/-- A file with its call graph. -/
structure FileAnalysis where
  summary : FileSummary
  graph : CallGraph

namespace FileAnalysis

def logRecord (path : String) (level : Log.Level) (message : String) : Log.Record :=
  ⟨level, .file, s!"{path}: {message}"⟩

/-- The call graph of a source text that was found at `path`. -/
def ofText (c : Config) (path source : String) : Logged (Except AnalysisError FileAnalysis) :=
  let options := c.optionsFor source
  let outline := Outline.ofSource source
  let log := logRecord path .debug s!"{options.renames.size} rename entries" :: outline.log options
  match CallGraph.ofOutline options outline with
  | .error e => ⟨log, .error (.source path e)⟩
  | .ok g =>
    let figures := logRecord path .info s!"{g.nodeCount} nodes, {g.edgeCount} edges"
    let summary : FileSummary := ⟨path, (Text.lines source).length, g.nodeCount, g.edgeCount⟩
    ⟨log ++ [figures], .ok ⟨summary, g⟩⟩

def ofFile (c : Config) (t : FileTree) (f : SourceFile) :
    Logged (Except AnalysisError FileAnalysis) :=
  match f.content t with
  | .error e => ⟨[], .error (.file f.path e)⟩
  | .ok content => ofText c f.path (Text.Utf8.decode content)

/-- One file after the other; the first one that fails ends it. -/
def ofFiles (c : Config) (t : FileTree) :
    List SourceFile → Logged (Except AnalysisError (List FileAnalysis))
  | [] => ⟨[], .ok []⟩
  | f :: rest =>
    let first := ofFile c t f
    match first.value with
    | .error e => ⟨first.log, .error e⟩
    | .ok a =>
      let others := ofFiles c t rest
      ⟨first.log ++ others.log, others.value.map (a :: ·)⟩

end FileAnalysis

/-- What an analysis finds. -/
structure Analysis where
  graph : CallGraph
  files : List FileSummary

/-- How an analysis went. -/
structure Run where
  /-- The phases that were begun. -/
  phases : List Phase
  log : List Log.Record
  outcome : Except AnalysisError Analysis

namespace Analysis

/-- The files' graphs as one. -/
def merge (c : Config) (files : List FileAnalysis) : Analysis :=
  ⟨CallGraph.merge c.options.keepsRepeats (files.map (·.graph)), files.map (·.summary)⟩

def logRecord (a : Analysis) : Log.Record :=
  ⟨.info, .run, s!"analysed {a.files.length} files: {a.graph.nodeCount} nodes, " ++
    s!"{a.graph.edgeCount} edges"⟩

/-- Analyses the sources that a configuration selects from a tree. -/
def run (c : Config) (t : FileTree) : Run :=
  let found := discover c t
  match found.value with
  | .error e => ⟨[.discovery], found.log, .error e⟩
  | .ok [] => ⟨[.discovery], found.log, .error (.noSources c.inputs)⟩
  | .ok files =>
    let parsed := FileAnalysis.ofFiles c t files
    match parsed.value with
    | .error e => ⟨[.discovery, .parsing], found.log ++ parsed.log, .error e⟩
    | .ok graphs =>
      let a := merge c graphs
      ⟨[.discovery, .parsing, .merge], found.log ++ parsed.log ++ [a.logRecord], .ok a⟩

/-- The report on an analysis. -/
def report (a : Analysis) (c : Config) (t : Timing) : Report := Report.ofGraph c a.graph a.files t

end Analysis
end CobolCalls
