import CobolCalls.CallGraph.Form
import CobolCalls.Config
import CobolCalls.Json.Writer

/-
  The report of an analysis: the whole graph, the figures of each file and of the run, and how
  the run was made.
-/

namespace CobolCalls

/-- The figures of one file. -/
structure FileSummary where
  path : String
  lines : Nat
  nodes : Nat
  edges : Nat
deriving DecidableEq

namespace FileSummary

def toJson (f : FileSummary) : Json :=
  .obj [("path", .str f.path), ("lines", Json.ofNat f.lines), ("nodes", Json.ofNat f.nodes),
    ("edges", Json.ofNat f.edges)]

def ofJson? (j : Json) : Option FileSummary := do
  match ← j.slots? ["path", "lines", "nodes", "edges"] with
  | [path, lines, nodes, edges] =>
    return {
      path := ← Json.required Json.asString? path
      lines := ← Json.required Json.asNat? lines
      nodes := ← Json.required Json.asNat? nodes
      edges := ← Json.required Json.asNat? edges }
  | _ => none

/-- The lines of all the files together. -/
def totalLines (files : List FileSummary) : Nat := files.foldl (fun n f => n + f.lines) 0

end FileSummary

/-- When an analysis was made and how long it took. -/
structure Timing where
  /-- The moment of the analysis, as written into the report. -/
  moment : String
  totalMs : Float := 0
  /-- Seconds by phase. -/
  phases : Dict Float := ∅

/-- Milliseconds to one decimal; a half goes away from zero. -/
def Timing.roundedMs (t : Timing) : Float := (t.totalMs * 10).round / 10

structure Report where
  version : String := "1.0"
  metadata : Dict Json := ∅
  stats : Dict Json := ∅
  files : List FileSummary := []
  nodes : List Node := []
  edges : List Edge := []

namespace Report

/-- The version of the analysis, as reports name it. -/
def toolVersion : String := "1.0.0"

def metadataOf (c : Config) (t : Timing) : Dict Json :=
  Dict.ofList [("inputs", Json.ofStrings c.inputs),
    ("analysed_at", .str t.moment),
    ("ccgraph_version", .str toolVersion),
    ("parse_options", c.options.toJson),
    ("resolve_fields", .bool c.resolvesFields),
    ("analysis_duration_ms", Json.ofFloat t.roundedMs),
    ("phase_timings", Json.ofDict Json.ofFloat t.phases)]

def statsOf (g : CallGraph) (files : List FileSummary) : Dict Json :=
  Dict.ofList [("files", Json.ofNat files.length),
    ("lines", Json.ofNat (FileSummary.totalLines files)),
    ("nodes", Json.ofNat g.nodeCount),
    ("edges", Json.ofNat g.edgeCount),
    ("node_types", Json.ofDict Json.ofNat g.nodeTally),
    ("edge_types", Json.ofDict Json.ofNat g.edgeTally)]

/-- The report on a graph made from the given files. -/
def ofGraph (c : Config) (g : CallGraph) (files : List FileSummary) (t : Timing) : Report where
  metadata := metadataOf c t
  stats := statsOf g files
  files := files
  nodes := g.nodes.toList
  edges := g.edges.toList

/-! ## JSON form -/

def toJson (r : Report) : Json :=
  .obj [("version", .str r.version),
    ("metadata", Json.ofDict id r.metadata),
    ("stats", Json.ofDict id r.stats),
    ("files", .arr (r.files.map FileSummary.toJson)),
    ("nodes", .arr (r.nodes.map Node.toJson)),
    ("edges", .arr (r.edges.map Edge.toJson))]

def ofJson? (j : Json) : Option Report := do
  match ← j.slots? ["version", "metadata", "stats", "files", "nodes", "edges"] with
  | [version, metadata, stats, files, nodes, edges] =>
    let byDefault : Report := {}
    return {
      version := ← Json.optional byDefault.version Json.asString? version
      metadata := ← Json.optional byDefault.metadata (Json.asDict? Json.asAny?) metadata
      stats := ← Json.optional byDefault.stats (Json.asDict? Json.asAny?) stats
      files := ← Json.optional byDefault.files (Json.asList? FileSummary.ofJson?) files
      nodes := ← Json.optional byDefault.nodes (Json.asList? Node.ofJson?) nodes
      edges := ← Json.optional byDefault.edges (Json.asList? Edge.ofJson?) edges }
  | _ => none

/-- The text of a report. -/
def text (r : Report) : String := r.toJson.pretty

end Report
end CobolCalls
