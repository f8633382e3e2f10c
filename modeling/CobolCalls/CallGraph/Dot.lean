import CobolCalls.CallGraph.Basic

/-
  Call graphs in the DOT language: a fixed heading, a statement for each edge, a statement for
  each node. Kinds show as colours. A dynamic node has no colour, so a graph that holds one
  cannot be drawn.
-/

namespace CobolCalls

inductive RenderError where
  | unstyledNode (id : String) (kind : NodeKind)
deriving DecidableEq

def RenderError.message : RenderError → String
  | unstyledNode id kind => s!"node {id} has type {kind.name}, which has no rendering style"

def EdgeKind.colour : EdgeKind → String
  | perform => "0.650 0.700 0.700"
  | call => "0.348 0.839 0.839"
  | remoteLink => "0.515 0.762 0.762"

def NodeKind.colour? : NodeKind → Option String
  | procedure => some "0.650 0.200 1.000"
  | batchProgram => some "0.201 0.753 1.000"
  | onlineProgram => some "0.499 0.386 1.000"
  | dynamic => none

namespace CallGraph.Dot

/-- How a character stands inside a quoted name. -/
def escape (c : Char) : List Char :=
  if c == '\\' || c == '"' then ['\\', c] else [c]

def quoted (s : String) : String := "\"" ++ String.ofList (s.toList.flatMap escape) ++ "\""

def heading : List String :=
  ["digraph call \x7b", "size=\"14,10\"; ratio = fill;", "graph [ordering=\"out\"];",
    "node [style=filled]"]

def edgeLine (e : Edge) : String :=
  s!"{quoted e.source} -> {quoted e.target} [color=\"{e.kind.colour}\"];"

def nodeLine (n : Node) : Except RenderError String :=
  match n.kind.colour? with
  | some colour => .ok s!"{quoted n.id} [color=\"{colour}\"];"
  | none => .error (.unstyledNode n.id n.kind)

end Dot

/-- The DOT text of a graph, without a final line end. -/
def dot (g : CallGraph) : Except RenderError String := do
  let nodeLines ← g.nodes.toList.mapM Dot.nodeLine
  let lines := Dot.heading ++ g.edges.toList.map Dot.edgeLine ++ nodeLines ++ ["\x7d"]
  return "\n".intercalate lines

end CallGraph
end CobolCalls
