import CobolCalls.Dict
import Std.Data.TreeMap

/-
  Call graphs. Nodes and edges keep the order in which they were added. An id names one node: the
  first addition decides, later ones change nothing. Two indexes go along with the lists: where
  each id stands among the nodes, and which targets each source already has.
-/

namespace CobolCalls

/-- What a node stands for. -/
inductive NodeKind where
  /-- A section of a program. -/
  | procedure
  /-- A program reached by CALL. -/
  | batchProgram
  /-- A program reached by a link. -/
  | onlineProgram
  /-- A target known only at run time. -/
  | dynamic
deriving DecidableEq

/-- How control passes along an edge. -/
inductive EdgeKind where
  | perform
  | call
  | remoteLink
deriving DecidableEq

namespace NodeKind

def name : NodeKind → String
  | procedure => "Procedure"
  | batchProgram => "BatchProgram"
  | onlineProgram => "OnlineProgram"
  | dynamic => "Dynamic"

def all : List NodeKind := [procedure, batchProgram, onlineProgram, dynamic]

def ofName? (s : String) : Option NodeKind := all.find? (·.name == s)

end NodeKind

namespace EdgeKind

def name : EdgeKind → String
  | perform => "Perform"
  | call => "Call"
  | remoteLink => "RemoteLink"

def all : List EdgeKind := [perform, call, remoteLink]

def ofName? (s : String) : Option EdgeKind := all.find? (·.name == s)

end EdgeKind

/-- What is known about a section besides its name: the literals moved to each field. -/
structure NodeData where
  fields : Dict (List String) := ∅
deriving DecidableEq

structure Node where
  id : String
  name : String
  kind : NodeKind
  data : NodeData
deriving DecidableEq

structure Edge where
  source : String
  target : String
  kind : EdgeKind
deriving DecidableEq

structure CallGraph where
  /-- Whether a pair of source and target may be joined more than once. -/
  keepsRepeats : Bool
  nodes : Array Node
  edges : Array Edge
  /-- Where each id stands among the nodes. -/
  positions : Std.TreeMap String Nat
  /-- The targets that each source has an edge to. -/
  targets : Std.TreeMap String (List String)

namespace CallGraph

def empty (keepsRepeats : Bool) : CallGraph := ⟨keepsRepeats, #[], #[], ∅, ∅⟩

def nodeCount (g : CallGraph) : Nat := g.nodes.size

def edgeCount (g : CallGraph) : Nat := g.edges.size

def isEmpty (g : CallGraph) : Bool := g.nodes.isEmpty && g.edges.isEmpty

def hasNode (g : CallGraph) (id : String) : Bool := g.positions.contains id

def node? (g : CallGraph) (id : String) : Option Node := g.positions[id]? >>= (g.nodes[·]?)

def hasEdge (g : CallGraph) (source target : String) : Bool :=
  (g.targets.getD source []).contains target

/-- Adds a node named like its id, unless the id is taken, and tells whether it did. -/
def addNode (g : CallGraph) (id : String) (kind : NodeKind) (data : NodeData) :
    Bool × CallGraph :=
  if g.hasNode id then (false, g)
  else (true, { g with
    nodes := g.nodes.push ⟨id, id, kind, data⟩
    positions := g.positions.insert id g.nodes.size })

/-- Adds an edge and tells whether it did. A graph without repeats takes only the first edge
from a source to a target, whatever its kind. -/
def addEdge (g : CallGraph) (source target : String) (kind : EdgeKind) : Bool × CallGraph :=
  if g.hasEdge source target then
    if g.keepsRepeats then (true, { g with edges := g.edges.push ⟨source, target, kind⟩ })
    else (false, g)
  else (true, { g with
    edges := g.edges.push ⟨source, target, kind⟩
    targets := g.targets.insert source (target :: g.targets.getD source []) })

/-- All nodes, then all edges, of another graph. -/
def absorb (g other : CallGraph) : CallGraph :=
  let g := other.nodes.foldl (fun g n => (g.addNode n.id n.kind n.data).2) g
  other.edges.foldl (fun g e => (g.addEdge e.source e.target e.kind).2) g

/-- One graph from several, in their order. -/
def merge (keepsRepeats : Bool) (graphs : List CallGraph) : CallGraph :=
  graphs.foldl absorb (empty keepsRepeats)

/-- How many nodes there are of each kind, by the kind's name. -/
def nodeTally (g : CallGraph) : Dict Nat := Dict.tally (g.nodes.toList.map (·.kind.name))

def edgeTally (g : CallGraph) : Dict Nat := Dict.tally (g.edges.toList.map (·.kind.name))

end CallGraph
end CobolCalls
