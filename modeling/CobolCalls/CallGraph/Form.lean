import CobolCalls.CallGraph.Basic
import CobolCalls.Json.Record

/-
  JSON forms of nodes and edges. A kind is its name. A node without `data` has no fields.
-/

namespace CobolCalls

def NodeKind.toJson (k : NodeKind) : Json := .str k.name

def NodeKind.ofJson? : Json → Option NodeKind := Json.asVariant? ofName?

def EdgeKind.toJson (k : EdgeKind) : Json := .str k.name

def EdgeKind.ofJson? : Json → Option EdgeKind := Json.asVariant? ofName?

namespace NodeData

def toJson (d : NodeData) : Json := .obj [("fields", Json.ofDict Json.ofStrings d.fields)]

def ofJson? (j : Json) : Option NodeData := do
  match ← j.slots? ["fields"] with
  | [fields] =>
    return ⟨← Json.optional ∅ (Json.asDict? (Json.asList? Json.asString?)) fields⟩
  | _ => none

end NodeData

namespace Node

def toJson (n : Node) : Json :=
  .obj [("id", .str n.id), ("name", .str n.name), ("type", n.kind.toJson), ("data", n.data.toJson)]

def ofJson? (j : Json) : Option Node := do
  match ← j.slots? ["id", "name", "type", "data"] with
  | [id, name, kind, data] =>
    return {
      id := ← Json.required Json.asString? id
      name := ← Json.required Json.asString? name
      kind := ← Json.required NodeKind.ofJson? kind
      data := ← Json.optional {} NodeData.ofJson? data }
  | _ => none

end Node

namespace Edge

def toJson (e : Edge) : Json :=
  .obj [("source", .str e.source), ("target", .str e.target), ("type", e.kind.toJson)]

def ofJson? (j : Json) : Option Edge := do
  match ← j.slots? ["source", "target", "type"] with
  | [source, target, kind] =>
    return {
      source := ← Json.required Json.asString? source
      target := ← Json.required Json.asString? target
      kind := ← Json.required EdgeKind.ofJson? kind }
  | _ => none

end Edge
end CobolCalls
