import CobolCalls.CallGraph.Source
import Mathlib.Data.List.Basic

/-
  What a call graph holds after a list of insertions: the first node of each id, and all edges or
  the first of each pair. `Collects g nodes edges` says so of a graph into which `nodes` and
  `edges` were inserted, together with what its two indexes answer. Every way to build a graph
  (events of an outline, merging) is a list of insertions, so its nodes and edges are read off
  the lists, in which the order of nodes against edges no longer matters.
-/

namespace CobolCalls

/-! ## The first element of each key -/

section FirstOf

variable {α κ : Type} [DecidableEq κ] (key : α → κ)

/-- The first element of each key, in order. -/
def firstOf : List α → List α
  | [] => []
  | a :: rest => a :: (firstOf rest).filter fun b => key b ≠ key a

theorem mem_of_mem_firstOf {xs : List α} {b : α} (h : b ∈ firstOf key xs) : b ∈ xs := by
  induction xs with
  | nil => exact h
  | cons a rest ih =>
    rcases List.mem_cons.1 h with rfl | h
    · exact List.mem_cons_self
    · exact List.mem_cons_of_mem a (ih (List.mem_of_mem_filter h))

/-- Every key that occurs keeps an element. -/
theorem exists_mem_firstOf {xs : List α} {a : α} (h : a ∈ xs) :
    ∃ b ∈ firstOf key xs, key b = key a := by
  induction xs with
  | nil => cases h
  | cons c rest ih =>
    by_cases heq : key a = key c
    · exact ⟨c, List.mem_cons_self, heq.symm⟩
    · rcases List.mem_cons.1 h with rfl | h
      · exact absurd rfl heq
      · obtain ⟨b, hb, hkey⟩ := ih h
        refine ⟨b, List.mem_cons_of_mem c (List.mem_filter.2 ⟨hb, ?_⟩), hkey⟩
        simpa [hkey] using heq

theorem mem_keys_firstOf {xs : List α} {k : κ} :
    k ∈ (firstOf key xs).map key ↔ k ∈ xs.map key := by
  constructor
  · intro h
    obtain ⟨b, hb, rfl⟩ := List.mem_map.1 h
    exact List.mem_map_of_mem (mem_of_mem_firstOf key hb)
  · intro h
    obtain ⟨a, ha, rfl⟩ := List.mem_map.1 h
    obtain ⟨b, hb, hkey⟩ := exists_mem_firstOf key ha
    exact hkey ▸ List.mem_map_of_mem hb

theorem firstOf_append (xs ys : List α) :
    firstOf key (xs ++ ys) =
      firstOf key xs ++ (firstOf key ys).filter fun b => key b ∉ xs.map key := by
  induction xs with
  | nil => simp [firstOf]
  | cons a rest ih =>
    rw [List.cons_append, firstOf, ih, List.filter_append, List.filter_filter, firstOf,
      List.cons_append]
    congr 2
    refine List.filter_congr fun b _ => ?_
    by_cases h : key b = key a <;> simp [h]

theorem firstOf_concat (xs : List α) (a : α) :
    firstOf key (xs ++ [a]) =
      if key a ∈ xs.map key then firstOf key xs else firstOf key xs ++ [a] := by
  have single : firstOf key [a] = [a] := rfl
  rw [firstOf_append, single, List.filter_cons, List.filter_nil]
  by_cases h : key a ∈ xs.map key
  · rw [if_pos h, if_neg (by rw [decide_eq_true_eq]; exact not_not_intro h), List.append_nil]
  · rw [if_neg h, if_pos (decide_eq_true h)]

theorem firstOf_filter (keeps : κ → Bool) (xs : List α) :
    firstOf key (xs.filter fun b => keeps (key b)) =
      (firstOf key xs).filter fun b => keeps (key b) := by
  induction xs with
  | nil => rfl
  | cons a rest ih =>
    rw [firstOf, List.filter_cons, List.filter_cons, List.filter_filter]
    split
    next h =>
      rw [firstOf, ih, List.filter_filter]
      congr 1
      exact List.filter_congr fun b _ => Bool.and_comm _ _
    next h =>
      rw [ih]
      refine List.filter_congr fun b _ => ?_
      by_cases hb : key b = key a <;> simp [hb, h]

theorem firstOf_firstOf (xs : List α) : firstOf key (firstOf key xs) = firstOf key xs := by
  induction xs with
  | nil => rfl
  | cons a rest ih =>
    rw [firstOf, firstOf, firstOf_filter key (fun k => k ≠ key a), ih, List.filter_filter]
    simp

/-- No key is kept twice. -/
theorem nodup_keys_firstOf (xs : List α) : ((firstOf key xs).map key).Nodup := by
  induction xs with
  | nil => exact .nil
  | cons a rest ih =>
    rw [firstOf, List.map_cons, List.nodup_cons]
    constructor
    · simp
    · exact ih.sublist (List.filter_sublist.map key)

/-- Taking the first elements of each part before the whole changes nothing. -/
theorem firstOf_flatMap {β : Type} (f : β → List α) (bs : List β) :
    firstOf key (bs.flatMap fun b => firstOf key (f b)) = firstOf key (bs.flatMap f) := by
  induction bs with
  | nil => rfl
  | cons b rest ih =>
    rw [List.flatMap_cons, List.flatMap_cons, firstOf_append, firstOf_append, firstOf_firstOf, ih]
    congr 1
    refine List.filter_congr fun c _ => ?_
    rw [decide_eq_decide, mem_keys_firstOf]

end FirstOf

/-! ## Insertions into a graph -/

/-- What two edges must share to be repeats of each other. -/
def Edge.pair (e : Edge) : String × String := (e.source, e.target)

/-- The edges that a graph keeps. -/
def keepEdges (repeats : Bool) (edges : List Edge) : List Edge :=
  if repeats then edges else firstOf Edge.pair edges

theorem keepEdges_concat (repeats : Bool) (edges : List Edge) (e : Edge) :
    keepEdges repeats (edges ++ [e]) =
      if e.pair ∈ edges.map Edge.pair ∧ repeats = false then keepEdges repeats edges
      else keepEdges repeats edges ++ [e] := by
  cases repeats with
  | true => simp [keepEdges]
  | false => simpa [keepEdges] using firstOf_concat Edge.pair edges e

namespace CallGraph

/-- The graph is what inserting these nodes and edges gives. -/
structure Collects (g : CallGraph) (repeats : Bool) (nodes : List Node) (edges : List Edge) :
    Prop where
  repeats_eq : g.keepsRepeats = repeats
  nodes_eq : g.nodes.toList = firstOf Node.id nodes
  edges_eq : g.edges.toList = keepEdges repeats edges
  hasNode_iff : ∀ id, g.hasNode id = true ↔ id ∈ nodes.map Node.id
  hasEdge_iff : ∀ source target, g.hasEdge source target = true ↔
    (source, target) ∈ edges.map Edge.pair

theorem collects_empty (repeats : Bool) : Collects (empty repeats) repeats [] [] where
  repeats_eq := rfl
  nodes_eq := rfl
  edges_eq := by cases repeats <;> rfl
  hasNode_iff id := by simp [hasNode, empty]
  hasEdge_iff source target := by simp [hasEdge, empty]

namespace Collects

variable {g : CallGraph} {repeats : Bool} {nodes : List Node} {edges : List Edge}

theorem addNode (h : Collects g repeats nodes edges) (id : String) (kind : NodeKind)
    (data : NodeData) :
    Collects (g.addNode id kind data).2 repeats (nodes ++ [⟨id, id, kind, data⟩]) edges := by
  unfold CallGraph.addNode
  split
  next taken =>
    have hid : id ∈ nodes.map Node.id := (h.hasNode_iff id).1 taken
    refine ⟨h.repeats_eq, ?_, h.edges_eq, fun other => ?_, h.hasEdge_iff⟩
    · rw [firstOf_concat, if_pos hid, h.nodes_eq]
    · rw [h.hasNode_iff, List.map_append, List.mem_append]
      refine ⟨.inl, fun hother => hother.elim (fun h => h) fun hother => ?_⟩
      exact (List.mem_singleton.1 hother) ▸ hid
  next free =>
    have hid : id ∉ nodes.map Node.id := fun hid => free ((h.hasNode_iff id).2 hid)
    refine ⟨h.repeats_eq, ?_, h.edges_eq, fun other => ?_, h.hasEdge_iff⟩
    · rw [firstOf_concat, if_neg hid, Array.toList_push, h.nodes_eq]
    · have hother := h.hasNode_iff other
      unfold hasNode at hother ⊢
      rw [Std.TreeMap.contains_insert, Bool.or_eq_true, hother, List.map_append, List.mem_append,
        or_comm, beq_iff_eq, Std.LawfulEqCmp.compare_eq_iff_eq, List.map_singleton,
        List.mem_singleton]
      exact or_congr_right eq_comm

theorem addEdge (h : Collects g repeats nodes edges) (source target : String) (kind : EdgeKind) :
    Collects (g.addEdge source target kind).2 repeats nodes
      (edges ++ [⟨source, target, kind⟩]) := by
  obtain ⟨e, he⟩ : ∃ e : Edge, e = ⟨source, target, kind⟩ := ⟨_, rfl⟩
  have hpair : g.hasEdge source target = true ↔ e.pair ∈ edges.map Edge.pair := by
    rw [h.hasEdge_iff, he]
    rfl
  rw [CallGraph.addEdge, h.repeats_eq, ← he]
  split
  next joined =>
    have hmem := hpair.1 joined
    have hasEdge_iff (s t : String) :
        g.hasEdge s t = true ↔ (s, t) ∈ (edges ++ [e]).map Edge.pair := by
      rw [h.hasEdge_iff, List.map_append, List.mem_append]
      refine ⟨.inl, fun hst => hst.elim (fun h => h) fun hst => ?_⟩
      exact (List.mem_singleton.1 hst) ▸ hmem
    split
    next kept =>
      refine ⟨rfl, h.nodes_eq, ?_, h.hasNode_iff, hasEdge_iff⟩
      rw [Array.toList_push, h.edges_eq, keepEdges_concat, if_neg (by simp [kept])]
    next dropped =>
      refine ⟨h.repeats_eq, h.nodes_eq, ?_, h.hasNode_iff, hasEdge_iff⟩
      rw [h.edges_eq, keepEdges_concat, if_pos ⟨hmem, by simpa using dropped⟩]
  next apart =>
    have hnew : e.pair ∉ edges.map Edge.pair := fun hmem => apart (hpair.2 hmem)
    refine ⟨rfl, h.nodes_eq, ?_, h.hasNode_iff, fun s t => ?_⟩
    · rw [Array.toList_push, h.edges_eq, keepEdges_concat, if_neg fun hmem => hnew hmem.1]
    · have hother := h.hasEdge_iff s t
      unfold hasEdge at hother ⊢
      rw [Std.TreeMap.getD_insert, List.map_append, List.mem_append, ← hother, he]
      simp only [Std.LawfulEqCmp.compare_eq_iff_eq]
      split
      next heq =>
        subst heq
        simp [Edge.pair, or_comm]
      next hne =>
        simp [Edge.pair, Ne.symm hne]

theorem mention (h : Collects g repeats nodes edges) (source target : String) (node : NodeKind)
    (edge : EdgeKind) :
    Collects (g.mention source target node edge) repeats (nodes ++ [⟨target, target, node, {}⟩])
      (edges ++ [⟨source, target, edge⟩]) :=
  (h.addNode target node {}).addEdge source target edge

end Collects
end CallGraph

/-! ## Events -/

namespace Event

/-- The nodes that an event mentions. -/
def nodes (o : Options) : Event → List Node
  | performs p target =>
    let id := o.label ⟨p.program, target⟩
    [⟨id, id, .procedure, {}⟩]
  | calls _ target => [⟨o.resolve target, o.resolve target, .batchProgram, {}⟩]
  | links _ target => [⟨o.resolve target, o.resolve target, .onlineProgram, {}⟩]
  | closes p fields => [⟨o.label p, o.label p, .procedure, ⟨fields⟩⟩]
  | _ => []

/-- The edges that an event mentions. -/
def edges (o : Options) : Event → List Edge
  | performs p target => [⟨o.label p, o.label ⟨p.program, target⟩, .perform⟩]
  | calls p target => [⟨o.label p, o.resolve target, .call⟩]
  | links p target => [⟨o.label p, o.resolve target, .remoteLink⟩]
  | _ => []

theorem name_eq_id_of_mem_nodes {o : Options} {event : Event} {n : Node} (h : n ∈ event.nodes o) :
    n.name = n.id := by
  cases event <;> simp only [nodes, List.mem_singleton, List.not_mem_nil] at h <;> subst h <;> rfl

end Event

namespace CallGraph

theorem Collects.record {o : Options} {g : CallGraph} {repeats : Bool} {nodes : List Node}
    {edges : List Edge} (h : Collects g repeats nodes edges) (event : Event) :
    Collects (g.record o event) repeats (nodes ++ event.nodes o) (edges ++ event.edges o) := by
  cases event with
  | program name => simpa [CallGraph.record, Event.nodes, Event.edges] using h
  | opens p => simpa [CallGraph.record, Event.nodes, Event.edges] using h
  | strays p found => simpa [CallGraph.record, Event.nodes, Event.edges] using h
  | performs p target => exact h.mention ..
  | calls p target => exact h.mention ..
  | links p target => exact h.mention ..
  | closes p fields => simpa [CallGraph.record, Event.nodes, Event.edges] using h.addNode _ _ _

/-- A run of events: what it mentions is inserted in order. -/
theorem Collects.foldl_record {o : Options} {g : CallGraph} {repeats : Bool} {nodes : List Node}
    {edges : List Edge} (h : Collects g repeats nodes edges) (events : List (Nat × Event)) :
    Collects (events.foldl (fun g (_, event) => g.record o event) g) repeats
      (nodes ++ events.flatMap fun e => e.2.nodes o)
      (edges ++ events.flatMap fun e => e.2.edges o) := by
  induction events generalizing g nodes edges with
  | nil => simpa using h
  | cons e rest ih =>
    rw [List.foldl_cons, List.flatMap_cons, List.flatMap_cons, ← List.append_assoc,
      ← List.append_assoc]
    exact ih (h.record e.2)

/-- A source with a call graph has no fault, and its graph is what its events mention. -/
theorem ofSource_eq_ok {o : Options} {source : String} {g : CallGraph}
    (h : ofSource o source = .ok g) :
    (Outline.ofSource source).fault = none ∧
      Collects g o.keepsRepeats ((Outline.ofSource source).events.flatMap fun e => e.2.nodes o)
        ((Outline.ofSource source).events.flatMap fun e => e.2.edges o) := by
  unfold ofSource ofOutline at h
  split at h
  next => cases h
  next hnone =>
    cases h
    exact ⟨hnone, (collects_empty o.keepsRepeats).foldl_record _⟩

theorem exists_ofSource_eq_ok {source : String} (o : Options)
    (h : (Outline.ofSource source).fault = none) : ∃ g, ofSource o source = .ok g := by
  unfold ofSource ofOutline
  rw [h]
  exact ⟨_, rfl⟩

theorem exists_ok_iff (o : Options) (source : String) :
    (∃ g, ofSource o source = .ok g) ↔ (Outline.ofSource source).fault = none :=
  ⟨fun ⟨_, h⟩ => (ofSource_eq_ok h).1, exists_ofSource_eq_ok o⟩

end CallGraph

/-! ## Merging -/

/-- Merging names a node by its id. -/
def Node.renamed (n : Node) : Node := { n with name := n.id }

theorem Node.renamed_eq_self {n : Node} (h : n.name = n.id) : n.renamed = n := by
  obtain ⟨id, name, kind, data⟩ := n
  exact congrArg (Node.mk id · kind data) h.symm

namespace CallGraph

theorem Collects.foldl_addNode {g : CallGraph} {repeats : Bool} {nodes : List Node}
    {edges : List Edge} (h : Collects g repeats nodes edges) (more : List Node) :
    Collects (more.foldl (fun g n => (g.addNode n.id n.kind n.data).2) g) repeats
      (nodes ++ more.map Node.renamed) edges := by
  induction more generalizing g nodes with
  | nil => simpa using h
  | cons n rest ih =>
    have hrest := ih (h.addNode n.id n.kind n.data)
    rwa [List.append_assoc, List.singleton_append] at hrest

theorem Collects.foldl_addEdge {g : CallGraph} {repeats : Bool} {nodes : List Node}
    {edges : List Edge} (h : Collects g repeats nodes edges) (more : List Edge) :
    Collects (more.foldl (fun g e => (g.addEdge e.source e.target e.kind).2) g) repeats nodes
      (edges ++ more) := by
  induction more generalizing g edges with
  | nil => simpa using h
  | cons e rest ih =>
    have hrest := ih (h.addEdge e.source e.target e.kind)
    rwa [List.append_assoc, List.singleton_append] at hrest

theorem Collects.absorb {g : CallGraph} {repeats : Bool} {nodes : List Node} {edges : List Edge}
    (h : Collects g repeats nodes edges) (other : CallGraph) :
    Collects (g.absorb other) repeats (nodes ++ other.nodes.toList.map Node.renamed)
      (edges ++ other.edges.toList) := by
  unfold CallGraph.absorb
  rw [← Array.foldl_toList, ← Array.foldl_toList]
  exact (h.foldl_addNode other.nodes.toList).foldl_addEdge other.edges.toList

/-- A merged graph is what inserting the nodes and the edges of the parts gives. -/
theorem collects_merge (repeats : Bool) (graphs : List CallGraph) :
    Collects (merge repeats graphs) repeats
      (graphs.flatMap fun g => g.nodes.toList.map Node.renamed)
      (graphs.flatMap fun g => g.edges.toList) := by
  have run {g : CallGraph} {nodes : List Node} {edges : List Edge}
      (h : Collects g repeats nodes edges) :
      Collects (graphs.foldl CallGraph.absorb g) repeats
        (nodes ++ graphs.flatMap fun g => g.nodes.toList.map Node.renamed)
        (edges ++ graphs.flatMap fun g => g.edges.toList) := by
    induction graphs generalizing g nodes edges with
    | nil => simpa using h
    | cons other rest ih =>
      rw [List.foldl_cons, List.flatMap_cons, List.flatMap_cons, ← List.append_assoc,
        ← List.append_assoc]
      exact ih (h.absorb other)
  exact run (collects_empty repeats)

end CallGraph
end CobolCalls
