import CobolCalls.Proofs.Insertion
import CobolCalls.Proofs.Reading
import Mathlib.Data.List.Forall2

/-
  The laws of merging. A merged graph holds the first node of each id among the nodes of its
  parts, one part after the other, and all their edges or the first of each pair, whichever way
  the parts themselves treat repeats. So merging in groups, merging one graph and dropping
  repeats after the merge give nothing new.

  For the graphs of sources this means that repeats may be dropped at any time: in the graph of
  each source and again when they are merged, or once from the list of all edges.

  All of it rests on `merge_of_parts`: whatever was inserted into the parts is as good as
  inserted into the merged graph.
-/

namespace CobolCalls

/-! ## Dropping repeats in parts -/

theorem keepEdges_flatMap {α : Type} (repeats : Bool) (edges : α → List Edge) (xs : List α) :
    keepEdges repeats (xs.flatMap fun x => keepEdges repeats (edges x)) =
      keepEdges repeats (xs.flatMap edges) := by
  cases repeats with
  | true => rfl
  | false => exact firstOf_flatMap Edge.pair edges xs

namespace CallGraph

theorem Collects.map_renamed {g : CallGraph} {repeats : Bool} {nodes : List Node}
    {edges : List Edge} (h : Collects g repeats nodes edges)
    (named : ∀ n ∈ nodes, n.name = n.id) : g.nodes.toList.map Node.renamed = g.nodes.toList := by
  refine (List.map_congr_left fun n hn => ?_).trans (List.map_id _)
  rw [h.nodes_eq] at hn
  exact Node.renamed_eq_self (named n (mem_of_mem_firstOf Node.id hn))

/-- Merging drops what was a repeat only across the parts: in the end it is as if all had been
inserted into one graph. -/
theorem merge_of_parts {α : Type} {repeats : Bool} {nodes : α → List Node} {edges : α → List Edge}
    (named : ∀ x, ∀ n ∈ nodes x, n.name = n.id) {parts : List α} {graphs : List CallGraph}
    (h : List.Forall₂ (fun x g => Collects g repeats (nodes x) (edges x)) parts graphs) :
    (merge repeats graphs).nodes.toList = firstOf Node.id (parts.flatMap nodes) ∧
      (merge repeats graphs).edges.toList = keepEdges repeats (parts.flatMap edges) := by
  have hparts : (graphs.flatMap fun g => g.nodes.toList.map Node.renamed) =
        (parts.flatMap fun x => firstOf Node.id (nodes x)) ∧
      (graphs.flatMap fun g => g.edges.toList) =
        parts.flatMap fun x => keepEdges repeats (edges x) := by
    induction h with
    | nil => exact ⟨rfl, rfl⟩
    | @cons x g xs gs hx _ ih =>
      rw [List.flatMap_cons, List.flatMap_cons, List.flatMap_cons, List.flatMap_cons,
        hx.map_renamed (named x), hx.nodes_eq, hx.edges_eq, ih.1, ih.2]
      exact ⟨rfl, rfl⟩
  have hmerge := collects_merge repeats graphs
  rw [hmerge.nodes_eq, hmerge.edges_eq, hparts.1, hparts.2]
  exact ⟨firstOf_flatMap Node.id nodes parts, keepEdges_flatMap repeats edges parts⟩

/-! ## Graphs built by insertions -/

/-- The graphs that insertions make of an empty one, with its policy on repeats. -/
inductive Built (repeats : Bool) : CallGraph → Prop where
  | empty : Built repeats (empty repeats)
  | addNode {g : CallGraph} (id : String) (kind : NodeKind) (data : NodeData) :
      Built repeats g → Built repeats (g.addNode id kind data).2
  | addEdge {g : CallGraph} (source target : String) (kind : EdgeKind) :
      Built repeats g → Built repeats (g.addEdge source target kind).2

/-- Every insertion names its node by its id. -/
theorem Built.collects {repeats : Bool} {g : CallGraph} (h : Built repeats g) :
    ∃ nodes edges, Collects g repeats nodes edges ∧ ∀ n ∈ nodes, n.name = n.id := by
  induction h with
  | empty => exact ⟨[], [], collects_empty repeats, by simp⟩
  | addNode id kind data _ ih =>
    obtain ⟨nodes, edges, hg, named⟩ := ih
    refine ⟨_, edges, hg.addNode id kind data, fun n hn => ?_⟩
    rcases List.mem_append.1 hn with hn | hn
    · exact named n hn
    · rw [List.mem_singleton.1 hn]
  | addEdge source target kind _ ih =>
    obtain ⟨nodes, edges, hg, named⟩ := ih
    exact ⟨nodes, _, hg.addEdge source target kind, named⟩

/-! ## The laws -/

theorem merge_nodes_of_built (repeats : Bool) {graphs : List CallGraph}
    (h : ∀ g ∈ graphs, ∃ policy, Built policy g) :
    (merge repeats graphs).nodes.toList =
      firstOf Node.id (graphs.flatMap fun g => g.nodes.toList) := by
  have hparts : (graphs.flatMap fun g => g.nodes.toList.map Node.renamed) =
      graphs.flatMap fun g => g.nodes.toList := by
    refine List.flatMap_congr fun g hg => ?_
    obtain ⟨policy, hbuilt⟩ := h g hg
    obtain ⟨nodes, edges, hcollects, named⟩ := hbuilt.collects
    exact hcollects.map_renamed named
  rw [(collects_merge repeats graphs).nodes_eq, hparts]

theorem merge_edges (repeats : Bool) (graphs : List CallGraph) :
    (merge repeats graphs).edges.toList =
      keepEdges repeats (graphs.flatMap fun g => g.edges.toList) :=
  (collects_merge repeats graphs).edges_eq

theorem named_of_mem_renamed {graphs : List CallGraph} {n : Node}
    (h : n ∈ graphs.flatMap fun g => g.nodes.toList.map Node.renamed) : n.name = n.id := by
  obtain ⟨g, -, hn⟩ := List.mem_flatMap.1 h
  obtain ⟨m, -, rfl⟩ := List.mem_map.1 hn
  rfl

/-- Merging in groups is merging all at once. -/
theorem merge_groups (repeats : Bool) (groups : List (List CallGraph)) :
    (merge repeats (groups.map (merge repeats))).nodes = (merge repeats groups.flatten).nodes ∧
      (merge repeats (groups.map (merge repeats))).edges = (merge repeats groups.flatten).edges := by
  have hgroups : List.Forall₂ (fun graphs g => Collects g repeats
      (graphs.flatMap fun g => g.nodes.toList.map Node.renamed)
      (graphs.flatMap fun g => g.edges.toList)) groups (groups.map (merge repeats)) := by
    rw [List.forall₂_map_right_iff, List.forall₂_same]
    exact fun graphs _ => collects_merge repeats graphs
  obtain ⟨hnodes, hedges⟩ := merge_of_parts (fun _ _ hn => named_of_mem_renamed hn) hgroups
  have hflat {α : Type} (f : CallGraph → List α) :
      groups.flatten.flatMap f = groups.flatMap fun graphs => graphs.flatMap f := by
    rw [← List.flatMap_id, List.flatMap_assoc]
    rfl
  have hall := collects_merge repeats groups.flatten
  rw [hflat, hflat] at hall
  rw [← Array.toList_inj, ← Array.toList_inj, hnodes, hedges]
  exact ⟨hall.nodes_eq.symm, hall.edges_eq.symm⟩

/-- A graph merged alone is itself, if repeats are treated as they were. -/
theorem merge_singleton {repeats : Bool} {g : CallGraph} (h : Built repeats g) :
    (merge repeats [g]).nodes = g.nodes ∧ (merge repeats [g]).edges = g.edges := by
  obtain ⟨nodes, edges, hg, named⟩ := h.collects
  -- with one part there is nothing to tell parts apart by
  have hparts : List.Forall₂ (fun (_ : Unit) g => Collects g repeats nodes edges) [()] [g] :=
    .cons hg .nil
  obtain ⟨hnodes, hedges⟩ := merge_of_parts (fun _ => named) hparts
  rw [List.flatMap_singleton] at hnodes hedges
  rw [← Array.toList_inj, ← Array.toList_inj, hnodes, hedges]
  exact ⟨hg.nodes_eq.symm, hg.edges_eq.symm⟩

/-- Repeats may be dropped after the merge. -/
theorem merge_false_merge_true (graphs : List CallGraph) :
    (merge false [merge true graphs]).nodes = (merge false graphs).nodes ∧
      (merge false [merge true graphs]).edges = (merge false graphs).edges := by
  have hkept := collects_merge true graphs
  have hdropped := collects_merge false graphs
  have hafter := collects_merge false [merge true graphs]
  rw [List.flatMap_singleton, List.flatMap_singleton,
    hkept.map_renamed fun _ hn => named_of_mem_renamed hn] at hafter
  rw [← Array.toList_inj, ← Array.toList_inj]
  constructor
  · rw [hafter.nodes_eq, hkept.nodes_eq, firstOf_firstOf, hdropped.nodes_eq]
  · -- all edges are there when the repeats are dropped
    rw [hafter.edges_eq, hkept.edges_eq, hdropped.edges_eq]
    rfl

/-- **The laws of merging.** The nodes of a merged graph are those of its parts in order, of each
id the first; its edges are all of theirs, or of each pair the first, however the parts treat
repeats. Hence merging in two groups is merging all, a graph merged alone is itself, and repeats
may be dropped after the merge. -/
theorem merge_laws :
    (∀ (repeats : Bool) (graphs : List CallGraph), (∀ g ∈ graphs, ∃ policy, Built policy g) →
      (merge repeats graphs).nodes.toList =
          firstOf Node.id (graphs.flatMap fun g => g.nodes.toList) ∧
        (merge repeats graphs).edges.toList =
          if repeats then graphs.flatMap fun g => g.edges.toList
          else firstOf Edge.pair (graphs.flatMap fun g => g.edges.toList)) ∧
    (∀ (repeats : Bool) (graphs others : List CallGraph),
      (merge repeats (graphs ++ others)).nodes =
          (merge repeats [merge repeats graphs, merge repeats others]).nodes ∧
        (merge repeats (graphs ++ others)).edges =
          (merge repeats [merge repeats graphs, merge repeats others]).edges) ∧
    (∀ (repeats : Bool) (g : CallGraph), Built repeats g →
      (merge repeats [g]).nodes = g.nodes ∧ (merge repeats [g]).edges = g.edges) ∧
    (∀ graphs : List CallGraph,
      (merge false [merge true graphs]).nodes = (merge false graphs).nodes ∧
        (merge false [merge true graphs]).edges = (merge false graphs).edges) := by
  refine ⟨fun repeats graphs h => ?_, fun repeats graphs others => ?_, fun _ _ h => ?_, ?_⟩
  · exact ⟨merge_nodes_of_built repeats h, merge_edges repeats graphs⟩
  · obtain ⟨hnodes, hedges⟩ := merge_groups repeats [graphs, others]
    rw [List.flatten_cons, List.flatten_singleton] at hnodes hedges
    exact ⟨hnodes.symm, hedges.symm⟩
  · exact merge_singleton h
  · exact merge_false_merge_true

/-- A section `X` and its edge to `Y`. -/
def sectionGraph : CallGraph :=
  (((empty true).addNode "X" .procedure {}).2.addEdge "X" "Y" .perform).2

/-- Nodes for `Y` and, of another kind, for `X`, and the same pair joined twice. -/
def programGraph : CallGraph :=
  (((((empty true).addNode "Y" .batchProgram {}).2.addNode "X" .batchProgram {}).2.addEdge
    "X" "Y" .call).2.addEdge "X" "Y" .call).2

theorem built_sectionGraph : Built true sectionGraph := .addEdge _ _ _ (.addNode _ _ _ .empty)

theorem built_programGraph : Built true programGraph :=
  .addEdge _ _ _ (.addEdge _ _ _ (.addNode _ _ _ (.addNode _ _ _ .empty)))

theorem merge_laws_section_program :
    (merge false [sectionGraph, programGraph]).nodes.toList =
        [⟨"X", "X", .procedure, {}⟩, ⟨"Y", "Y", .batchProgram, {}⟩] ∧
      (merge false [sectionGraph, programGraph]).edges.toList = [⟨"X", "Y", .perform⟩] ∧
      (merge true [programGraph]).nodes = programGraph.nodes ∧
      (merge true [programGraph]).edges = programGraph.edges := by
  obtain ⟨lists, -, single, -⟩ := merge_laws
  obtain ⟨hnodes, hedges⟩ := lists false [sectionGraph, programGraph] fun g hg => by
    rcases List.mem_pair.1 hg with rfl | rfl
    · exact ⟨true, built_sectionGraph⟩
    · exact ⟨true, built_programGraph⟩
  rw [hnodes, hedges]
  exact ⟨by decide +kernel, by decide +kernel, single true programGraph built_programGraph⟩

/-! ## Repeats dropped early or late -/

/-- What the graphs of sources are merged into holds what the sources mention, one after the
other. -/
theorem merge_of_sources {o : Options} {sources : List String} {graphs : List CallGraph}
    (h : List.Forall₂ (fun source g => ofSource o source = .ok g) sources graphs) :
    (merge o.keepsRepeats graphs).nodes.toList = firstOf Node.id (sources.flatMap fun source =>
        (Outline.ofSource source).events.flatMap fun e => e.2.nodes o) ∧
      (merge o.keepsRepeats graphs).edges.toList = keepEdges o.keepsRepeats
        (sources.flatMap fun source =>
          (Outline.ofSource source).events.flatMap fun e => e.2.edges o) := by
  refine merge_of_parts (fun source n hn => ?_) (h.imp fun _ _ hg => (ofSource_eq_ok hg).2)
  obtain ⟨e, -, hn⟩ := List.mem_flatMap.1 hn
  exact Event.name_eq_id_of_mem_nodes hn

/-- What an event mentions does not depend on whether repeats are kept. -/
theorem mentions_of_repeats (o : Options) (repeats : Bool) (event : Event) :
    event.nodes { o with keepsRepeats := repeats } = event.nodes o ∧
      event.edges { o with keepsRepeats := repeats } = event.edges o := by
  cases event <;> exact ⟨rfl, rfl⟩

/-- **Dropping repeats early is dropping them in the end.** Whether repeats are kept does not
decide whether a source has a call graph. If repeats are dropped in the graphs of the sources and
in what they are merged into, its nodes are those of the graph with all repeats, and its edges are
the edges of that graph, of each pair the first. -/
theorem merge_dropping_eq_firstOf (o : Options) (sources : List String) :
    (∀ source, (∃ g, ofSource { o with keepsRepeats := false } source = .ok g) ↔
      ∃ g, ofSource { o with keepsRepeats := true } source = .ok g) ∧
    ∀ dropping keeping : List CallGraph,
      List.Forall₂ (fun source g => ofSource { o with keepsRepeats := false } source = .ok g)
        sources dropping →
      List.Forall₂ (fun source g => ofSource { o with keepsRepeats := true } source = .ok g)
        sources keeping →
      (merge false dropping).nodes = (merge true keeping).nodes ∧
        (merge false dropping).edges.toList =
          firstOf Edge.pair (merge true keeping).edges.toList := by
  refine ⟨fun source => ?_, fun dropping keeping hdropping hkeeping => ?_⟩
  · rw [exists_ok_iff, exists_ok_iff]
  · obtain ⟨hnodes, hedges⟩ := merge_of_sources hdropping
    obtain ⟨hnodes', hedges'⟩ := merge_of_sources hkeeping
    simp only [mentions_of_repeats] at hnodes hedges hnodes' hedges'
    constructor
    · rw [← Array.toList_inj, hnodes, hnodes']
    · rw [hedges, hedges']
      rfl

/-- Calls `X` twice. -/
def callingTwiceSource : String :=
  "       PROGRAM-ID. P.\n       1-A SECTION.\n        CALL X\n        CALL X
       1-99-FIM. EXIT."

/-- Links to `X` from a section of the same name. -/
def linkingSource : String :=
  "       PROGRAM-ID. Q.\n       1-A SECTION.\n        EXEC CICS LINK PROGRAM(X) END-EXEC
       1-99-FIM. EXIT."

theorem outline_callingTwiceSource : Outline.ofSource callingTwiceSource =
    ⟨[(1, .program "P"), (2, .opens ⟨"P", ⟨"1", "A"⟩⟩), (3, .calls ⟨"P", ⟨"1", "A"⟩⟩ "X"),
      (4, .calls ⟨"P", ⟨"1", "A"⟩⟩ "X"), (5, .closes ⟨"P", ⟨"1", "A"⟩⟩ ∅)], none⟩ :=
  (Outline.ofSource_ofList _).trans (by decide)

theorem outline_linkingSource : Outline.ofSource linkingSource =
    ⟨[(1, .program "Q"), (2, .opens ⟨"Q", ⟨"1", "A"⟩⟩), (3, .links ⟨"Q", ⟨"1", "A"⟩⟩ "X"),
      (4, .closes ⟨"Q", ⟨"1", "A"⟩⟩ ∅)], none⟩ :=
  (Outline.ofSource_ofList _).trans (by decide +kernel)

/-- Of two calls and a link between one pair, the first call stays. -/
theorem merge_dropping_calling_linking :
    ∃ first second : CallGraph,
      ofSource { keepsRepeats := false } callingTwiceSource = .ok first ∧
      ofSource { keepsRepeats := false } linkingSource = .ok second ∧
      (merge false [first, second]).edges.toList = [⟨"1-A", "X", .call⟩] := by
  have hcalling := congrArg Outline.fault outline_callingTwiceSource
  have hlinking := congrArg Outline.fault outline_linkingSource
  obtain ⟨first, hfirst⟩ := exists_ofSource_eq_ok { keepsRepeats := false } hcalling
  obtain ⟨second, hsecond⟩ := exists_ofSource_eq_ok { keepsRepeats := false } hlinking
  obtain ⟨first', hfirst'⟩ := exists_ofSource_eq_ok {} hcalling
  obtain ⟨second', hsecond'⟩ := exists_ofSource_eq_ok {} hlinking
  have hkeeping : List.Forall₂ (fun source g => ofSource {} source = .ok g)
      [callingTwiceSource, linkingSource] [first', second'] := .cons hfirst' (.cons hsecond' .nil)
  obtain ⟨-, hedges⟩ := (merge_dropping_eq_firstOf {} [callingTwiceSource, linkingSource]).2
    [first, second] [first', second'] (.cons hfirst (.cons hsecond .nil)) hkeeping
  have hall : (merge true [first', second']).edges.toList =
      [⟨"1-A", "X", .call⟩, ⟨"1-A", "X", .call⟩, ⟨"1-A", "X", .remoteLink⟩] := by
    have := (merge_of_sources hkeeping).2
    rw [List.flatMap_cons, List.flatMap_singleton, outline_callingTwiceSource,
      outline_linkingSource] at this
    exact this
  refine ⟨first, second, hfirst, hsecond, ?_⟩
  rw [hedges, hall]
  rfl

end CallGraph
end CobolCalls
