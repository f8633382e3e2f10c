import CobolCalls.Proofs.Precedence
import Mathlib.Algebra.Order.BigOperators.Group.List
import Mathlib.Algebra.Order.Group.Nat
import Mathlib.Data.List.Count
import Mathlib.Data.List.Perm.Subperm

/-
  The figures of a report account for its graph. The number of files and the sum of their lines
  are those of the files listed, the numbers of nodes and edges are those of the graph, and the
  tallies by kind hold exactly the kinds that occur.

  The figures of a file come from a graph of its own, which is merged into that of the report. A
  merged graph keeps one node of each id, so it has no more nodes than its parts together, and no
  fewer than any part, whose ids are distinct. For edges this holds of their pairs where repeats
  are dropped; where they are kept, no edge is lost.
-/

namespace CobolCalls

/-! ## Counting what is kept -/

section Counting

variable {α κ : Type} [DecidableEq κ] (key : α → κ)

theorem length_firstOf_le (xs : List α) : (firstOf key xs).length ≤ xs.length := by
  induction xs with
  | nil => exact Nat.le_refl 0
  | cons a rest ih =>
    have hfilter := List.length_filter_le (fun b => decide (key b ≠ key a)) (firstOf key rest)
    rw [firstOf, List.length_cons, List.length_cons]
    omega

/-- Elements with keys of their own are as many as their keys, all of which are kept. -/
theorem length_le_length_firstOf {xs ys : List α} (hnodup : (xs.map key).Nodup)
    (hsub : ∀ x ∈ xs, x ∈ ys) : xs.length ≤ (firstOf key ys).length := by
  have hkeys : xs.map key ⊆ (firstOf key ys).map key := by
    intro k hk
    obtain ⟨x, hx, rfl⟩ := List.mem_map.1 hk
    exact (mem_keys_firstOf key).2 (List.mem_map_of_mem (hsub x hx))
  have hlength := (List.subperm_of_subset hnodup hkeys).length_le
  rwa [List.length_map, List.length_map] at hlength

end Counting

namespace CallGraph

variable {graphs : List CallGraph} {g : CallGraph} {repeats : Bool} {nodes : List Node}
  {edges : List Edge}

theorem nodeCount_eq_length (g : CallGraph) : g.nodeCount = g.nodes.toList.length :=
  Array.length_toList.symm

theorem edgeCount_eq_length (g : CallGraph) : g.edgeCount = g.edges.toList.length :=
  Array.length_toList.symm

/-- No fewer nodes than a part has. -/
theorem Collects.nodeCount_le_merge (h : Collects g repeats nodes edges) (hg : g ∈ graphs) :
    g.nodeCount ≤ (merge repeats graphs).nodeCount := by
  have hids : ((g.nodes.toList.map Node.renamed).map Node.id).Nodup := by
    have hrenamed : Node.id ∘ Node.renamed = Node.id := rfl
    rw [List.map_map, hrenamed, h.nodes_eq]
    exact nodup_keys_firstOf Node.id nodes
  have hinserted (n : Node) (hn : n ∈ g.nodes.toList.map Node.renamed) :
      n ∈ graphs.flatMap fun g => g.nodes.toList.map Node.renamed :=
    List.mem_flatMap.2 ⟨g, hg, hn⟩
  have hle := length_le_length_firstOf Node.id hids hinserted
  rw [List.length_map] at hle
  rwa [nodeCount_eq_length, nodeCount_eq_length, (collects_merge repeats graphs).nodes_eq]

/-- No more nodes than the parts have together. -/
theorem nodeCount_merge_le (repeats : Bool) (graphs : List CallGraph) :
    (merge repeats graphs).nodeCount ≤ (graphs.map nodeCount).sum := by
  rw [nodeCount_eq_length, (collects_merge repeats graphs).nodes_eq]
  refine (length_firstOf_le Node.id _).trans ?_
  rw [List.length_flatMap]
  simp only [List.length_map, Array.length_toList]
  exact Nat.le_refl _

theorem edgeCount_merge_true (graphs : List CallGraph) :
    (merge true graphs).edgeCount = (graphs.map edgeCount).sum := by
  rw [edgeCount_eq_length, merge_edges, keepEdges, if_pos rfl, List.length_flatMap]
  simp only [Array.length_toList]
  rfl

theorem edgeCount_merge_false_le (graphs : List CallGraph) :
    (merge false graphs).edgeCount ≤ (graphs.map edgeCount).sum := by
  rw [← edgeCount_merge_true, edgeCount_eq_length, edgeCount_eq_length, merge_edges, merge_edges]
  exact length_firstOf_le Edge.pair _

/-- No fewer edges than a part has that treats repeats alike. -/
theorem Collects.edgeCount_le_merge (h : Collects g repeats nodes edges) (hg : g ∈ graphs) :
    g.edgeCount ≤ (merge repeats graphs).edgeCount := by
  cases repeats with
  | true =>
    rw [edgeCount_merge_true]
    exact List.le_sum_of_mem (List.mem_map_of_mem hg)
  | false =>
    have hpairs : (g.edges.toList.map Edge.pair).Nodup := by
      rw [h.edges_eq]
      exact nodup_keys_firstOf Edge.pair edges
    have hinserted (e : Edge) (he : e ∈ g.edges.toList) :
        e ∈ graphs.flatMap fun g => g.edges.toList := List.mem_flatMap.2 ⟨g, hg, he⟩
    rw [edgeCount_eq_length, edgeCount_eq_length, merge_edges]
    exact length_le_length_firstOf Edge.pair hpairs hinserted

end CallGraph

/-! ## Tallies by kind -/

/-- A tally of what is listed, by name: it holds the kinds that occur and no other, each with the
number of times it does, and these numbers add up. -/
structure Tallies {κ : Type} [DecidableEq κ] (name : κ → String) (listed : List κ)
    (tally : Dict Nat) : Prop where
  counted : ∀ k ∈ listed, tally.get? (name k) = some (listed.count k)
  occurs : ∀ e ∈ tally.entries, ∃ k ∈ listed, e = (name k, listed.count k)
  total : (tally.entries.map Prod.snd).sum = listed.length

theorem tallies_tally {κ : Type} [DecidableEq κ] {name : κ → String}
    (hname : Function.Injective name) (listed : List κ) :
    Tallies name listed (Dict.tally (listed.map name)) where
  counted k hk := by
    rw [Dict.get?_tally, if_pos (List.mem_map_of_mem hk), List.count_map_of_injective _ _ hname]
  occurs e he := by
    have hget := Dict.get?_eq_some_iff.2 he
    rw [Dict.get?_tally] at hget
    split at hget
    next hmem =>
      obtain ⟨k, hk, hname_eq⟩ := List.mem_map.1 hmem
      refine ⟨k, hk, Prod.ext hname_eq.symm ?_⟩
      rw [← Option.some.inj hget, ← hname_eq, List.count_map_of_injective _ _ hname]
    next => cases hget
  total := by rw [Dict.sum_tally, List.length_map]

theorem NodeKind.name_injective : Function.Injective NodeKind.name := by
  intro k k' h
  cases k <;> cases k' <;> simp_all [name]

theorem EdgeKind.name_injective : Function.Injective EdgeKind.name := by
  intro k k' h
  cases k <;> cases k' <;> simp_all [name]

/-! ## The figures of a report -/

/-- The figures of a file are the number of its lines and the numbers of nodes and edges of the
graph that its text has on its own. -/
def FileSummary.Describes (c : Config) (t : FileTree) (f : SourceFile) (s : FileSummary) : Prop :=
  ∃ content source g, f.content t = .ok content ∧
    source = Text.Utf8.decode content ∧
    CallGraph.ofSource (c.optionsFor source) source = .ok g ∧
    s = ⟨f.path, (Text.lines source).length, g.nodeCount, g.edgeCount⟩

theorem FileAnalysis.Yields.describes {c : Config} {t : FileTree} {f : SourceFile}
    {a : FileAnalysis} (h : Yields c t f a) : a.summary.Describes c t f := by
  unfold Yields ofFile at h
  split at h
  next => cases h
  next content hcontent =>
    refine ⟨content, _, a.graph, hcontent, rfl, ofText_graph h, ?_⟩
    unfold ofText at h
    dsimp only at h
    split at h
    next => cases h
    next =>
      cases h
      rfl

/-- What a file that is read adds to an analysis: figures that are those of its graph, which is
built by insertions with the repeats that the analysis keeps. -/
structure FileAnalysis.Counted (repeats : Bool) (a : FileAnalysis) : Prop where
  nodes_eq : a.summary.nodes = a.graph.nodeCount
  edges_eq : a.summary.edges = a.graph.edgeCount
  collects : ∃ nodes edges, CallGraph.Collects a.graph repeats nodes edges

theorem FileAnalysis.Yields.counted {c : Config} {t : FileTree} {f : SourceFile}
    {a : FileAnalysis} (h : Yields c t f a) : a.Counted c.options.keepsRepeats := by
  obtain ⟨content, source, g, hcontent, rfl, hg, hsummary⟩ := h.describes
  obtain ⟨-, content', hcontent', hgraph⟩ := h.path_graph
  cases hcontent.symm.trans hcontent'
  cases hg.symm.trans hgraph
  have hcollects := (CallGraph.ofSource_eq_ok hgraph).2
  rw [Config.optionsFor_keepsRepeats] at hcollects
  exact ⟨by rw [hsummary], by rw [hsummary], _, _, hcollects⟩

theorem FileAnalysis.counted_of_mem {c : Config} {t : FileTree} {files : List SourceFile}
    {analyses : List FileAnalysis} (h : List.Forall₂ (Yields c t) files analyses) :
    ∀ a ∈ analyses, a.Counted c.options.keepsRepeats := by
  induction h with
  | nil => simp
  | cons hfirst _ ih => exact List.forall_mem_cons.2 ⟨hfirst.counted, ih⟩

namespace Report

/-- The figures of a report are those of its files, nodes and edges. -/
structure Figures (r : Report) : Prop where
  files : r.stats.get? "files" = some (Json.ofNat r.files.length)
  lines : r.stats.get? "lines" = some (Json.ofNat (r.files.map FileSummary.lines).sum)
  nodes : r.stats.get? "nodes" = some (Json.ofNat r.nodes.length)
  edges : r.stats.get? "edges" = some (Json.ofNat r.edges.length)
  nodeTypes : ∃ tally, r.stats.get? "node_types" = some (Json.ofDict Json.ofNat tally) ∧
    Tallies NodeKind.name (r.nodes.map Node.kind) tally
  edgeTypes : ∃ tally, r.stats.get? "edge_types" = some (Json.ofDict Json.ofNat tally) ∧
    Tallies EdgeKind.name (r.edges.map Edge.kind) tally

theorem totalLines_eq_sum (files : List FileSummary) :
    FileSummary.totalLines files = (files.map FileSummary.lines).sum := by
  rw [FileSummary.totalLines, List.sum_eq_foldl, List.foldl_map]

theorem figures_ofGraph (c : Config) (g : CallGraph) (files : List FileSummary)
    (timing : Timing) : (ofGraph c g files timing).Figures where
  files := by
    rw [ofGraph, statsOf, Dict.get?_ofList]
    rfl
  lines := by
    rw [ofGraph, statsOf, Dict.get?_ofList, totalLines_eq_sum]
    rfl
  nodes := by
    rw [ofGraph, statsOf, Dict.get?_ofList, CallGraph.nodeCount_eq_length]
    rfl
  edges := by
    rw [ofGraph, statsOf, Dict.get?_ofList, CallGraph.edgeCount_eq_length]
    rfl
  nodeTypes := by
    refine ⟨g.nodeTally, ?_, ?_⟩
    · rw [ofGraph, statsOf, Dict.get?_ofList]
      rfl
    · have htally := tallies_tally NodeKind.name_injective (g.nodes.toList.map Node.kind)
      rwa [List.map_map] at htally
  edgeTypes := by
    refine ⟨g.edgeTally, ?_, ?_⟩
    · rw [ofGraph, statsOf, Dict.get?_ofList]
      rfl
    · have htally := tallies_tally EdgeKind.name_injective (g.edges.toList.map Edge.kind)
      rwa [List.map_map] at htally

/-- The nodes and edges of a report account for those of its files, where repeated edges are kept
or dropped. -/
structure Accounts (r : Report) (repeats : Bool) : Prop where
  nodes_le : r.nodes.length ≤ (r.files.map FileSummary.nodes).sum
  le_nodes : ∀ f ∈ r.files, f.nodes ≤ r.nodes.length
  le_edges : ∀ f ∈ r.files, f.edges ≤ r.edges.length
  edges_eq : repeats = true → r.edges.length = (r.files.map FileSummary.edges).sum
  edges_le : repeats = false → r.edges.length ≤ (r.files.map FileSummary.edges).sum

theorem accounts_merge {c : Config} {analyses : List FileAnalysis}
    (h : ∀ a ∈ analyses, a.Counted c.options.keepsRepeats) (timing : Timing) :
    ((Analysis.merge c analyses).report c timing).Accounts c.options.keepsRepeats := by
  have hnodes : (analyses.map (·.summary)).map FileSummary.nodes =
      (analyses.map (·.graph)).map CallGraph.nodeCount := by
    rw [List.map_map, List.map_map]
    exact List.map_congr_left fun a ha => (h a ha).nodes_eq
  have hedges : (analyses.map (·.summary)).map FileSummary.edges =
      (analyses.map (·.graph)).map CallGraph.edgeCount := by
    rw [List.map_map, List.map_map]
    exact List.map_congr_left fun a ha => (h a ha).edges_eq
  simp only [Analysis.report, ofGraph, Analysis.merge]
  constructor <;> dsimp only
  · rw [hnodes, ← CallGraph.nodeCount_eq_length]
    exact CallGraph.nodeCount_merge_le _ _
  · intro f hf
    obtain ⟨a, ha, rfl⟩ := List.mem_map.1 hf
    obtain ⟨nodes, edges, hcollects⟩ := (h a ha).collects
    rw [(h a ha).nodes_eq, ← CallGraph.nodeCount_eq_length]
    exact hcollects.nodeCount_le_merge (List.mem_map_of_mem ha)
  · intro f hf
    obtain ⟨a, ha, rfl⟩ := List.mem_map.1 hf
    obtain ⟨nodes, edges, hcollects⟩ := (h a ha).collects
    rw [(h a ha).edges_eq, ← CallGraph.edgeCount_eq_length]
    exact hcollects.edgeCount_le_merge (List.mem_map_of_mem ha)
  · intro hrepeats
    rw [hedges, ← CallGraph.edgeCount_eq_length, hrepeats]
    exact CallGraph.edgeCount_merge_true _
  · intro hrepeats
    rw [hedges, ← CallGraph.edgeCount_eq_length, hrepeats]
    exact CallGraph.edgeCount_merge_false_le _

end Report

namespace Analysis

/-- **The figures of a report account for its graph.** The report on an analysis that succeeds
lists the files that were found, each with the figures of its own graph; its figures are those of
what it lists, with tallies that hold the kinds that occur and no other; its graph has no more
nodes than its files together and no fewer than each of them, and no fewer edges than each of
them: all their edges where repeats are kept, and no more than those where they are dropped. -/
theorem report_accounts_for_graph {c : Config} {t : FileTree} {a : Analysis}
    (h : (run c t).outcome = .ok a) (timing : Timing) :
    (∃ found, (discover c t).value = .ok found ∧
      List.Forall₂ (FileSummary.Describes c t) found (a.report c timing).files) ∧
    (a.report c timing).Figures ∧
    (a.report c timing).Accounts c.options.keepsRepeats := by
  obtain ⟨found, analyses, hfound, -, hparsed, rfl⟩ := run_eq_ok_iff.1 h
  have hread := FileAnalysis.ofFiles_eq_ok_iff.1 hparsed
  refine ⟨⟨found, hfound, ?_⟩, Report.figures_ofGraph .., ?_⟩
  · exact List.forall₂_map_right_iff.2 (hread.imp fun _ _ hyields => hyields.describes)
  · exact Report.accounts_merge (FileAnalysis.counted_of_mem hread) timing

/-- Two files of one text. -/
def twinTree : FileTree :=
  ((⟨∅, []⟩ : FileTree).put ["A"] (.file callingSource.toUTF8)).put ["B"]
    (.file callingSource.toUTF8)

theorem addressable_twinTree : twinTree.Addressable :=
  .put (.put (FileTree.throughout_empty FileTree.accepted_root []) (by simp) (by decide) _)
    (by simp) (by decide) _

theorem discover_twinTree (c : Config) :
    (discover { c with inputs := ["A", "B"] } twinTree).value =
      .ok [⟨"A", ["A"], none⟩, ⟨"B", ["B"], none⟩] := by
  have hname : FileTree.PlainName "B" := by constructor <;> decide
  have hitemA : twinTree.item? ["A"] = some (.file callingSource.toUTF8) := rfl
  have hitemB : twinTree.item? ["B"] = some (.file callingSource.toUTF8) := rfl
  have hplaceA := FileTree.resolve_file FileTree.plainName_A rfl hitemA
  have hplaceB := FileTree.resolve_file hname rfl hitemB
  have hinputA : Discovery.ofInput c twinTree "A" = .ok [.ok ⟨"A", ["A"], none⟩] := by
    rw [Discovery.ofInput_of_resolve c hplaceA hitemA,
      SourceFile.reached_of_resolve addressable_twinTree hplaceA]
    rfl
  have hinputB : Discovery.ofInput c twinTree "B" = .ok [.ok ⟨"B", ["B"], none⟩] := by
    rw [Discovery.ofInput_of_resolve c hplaceB hitemB,
      SourceFile.reached_of_resolve addressable_twinTree hplaceB]
    rfl
  refine discover_eq_ok_iff.2 ⟨[⟨"A", ["A"], none⟩, ⟨"B", ["B"], none⟩], ?_, rfl⟩
  rw [Discovery.ofInputs, hinputA, Discovery.ofInputs, hinputB]
  rfl

/-- Of the two nodes of each file the report lists no more than four, and both edges. -/
theorem report_accounts_for_twins :
    ∃ a r, (run { inputs := ["A", "B"] } twinTree).outcome = .ok a ∧
      r = a.report { inputs := ["A", "B"] } ⟨"", 0, ∅⟩ ∧
      r.files = [⟨"A", 4, 2, 1⟩, ⟨"B", 4, 2, 1⟩] ∧ r.Figures ∧
      2 ≤ r.nodes.length ∧ r.nodes.length ≤ 4 ∧ r.edges.length = 2 := by
  have hsummaries : (FileAnalysis.ofFiles {} twinTree
      [⟨"A", ["A"], none⟩, ⟨"B", ["B"], none⟩]).value.toOption.map (List.map (·.summary)) =
        some [⟨"A", 4, 2, 1⟩, ⟨"B", 4, 2, 1⟩] := by decide +kernel
  cases hparsed : (FileAnalysis.ofFiles {} twinTree
      [⟨"A", ["A"], none⟩, ⟨"B", ["B"], none⟩]).value with
  | error e =>
    rw [hparsed] at hsummaries
    cases hsummaries
  | ok analyses =>
    rw [hparsed] at hsummaries
    have hfiles : ((merge {} analyses).report { inputs := ["A", "B"] } ⟨"", 0, ∅⟩).files =
        [⟨"A", 4, 2, 1⟩, ⟨"B", 4, 2, 1⟩] := Option.some.inj hsummaries
    have hrun : (run { inputs := ["A", "B"] } twinTree).outcome = .ok (merge {} analyses) :=
      run_with_inputs_eq_ok_iff.2 ⟨_, analyses, discover_twinTree {}, by simp,
        FileAnalysis.ofFiles_eq_ok_iff.1 hparsed, rfl⟩
    obtain ⟨-, hfigures, haccounts⟩ := report_accounts_for_graph hrun ⟨"", 0, ∅⟩
    have hle := haccounts.nodes_le
    have hge := haccounts.le_nodes
    rw [hfiles] at hle hge
    have hedges := haccounts.edges_eq rfl
    rw [hfiles] at hedges
    exact ⟨_, _, hrun, rfl, hfiles, hfigures, hge _ List.mem_cons_self, hle, hedges⟩

end Analysis
end CobolCalls
