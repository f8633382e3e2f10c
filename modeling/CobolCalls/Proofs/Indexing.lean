import CobolCalls.Proofs.Merging
import Mathlib.Data.List.Nodup
import Mathlib.Logic.Relation

/-
  The two indexes of a call graph agree with its two lists, whatever was done to it.

  Graphs are made empty or by merging others, and change by insertions. A workspace holds all
  graphs made so far, each at its own position, and `Step` is one of these operations in it. A
  merged graph is a run of insertions too, so what an insertion keeps is kept by every operation,
  and it holds of every graph in every workspace that can be reached (`WellFormed`).

  An insertion puts at most one element at the end of a list and says whether it did. So along
  every run the elements that a graph has stay where they are (`Extends`).
-/

namespace CobolCalls.CallGraph

/-! ## The invariant -/

/-- No id and, where repeats are dropped, no pair comes twice; nodes are named by their ids; and
the indexes say what the lists hold. -/
structure WellFormed (g : CallGraph) : Prop where
  ids_nodup : (g.nodes.toList.map Node.id).Nodup
  positions_iff : ∀ (id : String) (i : Nat),
    g.positions[id]? = some i ↔ ∃ n, g.nodes[i]? = some n ∧ n.id = id
  named : ∀ n ∈ g.nodes, n.name = n.id
  targets_iff : ∀ source target : String,
    target ∈ g.targets.getD source [] ↔ (source, target) ∈ g.edges.toList.map Edge.pair
  pairs_nodup : g.keepsRepeats = false → (g.edges.toList.map Edge.pair).Nodup

theorem wellFormed_empty (repeats : Bool) : WellFormed (empty repeats) where
  ids_nodup := List.nodup_nil
  positions_iff id i := by simp [empty]
  named n hn := by simp [empty] at hn
  targets_iff source target := by simp [empty]
  pairs_nodup _ := List.nodup_nil

namespace WellFormed

variable {g : CallGraph}

theorem hasNode_iff (h : WellFormed g) (id : String) :
    g.hasNode id = true ↔ id ∈ g.nodes.toList.map Node.id := by
  unfold hasNode
  rw [Std.TreeMap.contains_eq_isSome_getElem?, Option.isSome_iff_exists]
  simp only [h.positions_iff]
  constructor
  · rintro ⟨i, n, hn, rfl⟩
    exact List.mem_map_of_mem (Array.mem_toList_iff.2 (Array.mem_of_getElem? hn))
  · intro hid
    obtain ⟨n, hn, rfl⟩ := List.mem_map.1 hid
    obtain ⟨i, hi⟩ := Array.mem_iff_getElem?.1 (Array.mem_toList_iff.1 hn)
    exact ⟨i, n, hi, rfl⟩

theorem hasEdge_iff (h : WellFormed g) (source target : String) :
    g.hasEdge source target = true ↔ (source, target) ∈ g.edges.toList.map Edge.pair := by
  unfold hasEdge
  rw [List.contains_iff_mem, h.targets_iff]

end WellFormed

/-! ## One insertion -/

theorem addNode_of_taken {g : CallGraph} {id : String} (h : g.hasNode id = true) (kind : NodeKind)
    (data : NodeData) : g.addNode id kind data = (false, g) := by
  unfold addNode
  rw [if_pos h]

theorem addNode_of_free {g : CallGraph} {id : String} (h : g.hasNode id = false) (kind : NodeKind)
    (data : NodeData) :
    g.addNode id kind data = (true, { g with
      nodes := g.nodes.push ⟨id, id, kind, data⟩
      positions := g.positions.insert id g.nodes.size }) := by
  unfold addNode
  rw [h, if_neg Bool.false_ne_true]

theorem addEdge_of_dropped {g : CallGraph} {source target : String}
    (h : g.hasEdge source target = true) (hdrops : g.keepsRepeats = false) (kind : EdgeKind) :
    g.addEdge source target kind = (false, g) := by
  unfold addEdge
  rw [if_pos h, hdrops, if_neg Bool.false_ne_true]

theorem addEdge_of_kept {g : CallGraph} {source target : String}
    (h : g.hasEdge source target = true) (hkeeps : g.keepsRepeats = true) (kind : EdgeKind) :
    g.addEdge source target kind =
      (true, { g with edges := g.edges.push ⟨source, target, kind⟩ }) := by
  unfold addEdge
  rw [if_pos h, if_pos hkeeps]

theorem addEdge_of_apart {g : CallGraph} {source target : String}
    (h : g.hasEdge source target = false) (kind : EdgeKind) :
    g.addEdge source target kind = (true, { g with
      edges := g.edges.push ⟨source, target, kind⟩
      targets := g.targets.insert source (target :: g.targets.getD source []) }) := by
  unfold addEdge
  rw [h, if_neg Bool.false_ne_true]

namespace WellFormed

variable {g : CallGraph}

/-- A free id takes the next position, which no other id has. -/
theorem addNode (h : WellFormed g) (id : String) (kind : NodeKind) (data : NodeData) :
    WellFormed (g.addNode id kind data).2 := by
  cases hid : g.hasNode id with
  | true =>
    rw [addNode_of_taken hid]
    exact h
  | false =>
    have hfree : id ∉ g.nodes.toList.map Node.id := by
      rw [← h.hasNode_iff, hid]
      exact Bool.false_ne_true
    rw [addNode_of_free hid]
    refine ⟨?_, ?_, ?_, h.targets_iff, h.pairs_nodup⟩
    · rw [Array.toList_push, List.map_append, List.map_singleton, ← List.concat_eq_append]
      exact List.Nodup.concat hfree h.ids_nodup
    · intro other i
      have hother := h.positions_iff other i
      dsimp only
      rw [Std.TreeMap.getElem?_insert, Array.getElem?_push]
      by_cases hsame : id = other
      · subst hsame
        rw [if_pos (Std.ReflOrd.compare_self), Option.some.injEq]
        by_cases hi : i = g.nodes.size
        · simp [hi]
        · rw [if_neg hi, ← hother]
          constructor
          · intro hsize
            exact absurd hsize.symm hi
          · intro hold
            obtain ⟨n, hn, hnid⟩ := hother.1 hold
            refine absurd ?_ hfree
            rw [← hnid]
            exact List.mem_map_of_mem (Array.mem_toList_iff.2 (Array.mem_of_getElem? hn))
      · have hcompare : compare id other ≠ .eq := by
          rw [ne_eq, Std.LawfulEqCmp.compare_eq_iff_eq]
          exact hsame
        rw [if_neg hcompare, hother]
        by_cases hi : i = g.nodes.size
        · subst hi
          simp [hsame]
        · rw [if_neg hi]
    · intro n hn
      rcases Array.mem_push.1 hn with hn | rfl
      · exact h.named n hn
      · rfl

theorem addEdge (h : WellFormed g) (source target : String) (kind : EdgeKind) :
    WellFormed (g.addEdge source target kind).2 := by
  have hpair : (⟨source, target, kind⟩ : Edge).pair = (source, target) := rfl
  cases hjoined : g.hasEdge source target with
  | true =>
    have hmem := (h.hasEdge_iff source target).1 hjoined
    cases hrepeats : g.keepsRepeats with
    | false =>
      rw [addEdge_of_dropped hjoined hrepeats]
      exact h
    | true =>
      rw [addEdge_of_kept hjoined hrepeats]
      refine ⟨h.ids_nodup, h.positions_iff, h.named, ?_, ?_⟩
      · intro s t
        dsimp only
        rw [h.targets_iff, Array.toList_push, List.map_append, List.map_singleton, hpair,
          List.mem_append, List.mem_singleton]
        constructor
        · exact .inl
        · rintro (hst | hst)
          · exact hst
          · exact hst ▸ hmem
      · intro hdrops
        rw [hrepeats] at hdrops
        cases hdrops
  | false =>
    have hnew : (source, target) ∉ g.edges.toList.map Edge.pair := by
      rw [← h.hasEdge_iff, hjoined]
      exact Bool.false_ne_true
    rw [addEdge_of_apart hjoined]
    refine ⟨h.ids_nodup, h.positions_iff, h.named, ?_, ?_⟩
    · intro s t
      dsimp only
      rw [Std.TreeMap.getD_insert, Array.toList_push, List.map_append, List.map_singleton, hpair,
        List.mem_append, List.mem_singleton, Prod.mk.injEq, ← h.targets_iff]
      by_cases hs : source = s
      · subst hs
        simp [or_comm]
      · have hcompare : compare source s ≠ .eq := by
          rw [ne_eq, Std.LawfulEqCmp.compare_eq_iff_eq]
          exact hs
        simp [hcompare, Ne.symm hs]
    · intro hdrops
      rw [Array.toList_push, List.map_append, List.map_singleton, hpair, ← List.concat_eq_append]
      exact List.Nodup.concat hnew (h.pairs_nodup hdrops)

end WellFormed

theorem Built.wellFormed {repeats : Bool} {g : CallGraph} (h : Built repeats g) : WellFormed g := by
  induction h with
  | empty => exact wellFormed_empty repeats
  | addNode id kind data _ ih => exact ih.addNode id kind data
  | addEdge source target kind _ ih => exact ih.addEdge source target kind

/-! ## What queries and insertions answer -/

/-- The answer is true if the element was put at the end, and false if nothing changed. -/
def Reports {α : Type} (added : Bool) (before after : Array α) (a : α) : Prop :=
  (added = true ↔ after = before.push a) ∧ (added = false ↔ after = before)

theorem reports_push {α : Type} (before : Array α) (a : α) :
    Reports true before (before.push a) a := by
  have hne : before.push a ≠ before := Array.push_ne_self
  simp [Reports, hne]

theorem reports_unchanged {α : Type} (before : Array α) (a : α) :
    Reports false before before a := by
  have hne : before ≠ before.push a := Array.push_ne_self.symm
  simp [Reports, hne]

/-- Every id in the index leads to its node, and insertions tell what they did. -/
structure Answers (g : CallGraph) : Prop where
  position_lt : ∀ (id : String) (i : Nat), g.positions[id]? = some i → i < g.nodes.size
  node?_iff : ∀ (id : String) (n : Node), g.node? id = some n ↔ n ∈ g.nodes ∧ n.id = id
  addNode_nodes : ∀ (id : String) (kind : NodeKind) (data : NodeData),
    Reports (g.addNode id kind data).1 g.nodes (g.addNode id kind data).2.nodes ⟨id, id, kind, data⟩
  addNode_edges : ∀ (id : String) (kind : NodeKind) (data : NodeData),
    (g.addNode id kind data).2.edges = g.edges
  addNode_iff : ∀ (id : String) (kind : NodeKind) (data : NodeData),
    (g.addNode id kind data).1 = true ↔ ∀ n ∈ g.nodes, n.id ≠ id
  addEdge_edges : ∀ (source target : String) (kind : EdgeKind),
    Reports (g.addEdge source target kind).1 g.edges (g.addEdge source target kind).2.edges
      ⟨source, target, kind⟩
  addEdge_nodes : ∀ (source target : String) (kind : EdgeKind),
    (g.addEdge source target kind).2.nodes = g.nodes
  addEdge_iff : ∀ (source target : String) (kind : EdgeKind),
    (g.addEdge source target kind).1 = true ↔
      g.keepsRepeats = true ∨ ∀ e ∈ g.edges, e.pair ≠ (source, target)

theorem WellFormed.node?_eq_some_iff {g : CallGraph} (h : WellFormed g) (id : String) (n : Node) :
    g.node? id = some n ↔ n ∈ g.nodes ∧ n.id = id := by
  unfold node?
  rw [Option.bind_eq_bind, Option.bind_eq_some_iff]
  constructor
  · rintro ⟨i, hi, hn⟩
    obtain ⟨m, hm, hid⟩ := (h.positions_iff id i).1 hi
    obtain rfl : m = n := Option.some.inj (hm.symm.trans hn)
    exact ⟨Array.mem_of_getElem? hn, hid⟩
  · rintro ⟨hn, hid⟩
    obtain ⟨i, hi⟩ := Array.mem_iff_getElem?.1 hn
    exact ⟨i, (h.positions_iff id i).2 ⟨n, hi, hid⟩, hi⟩

theorem WellFormed.answers {g : CallGraph} (h : WellFormed g) : Answers g where
  position_lt id i hi := by
    obtain ⟨n, hn, -⟩ := (h.positions_iff id i).1 hi
    exact (Array.getElem?_eq_some_iff.1 hn).1
  node?_iff := h.node?_eq_some_iff
  addNode_nodes id kind data := by
    cases hid : g.hasNode id with
    | true =>
      rw [addNode_of_taken hid]
      exact reports_unchanged _ _
    | false =>
      rw [addNode_of_free hid]
      exact reports_push _ _
  addNode_edges id kind data := by
    cases hid : g.hasNode id with
    | true => rw [addNode_of_taken hid]
    | false => rw [addNode_of_free hid]
  addNode_iff id kind data := by
    have htaken := h.hasNode_iff id
    cases hid : g.hasNode id with
    | true => rw [addNode_of_taken hid]; grind
    | false => rw [addNode_of_free hid]; grind
  addEdge_edges source target kind := by
    cases hjoined : g.hasEdge source target with
    | true =>
      cases hrepeats : g.keepsRepeats with
      | true =>
        rw [addEdge_of_kept hjoined hrepeats]
        exact reports_push _ _
      | false =>
        rw [addEdge_of_dropped hjoined hrepeats]
        exact reports_unchanged _ _
    | false =>
      rw [addEdge_of_apart hjoined]
      exact reports_push _ _
  addEdge_nodes source target kind := by
    unfold CallGraph.addEdge
    split
    · split <;> rfl
    · rfl
  addEdge_iff source target kind := by
    have hpair := h.hasEdge_iff source target
    cases hjoined : g.hasEdge source target with
    | true =>
      cases hrepeats : g.keepsRepeats with
      | true => rw [addEdge_of_kept hjoined hrepeats]; simp
      | false => rw [addEdge_of_dropped hjoined hrepeats]; grind
    | false => rw [addEdge_of_apart hjoined]; grind

/-! ## Merging is inserting -/

theorem Built.foldl_addNode {repeats : Bool} {g : CallGraph} (h : Built repeats g)
    (nodes : List Node) :
    Built repeats (nodes.foldl (fun g n => (g.addNode n.id n.kind n.data).2) g) := by
  induction nodes generalizing g with
  | nil => exact h
  | cons n rest ih => exact ih (h.addNode n.id n.kind n.data)

theorem Built.foldl_addEdge {repeats : Bool} {g : CallGraph} (h : Built repeats g)
    (edges : List Edge) :
    Built repeats (edges.foldl (fun g e => (g.addEdge e.source e.target e.kind).2) g) := by
  induction edges generalizing g with
  | nil => exact h
  | cons e rest ih => exact ih (h.addEdge e.source e.target e.kind)

theorem Built.absorb {repeats : Bool} {g : CallGraph} (h : Built repeats g) (other : CallGraph) :
    Built repeats (g.absorb other) := by
  unfold CallGraph.absorb
  rw [← Array.foldl_toList, ← Array.foldl_toList]
  exact (h.foldl_addNode other.nodes.toList).foldl_addEdge other.edges.toList

theorem built_merge (repeats : Bool) (graphs : List CallGraph) :
    Built repeats (merge repeats graphs) := by
  have run {g : CallGraph} (h : Built repeats g) : Built repeats (graphs.foldl absorb g) := by
    induction graphs generalizing g with
    | nil => exact h
    | cons other rest ih => exact ih (h.absorb other)
  exact run .empty

/-! ## Elements that stay -/

/-- What the first graph holds stands at the same positions in the second. -/
structure Extends (g g' : CallGraph) : Prop where
  nodes : g.nodes.toList <+: g'.nodes.toList
  edges : g.edges.toList <+: g'.edges.toList

theorem Extends.refl (g : CallGraph) : Extends g g := ⟨List.prefix_rfl, List.prefix_rfl⟩

theorem Extends.trans {g g' g'' : CallGraph} (h : Extends g g') (h' : Extends g' g'') :
    Extends g g'' :=
  ⟨h.nodes.trans h'.nodes, h.edges.trans h'.edges⟩

theorem Reports.keeps {α : Type} {added : Bool} {before after : Array α} {a : α}
    (h : Reports added before after a) : before.toList <+: after.toList := by
  cases added with
  | true =>
    rw [h.1.1 rfl, Array.toList_push]
    exact List.prefix_append _ _
  | false => rw [h.2.1 rfl]

theorem Answers.extends_addNode {g : CallGraph} (h : Answers g) (id : String) (kind : NodeKind)
    (data : NodeData) : Extends g (g.addNode id kind data).2 where
  nodes := (h.addNode_nodes id kind data).keeps
  edges := by rw [h.addNode_edges]

theorem Answers.extends_addEdge {g : CallGraph} (h : Answers g) (source target : String)
    (kind : EdgeKind) : Extends g (g.addEdge source target kind).2 where
  nodes := by rw [h.addEdge_nodes]
  edges := (h.addEdge_edges source target kind).keeps

/-! ## Workspaces -/

/-- One operation in a workspace: a graph is made and put behind the others, or it takes an
insertion where it stands. Any of the graphs, also one and the same several times, are merged. -/
inductive Step : List CallGraph → List CallGraph → Prop where
  | new {graphs : List CallGraph} (repeats : Bool) :
    Step graphs (graphs ++ [CallGraph.empty repeats])
  | addNode {graphs : List CallGraph} {i : Nat} {g : CallGraph} (id : String) (kind : NodeKind)
      (data : NodeData) :
    graphs[i]? = some g → Step graphs (graphs.set i (g.addNode id kind data).2)
  | addEdge {graphs : List CallGraph} {i : Nat} {g : CallGraph} (source target : String)
      (kind : EdgeKind) : graphs[i]? = some g →
      Step graphs (graphs.set i (g.addEdge source target kind).2)
  | merge {graphs parts : List CallGraph} (repeats : Bool) : (∀ g ∈ parts, g ∈ graphs) →
      Step graphs (graphs ++ [CallGraph.merge repeats parts])

/-- Any number of operations. -/
def Runs : List CallGraph → List CallGraph → Prop := Relation.ReflTransGen Step

/-- Every graph is what insertions made of an empty one. -/
def AllBuilt (graphs : List CallGraph) : Prop := ∀ g ∈ graphs, ∃ repeats, Built repeats g

theorem AllBuilt.concat {graphs : List CallGraph} (h : AllBuilt graphs) {repeats : Bool}
    {g : CallGraph} (hg : Built repeats g) : AllBuilt (graphs ++ [g]) := by
  intro other hother
  rcases List.mem_append.1 hother with hother | hother
  · exact h other hother
  · rw [List.mem_singleton.1 hother]
    exact ⟨repeats, hg⟩

theorem AllBuilt.set {graphs : List CallGraph} (h : AllBuilt graphs) (i : Nat) {repeats : Bool}
    {g : CallGraph} (hg : Built repeats g) : AllBuilt (graphs.set i g) := by
  intro other hother
  rcases List.mem_or_eq_of_mem_set hother with hother | rfl
  · exact h other hother
  · exact ⟨repeats, hg⟩

namespace Step

variable {graphs graphs' : List CallGraph}

theorem allBuilt (h : Step graphs graphs') (hbuilt : AllBuilt graphs) : AllBuilt graphs' := by
  cases h with
  | new repeats => exact hbuilt.concat .empty
  | addNode id kind data hg =>
    obtain ⟨repeats, hg⟩ := hbuilt _ (List.mem_of_getElem? hg)
    exact hbuilt.set _ (hg.addNode id kind data)
  | addEdge source target kind hg =>
    obtain ⟨repeats, hg⟩ := hbuilt _ (List.mem_of_getElem? hg)
    exact hbuilt.set _ (hg.addEdge source target kind)
  | merge repeats _ => exact hbuilt.concat (built_merge repeats _)

/-- No operation moves a graph, or an element of one. -/
theorem exists_extends (h : Step graphs graphs') (hbuilt : AllBuilt graphs) {i : Nat}
    {g : CallGraph} (hg : graphs[i]? = some g) : ∃ g', graphs'[i]? = some g' ∧ Extends g g' := by
  have hwell : WellFormed g := by
    obtain ⟨repeats, hg⟩ := hbuilt g (List.mem_of_getElem? hg)
    exact hg.wellFormed
  have hkept (made : CallGraph) : ∃ g', (graphs ++ [made])[i]? = some g' ∧ Extends g g' := by
    refine ⟨g, ?_, .refl g⟩
    rw [List.getElem?_append_left (List.getElem?_eq_some_iff.1 hg).1]
    exact hg
  -- an insertion elsewhere leaves the graph alone
  have hset {j : Nat} {old new : CallGraph} (hold : graphs[j]? = some old)
      (hnew : j = i → Extends old new) :
      ∃ g', (graphs.set j new)[i]? = some g' ∧ Extends g g' := by
    by_cases hij : j = i
    · subst hij
      obtain rfl : old = g := Option.some.inj (hold.symm.trans hg)
      refine ⟨new, ?_, hnew rfl⟩
      rw [List.getElem?_set_self (List.getElem?_eq_some_iff.1 hg).1]
    · refine ⟨g, ?_, .refl g⟩
      rw [List.getElem?_set_ne hij]
      exact hg
  cases h with
  | new repeats => exact hkept _
  | merge repeats _ => exact hkept _
  | addNode id kind data hold =>
    refine hset hold fun hij => ?_
    obtain rfl := Option.some.inj (hold.symm.trans (hij ▸ hg))
    exact hwell.answers.extends_addNode id kind data
  | addEdge source target kind hold =>
    refine hset hold fun hij => ?_
    obtain rfl := Option.some.inj (hold.symm.trans (hij ▸ hg))
    exact hwell.answers.extends_addEdge source target kind

end Step

namespace Runs

variable {graphs graphs' : List CallGraph}

theorem allBuilt (h : Runs graphs graphs') (hbuilt : AllBuilt graphs) : AllBuilt graphs' := by
  induction h with
  | refl => exact hbuilt
  | tail _ hstep ih => exact hstep.allBuilt ih

theorem exists_extends (h : Runs graphs graphs') (hbuilt : AllBuilt graphs) {i : Nat}
    {g : CallGraph} (hg : graphs[i]? = some g) : ∃ g', graphs'[i]? = some g' ∧ Extends g g' := by
  induction h with
  | refl => exact ⟨g, hg, .refl g⟩
  | tail hrun hstep ih =>
    obtain ⟨middle, hmiddle, hfirst⟩ := ih
    obtain ⟨last, hlast, hsecond⟩ := hstep.exists_extends (allBuilt hrun hbuilt) hmiddle
    exact ⟨last, hlast, hfirst.trans hsecond⟩

end Runs

/-- **Indexes and lists agree along every run.** In every workspace that operations make of an
empty one, every graph is well formed: its ids come once, its indexes hold exactly the positions
of the ids and the pairs of the edges, its nodes are named by their ids, and pairs come once where
repeats are dropped. So an id leads to its node, and an insertion tells whether it put its element
at the end or left all as it was. Whatever is done next, the graph stays at its place in the
workspace, and its nodes and edges at theirs in the graph. -/
theorem indexes_agree_along_runs {graphs : List CallGraph} (h : Runs [] graphs) :
    (∀ g ∈ graphs, WellFormed g ∧ Answers g) ∧
      ∀ later, Runs graphs later → ∀ (i : Nat) (g : CallGraph), graphs[i]? = some g →
        ∃ g', later[i]? = some g' ∧ Extends g g' := by
  have hbuilt : AllBuilt graphs := Runs.allBuilt h fun g hg => absurd hg List.not_mem_nil
  constructor
  · intro g hg
    obtain ⟨repeats, hg⟩ := hbuilt g hg
    exact ⟨hg.wellFormed, hg.wellFormed.answers⟩
  · intro later hlater i g hg
    exact Runs.exists_extends hlater hbuilt hg

/-- A pair joined once, in a graph that drops repeats. -/
def joinedGraph : CallGraph :=
  (((empty false).addNode "X" .procedure {}).2.addEdge "X" "Y" .perform).2

/-- The graph, and what it becomes when it is merged with itself. -/
def doubledGraphs : List CallGraph := [joinedGraph, merge true [joinedGraph, joinedGraph]]

theorem runs_doubledGraphs : Runs [] doubledGraphs := by
  have hnew : Runs [] [empty false] := .single (.new false)
  have hnode : Step [empty false] [((empty false).addNode "X" .procedure {}).2] :=
    .addNode (i := 0) "X" .procedure {} rfl
  have hedge : Step [((empty false).addNode "X" .procedure {}).2] [joinedGraph] :=
    .addEdge (i := 0) "X" "Y" .perform rfl
  have hmerge : Step [joinedGraph] doubledGraphs :=
    .merge true fun g hg => by simpa using hg
  exact ((hnew.tail hnode).tail hedge).tail hmerge

/-- The pair is joined twice in the merged graph; joining it again changes nothing in the first. -/
theorem indexes_agree_doubled :
    Runs [] doubledGraphs ∧ (∀ g ∈ doubledGraphs, WellFormed g ∧ Answers g) ∧
      (merge true [joinedGraph, joinedGraph]).edges.size = 2 ∧
      ∃ g', (doubledGraphs.set 0 (joinedGraph.addEdge "X" "Y" .call).2)[0]? = some g' ∧
        Extends joinedGraph g' := by
  have hlater : Runs doubledGraphs (doubledGraphs.set 0 (joinedGraph.addEdge "X" "Y" .call).2) :=
    .single (.addEdge "X" "Y" .call rfl)
  obtain ⟨hall, hstay⟩ := indexes_agree_along_runs runs_doubledGraphs
  exact ⟨runs_doubledGraphs, hall, by decide +kernel, hstay _ hlater 0 joinedGraph rfl⟩

end CobolCalls.CallGraph
