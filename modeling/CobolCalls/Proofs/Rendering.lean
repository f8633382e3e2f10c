import CobolCalls.Proofs.Commands
import CobolCalls.Proofs.DotDecoding
import CobolCalls.Proofs.Failing
import CobolCalls.Proofs.Namespacing

/-
  Which graphs can be drawn. A drawing fails exactly on a graph with a dynamic node, and names the
  first of them. No statement of a source is the mention of a dynamic node, and merging brings no
  node that its parts do not have. So the graphs of sources, and whatever they are merged into, can
  be drawn, and a command never fails because its graph cannot be.
-/

namespace CobolCalls

/-! ## What a drawing fails on -/

/-- A traversal fails with the first element that does. -/
theorem mapM_eq_error_iff {α β ε : Type} {f : α → Except ε β} {xs : List α} {e : ε} :
    xs.mapM f = .error e ↔ ∃ before x after, xs = before ++ x :: after ∧
      (∀ y ∈ before, ∃ b, f y = .ok b) ∧ f x = .error e := by
  induction xs with
  | nil => simp [pure, Except.pure]
  | cons a rest ih =>
    rw [List.mapM_cons]
    constructor
    · intro h
      cases ha : f a with
      | error e' =>
        rw [ha] at h
        cases h
        exact ⟨[], a, rest, rfl, by simp, ha⟩
      | ok b =>
        rw [ha] at h
        cases hrest : rest.mapM f with
        | ok bs =>
          rw [hrest] at h
          cases h
        | error e' =>
          rw [hrest] at h
          cases h
          obtain ⟨before, x, after, rfl, hbefore, hx⟩ := ih.1 hrest
          refine ⟨a :: before, x, after, rfl, ?_, hx⟩
          rw [List.forall_mem_cons]
          exact ⟨⟨b, ha⟩, hbefore⟩
    · rintro ⟨before, x, after, heq, hbefore, hx⟩
      cases before with
      | nil =>
        cases heq
        rw [hx]
        rfl
      | cons y before =>
        cases heq
        obtain ⟨⟨b, ha⟩, hbefore⟩ := List.forall_mem_cons.1 hbefore
        rw [ha, ih.2 ⟨before, x, after, rfl, hbefore, hx⟩]
        rfl

namespace CallGraph

theorem Dot.nodeLine_eq_error_iff {n : Node} {e : RenderError} :
    Dot.nodeLine n = .error e ↔ n.kind = .dynamic ∧ e = .unstyledNode n.id .dynamic := by
  unfold Dot.nodeLine
  cases hn : n.kind <;> simp [NodeKind.colour?, eq_comm]

theorem Dot.exists_nodeLine_eq_ok_iff {n : Node} :
    (∃ line, Dot.nodeLine n = .ok line) ↔ n.kind ≠ .dynamic := by
  unfold Dot.nodeLine
  cases hn : n.kind <;> simp [NodeKind.colour?]

/-- The first dynamic node of a list. -/
def FirstDynamic (nodes : List Node) (n : Node) : Prop :=
  ∃ before after, nodes = before ++ n :: after ∧ (∀ m ∈ before, m.kind ≠ .dynamic) ∧
    n.kind = .dynamic

/-- No node stands in the way of a drawing. -/
def Drawable (g : CallGraph) : Prop := ∀ n ∈ g.nodes, n.kind ≠ .dynamic

theorem dot_eq_error_iff {g : CallGraph} {e : RenderError} :
    g.dot = .error e ↔
      ∃ n, FirstDynamic g.nodes.toList n ∧ e = .unstyledNode n.id .dynamic := by
  have hdot : g.dot = .error e ↔ g.nodes.toList.mapM Dot.nodeLine = .error e := by
    unfold dot
    cases g.nodes.toList.mapM Dot.nodeLine with
    | error e' => simp [bind, Except.bind]
    | ok lines => simp [bind, Except.bind, pure, Except.pure]
  rw [hdot, mapM_eq_error_iff]
  constructor
  · rintro ⟨before, n, after, hnodes, hbefore, hn⟩
    obtain ⟨hdynamic, he⟩ := Dot.nodeLine_eq_error_iff.1 hn
    exact ⟨n, ⟨before, after, hnodes,
      fun m hm => Dot.exists_nodeLine_eq_ok_iff.1 (hbefore m hm), hdynamic⟩, he⟩
  · rintro ⟨n, ⟨before, after, hnodes, hbefore, hdynamic⟩, he⟩
    exact ⟨before, n, after, hnodes,
      fun m hm => Dot.exists_nodeLine_eq_ok_iff.2 (hbefore m hm),
      Dot.nodeLine_eq_error_iff.2 ⟨hdynamic, he⟩⟩

theorem exists_firstDynamic {nodes : List Node} {n : Node} (hn : n ∈ nodes)
    (hdynamic : n.kind = .dynamic) : ∃ first, FirstDynamic nodes first := by
  obtain ⟨first, hfirst⟩ := Option.isSome_iff_exists.1
    (List.find?_isSome (p := fun m => m.kind == .dynamic) |>.2 ⟨n, hn, by simp [hdynamic]⟩)
  obtain ⟨hkind, before, after, hnodes, hbefore⟩ := List.find?_eq_some_iff_append.1 hfirst
  exact ⟨first, before, after, hnodes, fun m hm => by simpa using hbefore m hm,
    by simpa using hkind⟩

theorem exists_dot_eq_error_iff {g : CallGraph} :
    (∃ e, g.dot = .error e) ↔ ∃ n ∈ g.nodes, n.kind = .dynamic := by
  constructor
  · rintro ⟨e, he⟩
    obtain ⟨n, ⟨before, after, hnodes, -, hdynamic⟩, -⟩ := dot_eq_error_iff.1 he
    have hmem : n ∈ g.nodes.toList := by simp [hnodes]
    exact ⟨n, Array.mem_toList_iff.1 hmem, hdynamic⟩
  · rintro ⟨n, hn, hdynamic⟩
    obtain ⟨first, hfirst⟩ := exists_firstDynamic (Array.mem_toList_iff.2 hn) hdynamic
    exact ⟨_, dot_eq_error_iff.2 ⟨first, hfirst, rfl⟩⟩

/-! ## What sources bring -/

theorem kind_ne_dynamic_of_mem_nodes {o : Options} {event : Event} {n : Node}
    (h : n ∈ event.nodes o) : n.kind ≠ .dynamic := by
  cases event <;> simp only [Event.nodes, List.mem_singleton, List.not_mem_nil] at h <;>
    subst h <;> simp

theorem drawable_ofSource {o : Options} {source : String} {g : CallGraph}
    (h : ofSource o source = .ok g) : g.Drawable := by
  intro n hn
  obtain ⟨e, -, hmentioned⟩ := List.mem_flatMap.1 ((ofSource_eq_ok h).2.mem_of_mem_nodes hn)
  exact kind_ne_dynamic_of_mem_nodes hmentioned

theorem drawable_merge (repeats : Bool) {graphs : List CallGraph}
    (h : ∀ g ∈ graphs, g.Drawable) : (merge repeats graphs).Drawable := by
  intro n hn
  obtain ⟨g, hg, hrenamed⟩ :=
    List.mem_flatMap.1 ((collects_merge repeats graphs).mem_of_mem_nodes hn)
  obtain ⟨m, hm, rfl⟩ := List.mem_map.1 hrenamed
  exact h g hg m (Array.mem_toList_iff.1 hm)

/-- However the graphs of sources are merged, whatever the options of each. -/
theorem MergedFrom.drawable {graphs : List CallGraph} {g : CallGraph} (hg : MergedFrom graphs g)
    (h : ∀ part ∈ graphs, ∃ o source, ofSource o source = .ok part) : g.Drawable := by
  induction hg with
  | part hmem =>
    obtain ⟨o, source, hok⟩ := h _ hmem
    exact drawable_ofSource hok
  | merge repeats _ ih => exact drawable_merge repeats ih

end CallGraph

/-! ## Analyses and commands -/

theorem Analysis.drawable_run {c : Config} {t : FileTree} {a : Analysis}
    (h : (run c t).outcome = .ok a) : a.graph.Drawable := by
  obtain ⟨files, analyses, -, -, hparsed, rfl⟩ := run_eq_ok_iff.1 h
  refine CallGraph.drawable_merge _ fun g hg => ?_
  obtain ⟨f, hf, rfl⟩ := List.mem_map.1 hg
  obtain ⟨o, source, hsource⟩ := FileAnalysis.ofFiles_graphs hparsed f hf
  exact CallGraph.drawable_ofSource hsource

/-- Whether a command failed because its graph cannot be drawn. -/
def Failure.IsRender : Failure → Prop
  | .analysis (.render _) | .result (.render _) => True
  | _ => False

namespace Session

/-- The result of an analysis has a text in either format. -/
theorem exists_resultText {c : Config} {t : FileTree} {result : Analysis}
    (h : (Analysis.run c t).outcome = .ok result) (timing : Timing) :
    ∃ text, resultText c result timing = .ok text := by
  unfold resultText
  cases c.format with
  | json => exact ⟨_, rfl⟩
  | dot =>
    obtain ⟨text, htext⟩ := CallGraph.exists_dot_eq_ok (Analysis.drawable_run h)
    exact ⟨text, by rw [htext]; rfl⟩

theorem not_isRender_emit {c : Config} {t : FileTree} {result : Analysis}
    (h : (Analysis.run c t).outcome = .ok result) (timing : Timing) (path : String)
    {failure : Failure} (hfailure : (emit c result timing t path).failure = some failure) :
    ¬ failure.IsRender := by
  obtain ⟨text, htext⟩ := exists_resultText h timing
  by_cases hpath : path = standardOutput
  · subst hpath
    rw [emit_standardOutput htext] at hfailure
    cases hfailure
  · rw [(emit_file htext hpath).2] at hfailure
    obtain ⟨cause, -, rfl⟩ := Option.map_eq_some_iff.1 hfailure
    exact id

theorem not_isRender_run (timing : Timing) (t : FileTree) (arguments : List String)
    {failure : Failure} (hfailure : (run timing t arguments).failure = some failure) :
    ¬ failure.IsRender := by
  unfold run at hfailure
  split at hfailure
  next =>
    cases hfailure
    exact id
  next a _ =>
    have hends := ends_analyze timing t a
    generalize analyze timing t a = outcome at hends hfailure
    cases hends with
    | unrenamed hload =>
      cases hfailure
      obtain ⟨path, cause, rfl⟩ := exists_of_loadRenames_eq_error hload
      exact id
    | failed log hload hrun =>
      cases hfailure
      cases Analysis.hindered_of_run hrun <;> exact id
    | emitted log hload hrun => exact not_isRender_emit hrun timing _ hfailure
  next path output _ =>
    unfold fields at hfailure
    dsimp only at hfailure
    split at hfailure
    next =>
      cases hfailure
      exact id
    next =>
      split at hfailure
      next => cases hfailure
      next =>
        obtain ⟨cause, -, rfl⟩ := Option.map_eq_some_iff.1 hfailure
        exact id

/-- **Whatever sources build can be drawn.** A drawing fails exactly on a graph with a dynamic
node, and its error names the first such node. The graphs of sources, each read with whatever
options, have none, nor has any graph that they are merged into: all of these are drawn. So is the
graph of every analysis, and no command fails because of a drawing. -/
theorem drawing_fails_only_on_dynamic_nodes :
    (∀ g : CallGraph, ((∃ e, g.dot = .error e) ↔ ∃ n ∈ g.nodes, n.kind = .dynamic) ∧
      ∀ e, g.dot = .error e →
        ∃ n, CallGraph.FirstDynamic g.nodes.toList n ∧ e = .unstyledNode n.id .dynamic) ∧
    (∀ (graphs : List CallGraph) (g : CallGraph),
      (∀ part ∈ graphs, ∃ o source, CallGraph.ofSource o source = .ok part) →
      CallGraph.MergedFrom graphs g →
      (∀ n ∈ g.nodes, n.kind ≠ .dynamic) ∧ ∃ text, g.dot = .ok text) ∧
    (∀ (c : Config) (t : FileTree) (a : Analysis), (Analysis.run c t).outcome = .ok a →
      ∃ text, a.graph.dot = .ok text) ∧
    ∀ (timing : Timing) (t : FileTree) (arguments : List String) (failure : Failure),
      (run timing t arguments).failure = some failure → ¬ failure.IsRender := by
  refine ⟨fun g => ⟨CallGraph.exists_dot_eq_error_iff, fun e => CallGraph.dot_eq_error_iff.1⟩,
    fun graphs g hparts hg => ?_,
    fun c t a ha => CallGraph.exists_dot_eq_ok (Analysis.drawable_run ha),
    fun timing t arguments failure => not_isRender_run timing t arguments⟩
  have hdrawable : g.Drawable := hg.drawable hparts
  exact ⟨hdrawable, CallGraph.exists_dot_eq_ok hdrawable⟩

/-- Two dynamic nodes behind a section. -/
def unstyledGraph : CallGraph :=
  ((((CallGraph.empty true).addNode "S" .procedure {}).2.addNode "X" .dynamic {}).2.addNode "Y"
    .dynamic {}).2

/-- A merged graph inside another, of sources that were read with different options. -/
theorem drawing_unstyledGraph_and_merged :
    (∃ e, unstyledGraph.dot = .error e) ∧
    unstyledGraph.dot = .error (.unstyledNode "X" .dynamic) ∧
    (∃ g h, CallGraph.ofSource {} CallGraph.callingTwiceSource = .ok g ∧
      CallGraph.ofSource CallGraph.renamingOptions CallGraph.linkingSource = .ok h ∧
      ∃ text, (CallGraph.merge false [h, CallGraph.merge true [g, h, g]]).dot = .ok text) ∧
    (∃ a, (Analysis.run { inputs := ["A"] } Analysis.callingTree).outcome = .ok a ∧
      ∃ text, a.graph.dot = .ok text) ∧
    ∃ failure, (run ⟨"", 0, ∅⟩ Analysis.callingTree []).failure = some failure ∧
      ¬ failure.IsRender := by
  obtain ⟨hgraphs, hmerged, hruns, hcommands⟩ := drawing_fails_only_on_dynamic_nodes
  have hdynamic : ⟨"Y", "Y", .dynamic, {}⟩ ∈ unstyledGraph.nodes := by decide +kernel
  have herror : unstyledGraph.dot = .error (.unstyledNode "X" .dynamic) := by decide +kernel
  obtain ⟨g, hg⟩ := CallGraph.exists_ofSource_eq_ok {}
    (congrArg Outline.fault CallGraph.outline_callingTwiceSource)
  obtain ⟨h, hh⟩ := CallGraph.exists_ofSource_eq_ok CallGraph.renamingOptions
    (congrArg Outline.fault CallGraph.outline_linkingSource)
  have hg' : CallGraph.MergedFrom [g, h] g := .part (by simp)
  have hh' : CallGraph.MergedFrom [g, h] h := .part (by simp)
  have hinner : CallGraph.MergedFrom [g, h] (CallGraph.merge true [g, h, g]) :=
    .merge true (by simp [hg', hh'])
  have hparts : ∀ part ∈ [g, h], ∃ o source, CallGraph.ofSource o source = .ok part := by
    simpa using ⟨⟨_, _, hg⟩, ⟨_, _, hh⟩⟩
  have houter : CallGraph.MergedFrom [g, h]
      (CallGraph.merge false [h, CallGraph.merge true [g, h, g]]) :=
    .merge false (by simp [hh', hinner])
  obtain ⟨a, ha⟩ := Analysis.exists_run_callingTree
  exact ⟨(hgraphs unstyledGraph).1.2 ⟨_, hdynamic, rfl⟩, herror,
    ⟨g, h, hg, hh, (hmerged [g, h] _ hparts houter).2⟩, ⟨a, ha, hruns _ _ a ha⟩,
    _, rfl, hcommands ⟨"", 0, ∅⟩ Analysis.callingTree [] _ rfl⟩

end Session
end CobolCalls
