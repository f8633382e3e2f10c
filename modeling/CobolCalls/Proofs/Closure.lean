import CobolCalls.Analysis
import CobolCalls.Proofs.CanonicalPlaces
import CobolCalls.Proofs.Insertion
import CobolCalls.Proofs.Reading

/-
  Finished graphs are closed: both ends of every edge are nodes. The target of an edge is inserted
  with the edge, but its source is the section that is still open, whose node comes with its exit.
  So while a source is read the sources of edges are sections that have closed or the one that is
  open (`Reads.caller_closes`), and a source that is read without fault ends with none open.
-/

namespace CobolCalls

open Statement

/-! ## Callers close -/

/-- What the section is that is open inside a block. -/
def Block.procedure? (block : Block) : Option Procedure := block.open?.map OpenSection.procedure

/-- The section from which an event passes control on. -/
def Event.caller? : Event → Option Procedure
  | performs p _ => some p
  | calls p _ => some p
  | links p _ => some p
  | _ => none

namespace Block

theorem stepLink_procedure? (line : Line) (s : OpenSection) (n : Nat) :
    (stepLink line s n).2.procedure? = some s.procedure := by
  rw [procedure?, open?_stepLink]
  rfl

/-- A line leaves the open section open or closes it. -/
theorem step_procedure? {block next : Block} {n : Nat} {line : Line} {event : Option Event}
    {p : Procedure} (h : block.step n line = .ok (event, next)) (hp : block.procedure? = some p) :
    next.procedure? = some p ∨ ∃ fields, event = some (.closes p fields) := by
  cases block with
  | outside program => cases hp
  | inSection s =>
    cases hp
    obtain ⟨-, rfl, -⟩ | ⟨-, hlink⟩ | ⟨-, -, -, rfl⟩ := stepSection_cases h
    · exact .inr ⟨s.fields, rfl⟩
    · left
      rw [← stepLink_procedure? line s n, hlink]
    · exact .inl (congrArg some (s.note_procedure line))
  | inLink s beginLine =>
    cases hp
    have hlink : stepLink line s beginLine = (event, next) := Except.ok.inj h
    left
    rw [← stepLink_procedure? line s beginLine, hlink]

theorem caller?_ofPlain {p q : Procedure} {line : Line} {e : Event}
    (h : Event.ofPlain p line = some e) (hq : e.caller? = some q) : q = p := by
  obtain ⟨_, -, rfl⟩ | ⟨_, -, rfl⟩ | ⟨_, -, rfl⟩ := Event.ofPlain_cases h <;> cases hq <;> rfl

theorem caller?_stepLink {line : Line} {s : OpenSection} {n : Nat} {e : Event} {p : Procedure}
    (h : (stepLink line s n).1 = some e) (hp : e.caller? = some p) : p = s.procedure := by
  obtain ⟨target, -, rfl⟩ := Option.map_eq_some_iff.1 h
  exact (Option.some.inj hp).symm

/-- Control passes on only from the open section. -/
theorem step_caller? {block next : Block} {n : Nat} {line : Line} {e : Event} {p : Procedure}
    (h : block.step n line = .ok (some e, next)) (hp : e.caller? = some p) :
    next.procedure? = some p := by
  cases block with
  | outside program =>
    obtain ⟨-, he, -⟩ | ⟨name, q, -, -, he, -⟩ := stepOutside_cases h
    · obtain ⟨name, -, rfl⟩ := Option.map_eq_some_iff.1 he.symm
      cases hp
    · cases he
      cases hp
  | inSection s =>
    obtain ⟨-, he, -⟩ | ⟨-, hlink⟩ | ⟨-, -, he, rfl⟩ := stepSection_cases h
    · cases he
      cases hp
    · have hstep := stepLink_procedure? line s n
      rw [hlink] at hstep
      rw [caller?_stepLink (congrArg Prod.fst hlink) hp]
      exact hstep
    · rw [caller?_ofPlain he.symm hp]
      exact congrArg some (s.note_procedure line)
  | inLink s beginLine =>
    have hlink : stepLink line s beginLine = (some e, next) := Except.ok.inj h
    have hstep := stepLink_procedure? line s beginLine
    rw [hlink] at hstep
    rw [caller?_stepLink (congrArg Prod.fst hlink) hp]
    exact hstep

end Block

/-- Once these events were read the section has been closed, or it is open inside the block. -/
def ClosedOrOpen (p : Procedure) (events : List (Nat × Event)) (block : Block) : Prop :=
  (∃ n fields, (n, Event.closes p fields) ∈ events) ∨ block.procedure? = some p

theorem ClosedOrOpen.append {p : Procedure} {events : List (Nat × Event)} {block : Block}
    (h : ClosedOrOpen p events block) (before : List (Nat × Event)) :
    ClosedOrOpen p (before ++ events) block :=
  h.imp_left fun ⟨n, fields, hmem⟩ => ⟨n, fields, List.mem_append_right before hmem⟩

namespace Reads

variable {block after : Block} {code : List (Line × Nat)} {events : List (Nat × Event)}

/-- A section that is open stays open or is closed on the way. -/
theorem open_closes (h : Reads block code events after) {p : Procedure}
    (hp : block.procedure? = some p) : ClosedOrOpen p events after := by
  induction h with
  | done => exact .inr hp
  | @line _ _ _ _ n _ _ _ hstep _ ih =>
    obtain hnext | ⟨fields, rfl⟩ := Block.step_procedure? hstep hp
    · exact (ih hnext).append _
    · exact .inl ⟨n, fields, List.mem_cons_self⟩

/-- A section from which control was passed on is still open or has been closed. -/
theorem caller_closes (h : Reads block code events after) {k : Nat} {e : Event} {p : Procedure}
    (he : (k, e) ∈ events) (hp : e.caller? = some p) : ClosedOrOpen p events after := by
  induction h with
  | done => cases he
  | line hstep htail ih =>
    rcases List.mem_append.1 he with he | he
    · obtain ⟨e', he', heq⟩ := Option.map_eq_some_iff.1 (Option.mem_toList.1 he)
      cases heq
      subst he'
      exact (htail.open_closes (Block.step_caller? hstep hp)).append _
    · exact (ih he).append _

end Reads

/-! ## Closed graphs -/

namespace CallGraph

/-- Both ends of every edge are nodes. -/
def Closed (g : CallGraph) : Prop :=
  ∀ e ∈ g.edges, (∃ n ∈ g.nodes, n.id = e.source) ∧ ∃ n ∈ g.nodes, n.id = e.target

theorem Collects.exists_node {g : CallGraph} {repeats : Bool} {nodes : List Node}
    {edges : List Edge} (h : Collects g repeats nodes edges) {id : String}
    (hid : id ∈ nodes.map Node.id) : ∃ n ∈ g.nodes, n.id = id := by
  rw [← mem_keys_firstOf, ← h.nodes_eq] at hid
  obtain ⟨n, hn, rfl⟩ := List.mem_map.1 hid
  exact ⟨n, Array.mem_toList_iff.1 hn, rfl⟩

theorem Collects.mem_of_mem_nodes {g : CallGraph} {repeats : Bool} {nodes : List Node}
    {edges : List Edge} (h : Collects g repeats nodes edges) {n : Node} (hn : n ∈ g.nodes) :
    n ∈ nodes := by
  rw [← Array.mem_toList_iff, h.nodes_eq] at hn
  exact mem_of_mem_firstOf _ hn

theorem Collects.mem_of_mem_edges {g : CallGraph} {repeats : Bool} {nodes : List Node}
    {edges : List Edge} (h : Collects g repeats nodes edges) {e : Edge} (he : e ∈ g.edges) :
    e ∈ edges := by
  rw [← Array.mem_toList_iff, h.edges_eq, keepEdges] at he
  split at he
  · exact he
  · exact mem_of_mem_firstOf _ he

theorem Collects.closed {g : CallGraph} {repeats : Bool} {nodes : List Node} {edges : List Edge}
    (h : Collects g repeats nodes edges)
    (hends : ∀ e ∈ edges, e.source ∈ nodes.map Node.id ∧ e.target ∈ nodes.map Node.id) :
    g.Closed := by
  intro e he
  obtain ⟨hsource, htarget⟩ := hends e (h.mem_of_mem_edges he)
  exact ⟨h.exists_node hsource, h.exists_node htarget⟩

/-- An edge leads from the caller's label to a node that the same event mentions. -/
theorem ends_of_mem_edges {o : Options} {event : Event} {e : Edge} (h : e ∈ event.edges o) :
    ∃ p, event.caller? = some p ∧ e.source = o.label p ∧
      e.target ∈ (event.nodes o).map Node.id := by
  cases event <;> simp only [Event.edges, List.mem_singleton, List.not_mem_nil] at h <;> subst h
  case performs p target => exact ⟨p, rfl, rfl, List.mem_singleton.2 rfl⟩
  case calls p target => exact ⟨p, rfl, rfl, List.mem_singleton.2 rfl⟩
  case links p target => exact ⟨p, rfl, rfl, List.mem_singleton.2 rfl⟩

theorem mem_ids_of_event {o : Options} {events : List (Nat × Event)} {n : Nat} {event : Event}
    {id : String} (he : (n, event) ∈ events) (hid : id ∈ (event.nodes o).map Node.id) :
    id ∈ (events.flatMap fun e => e.2.nodes o).map Node.id := by
  obtain ⟨node, hnode, rfl⟩ := List.mem_map.1 hid
  exact List.mem_map_of_mem (List.mem_flatMap.2 ⟨(n, event), he, hnode⟩)

theorem closed_ofSource {o : Options} {source : String} {g : CallGraph}
    (h : ofSource o source = .ok g) : g.Closed := by
  obtain ⟨hfault, hcollects⟩ := ofSource_eq_ok h
  obtain ⟨events, program, hreads⟩ := Outline.fault_eq_none_iff.1 hfault
  rw [Outline.ofSource, Outline.ofLinesFrom_of_reads hreads] at hcollects
  refine hcollects.closed fun e he => ?_
  obtain ⟨⟨n, event⟩, hevent, he⟩ := List.mem_flatMap.1 he
  obtain ⟨p, hp, hsource, htarget⟩ := ends_of_mem_edges he
  refine ⟨?_, mem_ids_of_event hevent htarget⟩
  -- outside all sections the caller cannot be open any more
  obtain ⟨k, fields, hclose⟩ | hopen := hreads.caller_closes hevent hp
  · rw [hsource]
    exact mem_ids_of_event hclose (List.mem_singleton.2 rfl)
  · cases hopen

theorem closed_merge (repeats : Bool) {graphs : List CallGraph} (h : ∀ g ∈ graphs, g.Closed) :
    (merge repeats graphs).Closed := by
  refine (collects_merge repeats graphs).closed fun e he => ?_
  obtain ⟨g, hg, he⟩ := List.mem_flatMap.1 he
  obtain ⟨⟨n, hn, hsource⟩, m, hm, htarget⟩ := h g hg e (Array.mem_toList_iff.1 he)
  have mem_ids {n : Node} (hn : n ∈ g.nodes) :
      n.id ∈ (graphs.flatMap fun g => g.nodes.toList.map Node.renamed).map Node.id :=
    List.mem_map.2 ⟨n.renamed, List.mem_flatMap.2
      ⟨g, hg, List.mem_map_of_mem (Array.mem_toList_iff.2 hn)⟩, rfl⟩
  exact ⟨hsource ▸ mem_ids hn, htarget ▸ mem_ids hm⟩

end CallGraph

/-! ## Whole analyses -/

namespace FileAnalysis

theorem ofText_graph {c : Config} {path source : String} {a : FileAnalysis}
    (h : (ofText c path source).value = .ok a) :
    CallGraph.ofSource (c.optionsFor source) source = .ok a.graph := by
  unfold ofText at h
  unfold CallGraph.ofSource
  dsimp only at h
  split at h
  next => cases h
  next g hg =>
    cases h
    exact hg

theorem ofFile_graph {c : Config} {t : FileTree} {f : SourceFile} {a : FileAnalysis}
    (h : (ofFile c t f).value = .ok a) :
    ∃ o source, CallGraph.ofSource o source = .ok a.graph := by
  unfold ofFile at h
  split at h
  next => cases h
  next content _ => exact ⟨_, _, ofText_graph h⟩

/-- Every graph of a successful run over files is that of a source. -/
theorem ofFiles_graphs {c : Config} {t : FileTree} {files : List SourceFile}
    {analyses : List FileAnalysis} (h : (ofFiles c t files).value = .ok analyses) :
    ∀ a ∈ analyses, ∃ o source, CallGraph.ofSource o source = .ok a.graph := by
  induction files generalizing analyses with
  | nil =>
    cases h
    simp
  | cons f rest ih =>
    unfold ofFiles at h
    dsimp only at h
    split at h
    next => cases h
    next first hfirst =>
      cases hrest : (ofFiles c t rest).value with
      | error e =>
        rw [hrest] at h
        cases h
      | ok others =>
        rw [hrest] at h
        cases h
        intro a ha
        rcases List.mem_cons.1 ha with rfl | ha
        · exact ofFile_graph hfirst
        · exact ih hrest a ha

end FileAnalysis

namespace Analysis

/-- An analysis succeeds with what the graphs of its files are merged into. -/
theorem run_eq_ok_iff {c : Config} {t : FileTree} {a : Analysis} :
    (run c t).outcome = .ok a ↔
      ∃ files analyses, (discover c t).value = .ok files ∧ files ≠ [] ∧
        (FileAnalysis.ofFiles c t files).value = .ok analyses ∧ merge c analyses = a := by
  unfold run
  dsimp only
  constructor
  · intro h
    split at h
    next => cases h
    next => cases h
    next files hne hfound =>
      split at h
      next => cases h
      next analyses hparsed =>
        cases h
        exact ⟨files, analyses, hfound, hne, hparsed, rfl⟩
  · rintro ⟨files, analyses, hfound, hne, hparsed, rfl⟩
    cases files with
    | nil => exact absurd rfl hne
    | cons f rest => simp only [hfound, hparsed]

theorem closed_run {c : Config} {t : FileTree} {a : Analysis} (h : (run c t).outcome = .ok a) :
    a.graph.Closed := by
  obtain ⟨files, analyses, -, -, hparsed, rfl⟩ := run_eq_ok_iff.1 h
  refine CallGraph.closed_merge _ fun g hg => ?_
  obtain ⟨f, hf, rfl⟩ := List.mem_map.1 hg
  obtain ⟨o, source, hsource⟩ := FileAnalysis.ofFiles_graphs hparsed f hf
  exact CallGraph.closed_ofSource hsource

/-- **Finished graphs are closed**: the graph of a source, what closed graphs are merged into, and
so the graph of every analysis. -/
theorem finished_graphs_closed :
    (∀ o source g, CallGraph.ofSource o source = .ok g → g.Closed) ∧
    (∀ repeats graphs, (∀ g ∈ graphs, CallGraph.Closed g) →
      (CallGraph.merge repeats graphs).Closed) ∧
    (∀ c t a, (run c t).outcome = .ok a → a.graph.Closed) :=
  ⟨fun _ _ _ h => CallGraph.closed_ofSource h, fun repeats _ h => CallGraph.closed_merge repeats h,
    fun _ _ _ h => closed_run h⟩

/-- A section that calls a program. -/
def callingSource : String :=
  "       PROGRAM-ID. P.\n       1-A SECTION.\n        CALL X\n       1-99-FIM. EXIT."

/-- A tree with one file. -/
def callingTree : FileTree where
  items := Std.TreeMap.empty.insert ["A"] (.file callingSource.toUTF8)
  here := []

theorem resolve_callingTree : callingTree.resolve "A" = .ok ["A"] := by
  have hrefusal : FileTree.refusal? "A" = none := by decide
  have hsteps : FileTree.steps "A" = ["A"] := by decide
  have hstart : FileTree.start "A" callingTree.here = [] := by decide
  have hroot : callingTree.isFolder [] = true := rfl
  have hitem : ∃ content, callingTree.item? ["A"] = some (.file content) := ⟨_, rfl⟩
  obtain ⟨content, hitem⟩ := hitem
  have hlocate : callingTree.locate false "A" = .ok ["A"] := by
    simp only [FileTree.locate, hrefusal, hsteps, hstart]
    rw [if_neg (by decide), FileTree.locateFrom, hroot, List.nil_append, hitem]
    simp [FileTree.locateFrom]
    decide
  rw [FileTree.resolve, hlocate]
  rfl

theorem discover_callingTree :
    (discover { inputs := ["A"] } callingTree).value = .ok [.reached callingTree "A" ["A"]] := by
  have hinput : Discovery.ofInput { inputs := ["A"] } callingTree "A" =
      .ok [.ok (.reached callingTree "A" ["A"])] := by
    rw [Discovery.ofInput, resolve_callingTree]
    rfl
  have hinputs : Discovery.ofInputs { inputs := ["A"] } callingTree ["A"] =
      ⟨[], .ok [.reached callingTree "A" ["A"]]⟩ := by
    rw [Discovery.ofInputs, hinput]
    rfl
  simp only [discover, hinputs]
  rfl

/-- Wherever the source stands it can be read, with any options. -/
theorem exists_ofFile_calling (c : Config) {t : FileTree} {f : SourceFile}
    (h : f.content t = .ok callingSource.toUTF8) :
    ∃ a, (FileAnalysis.ofFile c t f).value = .ok a := by
  have complete : (Outline.ofSource (Text.Utf8.decode callingSource.toUTF8)).fault = none := by
    decide +kernel
  obtain ⟨g, hg⟩ := CallGraph.exists_ofSource_eq_ok
    (c.optionsFor (Text.Utf8.decode callingSource.toUTF8)) complete
  rw [CallGraph.ofSource] at hg
  simp only [FileAnalysis.ofFile, h, FileAnalysis.ofText, hg]
  exact ⟨_, rfl⟩

theorem exists_run_callingTree :
    ∃ a, (run { inputs := ["A"] } callingTree).outcome = .ok a := by
  obtain ⟨a, ha⟩ := exists_ofFile_calling { inputs := ["A"] }
    (SourceFile.content_reached resolve_callingTree)
  refine ⟨_, run_eq_ok_iff.2 ⟨_, [a], discover_callingTree, by simp, ?_, rfl⟩⟩
  simp [FileAnalysis.ofFiles, ha, Except.map]

/-- The graph of one source, that graph merged with itself, and the graph of an analysis. -/
theorem finished_graphs_closed_calling :
    ∃ (g : CallGraph) (a : Analysis), CallGraph.ofSource {} callingSource = .ok g ∧ g.Closed ∧
      (CallGraph.merge false [g, g]).Closed ∧
      (run { inputs := ["A"] } callingTree).outcome = .ok a ∧ a.graph.Closed := by
  have complete : (Outline.ofSource callingSource).fault = none :=
    (congrArg Outline.fault (Outline.ofSource_ofList _)).trans (by decide +kernel)
  obtain ⟨g, hg⟩ := CallGraph.exists_ofSource_eq_ok {} complete
  obtain ⟨a, ha⟩ := exists_run_callingTree
  obtain ⟨ofSource_closed, merge_closed, run_closed⟩ := finished_graphs_closed
  have hclosed := ofSource_closed _ _ g hg
  exact ⟨g, a, hg, hclosed, merge_closed false [g, g] (by simpa using hclosed), ha,
    run_closed _ _ a ha⟩

end Analysis
end CobolCalls
