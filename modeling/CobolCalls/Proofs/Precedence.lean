import CobolCalls.Proofs.Arguments
import CobolCalls.Proofs.Composition
import CobolCalls.Proofs.Dictionaries
import CobolCalls.Proofs.InertLines
import CobolCalls.Session

/-
  Which program a CALL or a link means. The name that the statement captures is looked up in three
  places, one after the other: the `--replace` arguments, the rename map, and, if fields are
  resolved, the declarations of the source that holds the statement. In each of them the last word
  on the name counts. The first place that knows the name decides; what it says is the target, and
  is not looked up itself. If none knows it, the name is the target.

  The program folds the three places into one dictionary per source. `resolved_iff` says that this
  comes to the same, and the rest follows a target from the command line to the edges of a graph.
-/

namespace CobolCalls

open Statement

/-! ## Look-ups -/

theorem Options.get?_supplement (o : Options) (renames : Dict String) (x : String) :
    (o.supplement renames).renames.get? x = (o.renames.get? x <|> renames.get? x) :=
  Dict.get?_foldl_insertNew o.renames renames.entries x

/-! ## The last word -/

section LastWord

variable {α : Type} (gives : α → String → String → Prop)

/-- What the last of the items that give the name `x` a value gives it, if there is one. -/
def LastWord (items : List α) (x : String) : Option String → Prop
  | some y => ∃ before item after, items = before ++ item :: after ∧ gives item x y ∧
      ∀ later ∈ after, ∀ z, ¬ gives later x z
  | none => ∀ item ∈ items, ∀ y, ¬ gives item x y

variable {gives}

/-- One more item has the last word if it knows the name, and otherwise changes nothing. -/
theorem lastWord_concat_iff {items : List α} {item : α} {x : String} {o : Option String} :
    LastWord gives (items ++ [item]) x o ↔
      (∃ y, gives item x y ∧ o = some y) ∨
        (∀ y, ¬ gives item x y) ∧ LastWord gives items x o := by
  constructor
  · intro h
    cases o with
    | none =>
      refine .inr ⟨h item (by simp), fun other hother => ?_⟩
      exact h other (List.mem_append_left _ hother)
    | some y =>
      obtain ⟨before, word, after, hitems, hword, hafter⟩ := h
      rcases List.eq_nil_or_concat after with rfl | ⟨after, last, rfl⟩
      · obtain ⟨-, hlast⟩ := List.append_inj' hitems rfl
        cases hlast
        exact .inl ⟨y, hword, rfl⟩
      · have hsplit : items ++ [item] = (before ++ word :: after) ++ [last] := by simp [hitems]
        obtain ⟨rfl, hlast⟩ := List.append_inj' hsplit rfl
        cases hlast
        refine .inr ⟨hafter item (by simp), before, word, after, rfl, hword, fun later hlater => ?_⟩
        exact hafter later (by simp [hlater])
  · rintro (⟨y, hy, rfl⟩ | ⟨hsilent, h⟩)
    · exact ⟨items, item, [], rfl, hy, by simp⟩
    · have hlast {other : α} {others : List α} (hother : other ∈ others ++ [item])
          (hothers : ∀ other ∈ others, ∀ z, ¬ gives other x z) : ∀ z, ¬ gives other x z := by
        rcases List.mem_append.1 hother with hother | hother
        · exact hothers other hother
        · exact List.mem_singleton.1 hother ▸ hsilent
      cases o with
      | none => exact fun other hother => hlast hother h
      | some y =>
        obtain ⟨before, word, after, rfl, hword, hafter⟩ := h
        exact ⟨before, word, after ++ [item], by simp, hword, fun later hlater =>
          hlast hlater hafter⟩

/-- A dictionary in which later values stand in the place of earlier ones answers with the last
word. -/
theorem get?_ofList_eq_iff {value? : α → Option (String × String)}
    (hvalue : ∀ item x y, value? item = some (x, y) ↔ gives item x y) {items : List α}
    {x : String} {o : Option String} :
    (Dict.ofList (items.filterMap value?)).get? x = o ↔ LastWord gives items x o := by
  induction items using List.reverseRecOn with
  | nil => cases o <;> simp [LastWord, Dict.ofList, Dict.extend, Dict.get?, Dict.empty]
  | append_singleton items item ih =>
    simp only [lastWord_concat_iff, ← ih, ← hvalue, List.filterMap_append, Dict.ofList]
    cases hitem : value? item with
    | none => simp [hitem]
    | some entry =>
      obtain ⟨k, v⟩ := entry
      have hone : [item].filterMap value? = [(k, v)] := by simp [hitem]
      rw [hone, Dict.extend_concat, Dict.get?_insert]
      by_cases hx : x = k
      · simp [hx, eq_comm]
      · simp [hx, Ne.symm hx]

end LastWord

/-! ## The three places -/

/-- The entry of a rename map renames `x` to `y`. -/
def Maps (entry : String × String) (x y : String) : Prop := entry = (x, y)

/-- The line is no comment and declares the field `x` with the literal `y`. -/
def Declares (line : Line) (x y : String) : Prop :=
  isComment line = false ∧ fieldDeclaration line = some (x, y)

/-- The lines whose declarations count: those of the source, if its fields are resolved. -/
def declaring (resolves : Bool) (source : String) : List Line :=
  if resolves then Text.lines source else []

/-- `Resolved arguments entries lines x y`: the name `x` in a statement means the program `y`,
given the arguments that rename, the entries of the rename map and the lines that declare
fields. -/
inductive Resolved (arguments : List String) (entries : List (String × String))
    (lines : List Line) (x : String) : String → Prop where
  | argument {y : String} : LastWord Renames arguments x (some y) →
      Resolved arguments entries lines x y
  | entry {y : String} : LastWord Renames arguments x none → LastWord Maps entries x (some y) →
      Resolved arguments entries lines x y
  | field {y : String} : LastWord Renames arguments x none → LastWord Maps entries x none →
      LastWord Declares lines x (some y) → Resolved arguments entries lines x y
  | itself : LastWord Renames arguments x none → LastWord Maps entries x none →
      LastWord Declares lines x none → Resolved arguments entries lines x x

theorem get?_fields_eq_iff {lines : List Line} {x : String} {o : Option String} :
    (Fields.ofLines lines).get? x = o ↔ LastWord Declares lines x o := by
  rw [Fields.ofLines, List.filterMap_filter]
  refine get?_ofList_eq_iff fun line x y => ?_
  cases hc : isComment line <;> simp [Declares, hc]

/-- Three dictionaries asked in turn give the program that is meant. -/
theorem resolved_iff {arguments : List String} {entries : List (String × String)}
    {lines : List Line} {x y : String} :
    ((Dict.ofList (arguments.filterMap rename?)).get? x <|> (Dict.ofList entries).get? x <|>
      (Fields.ofLines lines).get? x).getD x = y ↔ Resolved arguments entries lines x y := by
  have hargument (o : Option String) :
      (Dict.ofList (arguments.filterMap rename?)).get? x = o ↔ LastWord Renames arguments x o :=
    get?_ofList_eq_iff fun _ _ _ => rename?_eq_some_iff
  have hentry (o : Option String) :
      (Dict.ofList entries).get? x = o ↔ LastWord Maps entries x o := by
    have hsome : (Dict.ofList (entries.filterMap some)).get? x = o ↔ LastWord Maps entries x o :=
      get?_ofList_eq_iff fun _ _ _ => Option.some_inj
    rwa [List.filterMap_some] at hsome
  have hfield (o : Option String) :
      (Fields.ofLines lines).get? x = o ↔ LastWord Declares lines x o := get?_fields_eq_iff
  constructor
  · rintro rfl
    cases ha : (Dict.ofList (arguments.filterMap rename?)).get? x with
    | some y => exact .argument ((hargument _).1 ha)
    | none =>
      cases he : (Dict.ofList entries).get? x with
      | some y => exact .entry ((hargument _).1 ha) ((hentry _).1 he)
      | none =>
        cases hf : (Fields.ofLines lines).get? x with
        | some y => exact .field ((hargument _).1 ha) ((hentry _).1 he) ((hfield _).1 hf)
        | none => exact .itself ((hargument _).1 ha) ((hentry _).1 he) ((hfield _).1 hf)
  · intro h
    cases h with
    | argument ha => rw [(hargument _).2 ha]; rfl
    | entry ha he => rw [(hargument _).2 ha, (hentry _).2 he]; rfl
    | field ha he hf => rw [(hargument _).2 ha, (hentry _).2 he, (hfield _).2 hf]; rfl
    | itself ha he hf => rw [(hargument _).2 ha, (hentry _).2 he, (hfield _).2 hf]; rfl

theorem Resolved.unique {arguments : List String} {entries : List (String × String)}
    {lines : List Line} {x y z : String} (hy : Resolved arguments entries lines x y)
    (hz : Resolved arguments entries lines x z) : y = z :=
  (resolved_iff.2 hy).symm.trans (resolved_iff.2 hz)

theorem Config.get?_optionsFor (c : Config) (source x : String) :
    (c.optionsFor source).renames.get? x = (c.options.renames.get? x <|>
      (Fields.ofLines (declaring c.resolvesFields source)).get? x) := by
  unfold optionsFor declaring
  cases c.resolvesFields with
  | true => exact Options.get?_supplement c.options (Fields.ofSource source) x
  | false =>
    have hnone : (Fields.ofLines []).get? x = none := rfl
    simp [hnone]

@[simp] theorem Config.optionsFor_keepsRepeats (c : Config) (source : String) :
    (c.optionsFor source).keepsRepeats = c.options.keepsRepeats := by
  unfold optionsFor
  split <;> rfl

/-! ## The command line -/

/-- The entries of the rename map at a path, an object of strings. Without a path there are
none. -/
def RenameMap (t : FileTree) : Option String → List (String × String) → Prop
  | none, entries => entries = []
  | some path, entries => ∃ content text, t.read path = .ok content ∧
      String.fromUTF8? content = some text ∧
      Json.parse? text = some (.obj (entries.map fun e => (e.1, .str e.2)))

theorem Json.asDict?_strings (entries : List (String × String)) :
    asDict? asString? (.obj (entries.map fun e => (e.1, .str e.2))) =
      some (Dict.ofList entries) := by
  have hentries : (entries.map fun e => (e.1, Json.str e.2)).mapM
      (fun m => (asString? m.2).map (m.1, ·)) = some entries := by
    induction entries with
    | nil => rfl
    | cons e rest ih =>
      rw [List.map_cons, List.mapM_cons, ih]
      rfl
  exact congrArg (Option.map Dict.ofList) hentries

namespace Session

open CommandLine

theorem loadRenames_eq_ok {t : FileTree} {path : Option String} {entries : List (String × String)}
    (h : RenameMap t path entries) : loadRenames t path = .ok (Dict.ofList entries) := by
  cases path with
  | none =>
    cases h
    rfl
  | some path =>
    obtain ⟨content, text, hread, htext, hparse⟩ := h
    simp [loadRenames, renamesOf, hread, htext, hparse, Json.asDict?_strings, Except.mapError]

/-- The options of a source answer what the three places say. -/
theorem resolved_resolve (r : Reading) (path : String) (entries : List (String × String))
    (source x : String) :
    Resolved (r.values "replace") entries (declaring (r.has "resolve-fields") source) x
      (((configOf (analyzeOf r) path (Dict.ofList entries)).optionsFor source).resolve x) := by
  rw [← resolved_iff, Options.resolve, Config.get?_optionsFor]
  change _ = (((Dict.ofList entries).extend
    ((r.values "replace").filterMap rename?)).get? x <|> _).getD x
  rw [Dict.get?_extend]
  cases (Dict.ofList ((r.values "replace").filterMap rename?)).get? x <;> rfl

end Session

/-! ## Statements and their edges -/

/-- The event is a call or a link with the name that the line's statement has. -/
def Event.CapturedFrom (line : Line) : Event → Prop
  | calls _ x => callTarget line = some x
  | links _ x => linkProgram line = some x
  | _ => True

theorem Event.capturedFrom_ofPlain {p : Procedure} {line : Line} {e : Event}
    (h : ofPlain p line = some e) : e.CapturedFrom line := by
  obtain ⟨_, -, rfl⟩ | ⟨target, htarget, rfl⟩ | ⟨_, -, rfl⟩ := ofPlain_cases h
  · trivial
  · exact htarget
  · trivial

theorem Block.capturedFrom_stepLink {line : Line} {s : OpenSection} {n : Nat} {e : Event}
    (h : (stepLink line s n).1 = some e) : e.CapturedFrom line := by
  obtain ⟨target, htarget, rfl⟩ := Option.map_eq_some_iff.1 h
  exact htarget

/-- One line: a call or a link is captured from it. -/
theorem Block.step_capturedFrom {block next : Block} {n : Nat} {line : Line} {e : Event}
    (h : block.step n line = .ok (some e, next)) : e.CapturedFrom line := by
  cases block with
  | outside program =>
    obtain ⟨-, he, -⟩ | ⟨name, q, -, -, he, -⟩ := stepOutside_cases h
    · obtain ⟨name, -, rfl⟩ := Option.map_eq_some_iff.1 he.symm
      trivial
    · cases he
      trivial
  | inSection s =>
    obtain ⟨-, he, -⟩ | ⟨-, hlink⟩ | ⟨-, -, he, -⟩ := stepSection_cases h
    · cases he
      trivial
    · exact capturedFrom_stepLink (congrArg Prod.fst hlink)
    · exact Event.capturedFrom_ofPlain he.symm
  | inLink s beginLine => exact capturedFrom_stepLink (congrArg Prod.fst (Except.ok.inj h))

/-- Many lines: every call and every link is captured from the line that has its number. -/
theorem Reads.capturedFrom {block after : Block} {code : List (Line × Nat)}
    {events : List (Nat × Event)} (h : Reads block code events after) {n : Nat} {e : Event}
    (he : (n, e) ∈ events) : ∃ line, (line, n) ∈ code ∧ e.CapturedFrom line := by
  obtain ⟨before, line, rest, _, _, _, rfl, -, hstep⟩ := h.exists_step he
  exact ⟨line, List.mem_append_right before List.mem_cons_self, Block.step_capturedFrom hstep⟩

/-- Line `n` is no comment, and the form captures `x` from it. -/
def CapturesAt (form : Line → Option String) (lines : List Line) (n : Nat) (x : String) : Prop :=
  ∃ before line after, lines = before ++ line :: after ∧ n = before.length + 1 ∧
    isComment line = false ∧ form line = some x

theorem capturesAt_of_mem_codeFrom {form : Line → Option String} {lines : List Line} {line : Line}
    {n : Nat} {x : String} (hline : (line, n) ∈ codeFrom 1 lines) (hform : form line = some x) :
    CapturesAt form lines n x := by
  have hcode : isComment line = false := by simpa using (List.mem_filter.1 hline).2
  obtain ⟨before, rest, hsplit⟩ := List.append_of_mem hline
  obtain ⟨pre, post, hlines, hn, -⟩ := exists_lines_of_codeFrom hsplit
  exact ⟨pre, line, post, hlines, by omega, hcode, hform⟩

/-- `Contributes resolved lines (n, event) e`: the statement of line `n` that passes control on
contributes the edge `e`. A call or a link leads to what the name captured from the line is
resolved to. -/
inductive Contributes (resolved : String → String → Prop) (lines : List Line) :
    Nat × Event → Edge → Prop where
  | perform {n : Nat} {p : Procedure} {target : SectionName} {e : Edge} : e.kind = .perform →
      Contributes resolved lines (n, .performs p target) e
  | call {n : Nat} {p : Procedure} {x : String} {e : Edge} : CapturesAt callTarget lines n x →
      e.kind = .call → resolved x e.target → Contributes resolved lines (n, .calls p x) e
  | link {n : Nat} {p : Procedure} {x : String} {e : Edge} : CapturesAt linkProgram lines n x →
      e.kind = .remoteLink → resolved x e.target → Contributes resolved lines (n, .links p x) e

/-- The edges that the statements of a source contribute, one each, in their order. -/
def Contributed (resolved : String → String → Prop) (source : String) (edges : List Edge) :
    Prop :=
  List.Forall₂ (Contributes resolved (Text.lines source))
    ((Outline.ofSource source).events.filter fun e => e.2.caller?.isSome) edges

theorem contributes_edges {resolved : String → String → Prop} {lines : List Line} {o : Options}
    (hresolve : ∀ x, resolved x (o.resolve x)) {events : List (Nat × Event)}
    (hcalls : ∀ n p x, (n, .calls p x) ∈ events → CapturesAt callTarget lines n x)
    (hlinks : ∀ n p x, (n, .links p x) ∈ events → CapturesAt linkProgram lines n x) :
    List.Forall₂ (Contributes resolved lines) (events.filter fun e => e.2.caller?.isSome)
      (events.flatMap fun e => e.2.edges o) := by
  induction events with
  | nil => exact .nil
  | cons e rest ih =>
    have hrest := ih (fun n p x h => hcalls n p x (List.mem_cons_of_mem e h))
      fun n p x h => hlinks n p x (List.mem_cons_of_mem e h)
    obtain ⟨n, event⟩ := e
    cases event with
    | performs p target => exact .cons (.perform rfl) hrest
    | calls p x =>
      exact .cons (.call (hcalls n p x List.mem_cons_self) rfl (hresolve x)) hrest
    | links p x =>
      exact .cons (.link (hlinks n p x List.mem_cons_self) rfl (hresolve x)) hrest
    | program name => exact hrest
    | opens p => exact hrest
    | strays p found => exact hrest
    | closes p fields => exact hrest

/-- A source: its graph has the edges that its statements contribute. -/
theorem CallGraph.exists_contributed {resolved : String → String → Prop} {o : Options}
    {source : String} {g : CallGraph} (hresolve : ∀ x, resolved x (o.resolve x))
    (h : ofSource o source = .ok g) :
    ∃ edges, Contributed resolved source edges ∧
      g.edges.toList = keepEdges o.keepsRepeats edges := by
  obtain ⟨hfault, hcollects⟩ := ofSource_eq_ok h
  obtain ⟨events, program, hreads⟩ := Outline.fault_eq_none_iff.1 hfault
  have hevents : (Outline.ofSource source).events = events :=
    congrArg Outline.events (Outline.ofLinesFrom_of_reads hreads)
  refine ⟨_, ?_, hcollects.edges_eq⟩
  rw [Contributed, hevents]
  refine contributes_edges hresolve (fun n p x he => ?_) fun n p x he => ?_
  · obtain ⟨line, hline, hcaptured⟩ := hreads.capturedFrom he
    exact capturesAt_of_mem_codeFrom hline hcaptured
  · obtain ⟨line, hline, hcaptured⟩ := hreads.capturedFrom he
    exact capturesAt_of_mem_codeFrom hline hcaptured

theorem FileAnalysis.exists_ofText_eq_ok {source : String}
    (h : (Outline.ofSource source).fault = none) (c : Config) (path : String) :
    ∃ a, (ofText c path source).value = .ok a := by
  obtain ⟨g, hg⟩ := CallGraph.exists_ofSource_eq_ok (c.optionsFor source) h
  rw [CallGraph.ofSource] at hg
  unfold ofText
  simp only [hg]
  exact ⟨_, rfl⟩

/-- What the statements of a file contribute, when the names of each source have their own
meaning. -/
def SourceFile.Contributed (resolved : String → String → String → Prop) (t : FileTree)
    (f : SourceFile) (edges : List Edge) : Prop :=
  ∃ content, f.content t = .ok content ∧
    CobolCalls.Contributed (resolved (Text.Utf8.decode content)) (Text.Utf8.decode content) edges

section Files

variable {resolved : String → String → String → Prop} {c : Config} {t : FileTree}
  (hresolve : ∀ source x, resolved source x ((c.optionsFor source).resolve x))

include hresolve

theorem FileAnalysis.exists_contributed {files : List SourceFile} {analyses : List FileAnalysis}
    (h : List.Forall₂ (Yields c t) files analyses) :
    ∃ edges, List.Forall₂ (SourceFile.Contributed resolved t) files edges ∧
      (analyses.flatMap fun a => a.graph.edges.toList) =
        edges.flatMap (keepEdges c.options.keepsRepeats) := by
  induction h with
  | nil => exact ⟨[], .nil, rfl⟩
  | cons hfirst _ ih =>
    obtain ⟨others, hothers, hrest⟩ := ih
    obtain ⟨-, content, hcontent, hgraph⟩ := hfirst.path_graph
    obtain ⟨first, hcontributed, hedges⟩ := CallGraph.exists_contributed (hresolve _) hgraph
    refine ⟨first :: others, .cons ⟨content, hcontent, hcontributed⟩ hothers, ?_⟩
    rw [List.flatMap_cons, List.flatMap_cons, hedges, hrest, Config.optionsFor_keepsRepeats]

/-- An analysis: its graph has the edges that the statements of its files contribute. -/
theorem Analysis.exists_contributed {a : Analysis} (h : (run c t).outcome = .ok a) :
    ∃ files edges, (discover c t).value = .ok files ∧
      List.Forall₂ (SourceFile.Contributed resolved t) files edges ∧
      a.graph.edges.toList = keepEdges c.options.keepsRepeats edges.flatten := by
  obtain ⟨files, analyses, hfound, -, hread, rfl⟩ := run_eq_ok_iff.1 h
  obtain ⟨edges, hcontributed, hedges⟩ :=
    FileAnalysis.exists_contributed hresolve (FileAnalysis.ofFiles_eq_ok_iff.1 hread)
  refine ⟨files, edges, hfound, hcontributed, ?_⟩
  rw [merge, CallGraph.merge_edges, List.flatMap_map, hedges]
  simpa using keepEdges_flatMap c.options.keepsRepeats id edges

end Files

/-! ## Whole commands -/

namespace Session

open CommandLine

/-- Running the command is running this analysis and emitting its result. -/
structure Analyses (timing : Timing) (t : FileTree) (arguments : List String) (c : Config) :
    Prop where
  ok : ∀ a, (Analysis.run c t).outcome = .ok a → ∃ path log, c.outputPath = some path ∧
    run timing t arguments = { emit c a timing t path with log := log }
  error : ∀ e, (Analysis.run c t).outcome = .error e →
    (run timing t arguments).failure = some (.analysis e)

theorem exists_analyses {r : Reading} {arguments : List String} {renames : Dict String}
    {t : FileTree} (hread : analyzeGrammar.read arguments = .ok r)
    (hload : loadRenames t (r.value? "replace-map") = .ok renames) (timing : Timing) :
    ∃ path, Analyses timing t ("analyze" :: arguments) (configOf (analyzeOf r) path renames) := by
  have hparse : parse ("analyze" :: arguments) = .ok (.analyze (analyzeOf r)) := by
    simp only [parse, hread]
    rfl
  have hload' : loadRenames t (analyzeOf r).renameMap = .ok renames := hload
  have hrun : run timing t ("analyze" :: arguments) = analyze timing t (analyzeOf r) := by
    rw [run, hparse]
  refine ⟨(analyzeOf r).output.getD (defaultOutput t (analyzeOf r).paths (analyzeOf r).format),
    fun a ha => ?_, fun e he => ?_⟩
  · rw [hrun, analyze]
    simp only [hload', ha]
    exact ⟨_, _, rfl, rfl⟩
  · rw [hrun, analyze]
    simp only [hload', he]

/-- **Names are resolved by precedence.** Take a command `analyze` whose arguments are read and
whose rename map, if it has one, is an object of strings. Its `--replace` arguments all are
renames, and it runs an analysis in which every source that is read without fault has the edges
of its statements: a call or a link that captures a name leads to what the last `--replace` of
this name says; if there is none, to what the last member of the rename map says; if there is
none and fields are resolved, to the literal of the last declaration in the same source; and
otherwise to the name. The graph of the analysis has the edges of all its files in their order. -/
theorem run_resolves_by_precedence (timing : Timing) {t : FileTree} {arguments : List String}
    {r : Reading} {entries : List (String × String)}
    (hread : analyzeGrammar.read arguments = .ok r)
    (hmap : RenameMap t (r.value? "replace-map") entries) :
    (∀ argument ∈ r.values "replace", ∃ x y, Renames argument x y) ∧
    ∃ c : Config, Analyses timing t ("analyze" :: arguments) c ∧ c.inputs = r.positionals ∧
      (∀ path source, (Outline.ofSource source).fault = none →
        ∃ a edges, (FileAnalysis.ofText c path source).value = .ok a ∧
          Contributed (Resolved (r.values "replace") entries
            (declaring (r.has "resolve-fields") source)) source edges ∧
          a.graph.edges.toList = keepEdges (!r.has "no-duplicates") edges) ∧
      ∀ a, (Analysis.run c t).outcome = .ok a →
        ∃ files edges, (discover c t).value = .ok files ∧
          List.Forall₂ (SourceFile.Contributed (fun source => Resolved (r.values "replace") entries
            (declaring (r.has "resolve-fields") source)) t) files edges ∧
          a.graph.edges.toList = keepEdges (!r.has "no-duplicates") edges.flatten := by
  obtain ⟨path, hanalyses⟩ := exists_analyses hread (loadRenames_eq_ok hmap) timing
  have hresolve := resolved_resolve r path entries
  refine ⟨fun argument h => exists_renames_of_read hread h, _, hanalyses, rfl,
    fun file source hfault => ?_, fun a ha => Analysis.exists_contributed hresolve ha⟩
  obtain ⟨a, ha⟩ := FileAnalysis.exists_ofText_eq_ok hfault
    (configOf (analyzeOf r) path (Dict.ofList entries)) file
  obtain ⟨edges, hcontributed, hedges⟩ :=
    CallGraph.exists_contributed (hresolve source) (FileAnalysis.ofText_graph ha)
  rw [Config.optionsFor_keepsRepeats] at hedges
  exact ⟨a, edges, ha, hcontributed, hedges⟩

/-! ### A command with a chain of renames -/

/-- Each of the three places knows one of the called names, and all of them know `X`. -/
def renamedLines : List Line :=
  ["       PROGRAM-ID. P.".toList, "        01 X PIC X(8) VALUE 'T'.".toList,
    "        01 F PIC X(8) VALUE 'OLD'.".toList, "        01 F PIC X(8) VALUE 'NEW'.".toList,
    "      * 01 F PIC X(8) VALUE 'NOT'.".toList, "       1-A SECTION.".toList,
    "        CALL X".toList, "        CALL M".toList, "        CALL F".toList,
    "        CALL Z".toList, "       1-99-FIM. EXIT.".toList]

def renameMapText : String := "\x7b\"X\":\"U\",\"M\":\"L\",\"M\":\"N\"\x7d"

def renamingTree : FileTree where
  items := (Std.TreeMap.empty.insert ["A"] (.file (Text.ofLines renamedLines).toUTF8)).insert ["R"]
    (.file renameMapText.toUTF8)
  here := []

/-- The last rename of `X` leads to `Y`, which is renamed too. -/
def renamingArguments : List String :=
  ["A", "--replace", "X=V", "--replace= X = Y ", "--replace=Y=M", "--replace-map=R",
    "--resolve-fields"]

def renamingEntries : List (String × String) := [("X", "U"), ("M", "L"), ("M", "N")]

theorem read_renamingTree : renamingTree.read "R" = .ok renameMapText.toUTF8 := by
  have hname : FileTree.PlainName "R" := by constructor <;> decide
  have hitem : renamingTree.item? ["R"] = some (.file renameMapText.toUTF8) := rfl
  rw [FileTree.read, FileTree.resolve_file hname rfl hitem]
  rfl

theorem renameMap_renamingTree : RenameMap renamingTree (some "R") renamingEntries :=
  ⟨_, renameMapText, read_renamingTree, by decide, by with_unfolding_all rfl⟩

theorem exists_read_renamingArguments :
    ∃ r, analyzeGrammar.read renamingArguments = .ok r ∧
      r.values "replace" = ["X=V", " X = Y ", "Y=M"] ∧ r.value? "replace-map" = some "R" ∧
      r.has "resolve-fields" = true ∧ r.has "no-duplicates" = false := by
  have hread : ((analyzeGrammar.read renamingArguments).toOption.map fun r =>
      (r.values "replace", r.value? "replace-map", r.has "resolve-fields",
        r.has "no-duplicates")) =
      some (["X=V", " X = Y ", "Y=M"], some "R", true, false) := by decide
  cases h : analyzeGrammar.read renamingArguments with
  | error e =>
    rw [h] at hread
    cases hread
  | ok r =>
    rw [h] at hread
    simpa [Except.toOption] using hread

theorem lines_renamedLines : Text.lines (Text.ofLines renamedLines) = renamedLines := by
  have hfeeds : ∀ line ∈ renamedLines, '\n' ∉ line := by decide
  rw [Text.lines_ofLines hfeeds]
  decide

theorem outline_renamedLines :
    (Outline.ofSource (Text.ofLines renamedLines)).fault = none ∧
      ((Outline.ofSource (Text.ofLines renamedLines)).events.filter
        fun e => e.2.caller?.isSome) =
        ["X", "M", "F", "Z"].zipIdx.map fun x => (7 + x.2, .calls ⟨"P", ⟨"1", "A"⟩⟩ x.1) := by
  rw [Outline.ofSource, lines_renamedLines]
  decide

/-- The target of `X` is not looked up again, and a comment declares nothing. -/
theorem run_resolves_renamingArguments :
    ∃ (c : Config) (a : FileAnalysis),
      Analyses ⟨"", 0, ∅⟩ renamingTree ("analyze" :: renamingArguments) c ∧
      (FileAnalysis.ofText c "A" (Text.ofLines renamedLines)).value = .ok a ∧
      a.graph.edges.toList.map Edge.target = ["Y", "N", "NEW", "Z"] := by
  obtain ⟨r, hread, hvalues, hmap, hresolves, hrepeats⟩ := exists_read_renamingArguments
  obtain ⟨hfault, hevents⟩ := outline_renamedLines
  obtain ⟨-, c, hanalyses, -, hsources, -⟩ := run_resolves_by_precedence ⟨"", 0, ∅⟩ hread
    (hmap ▸ renameMap_renamingTree)
  obtain ⟨a, edges, ha, hcontributed, hedges⟩ := hsources "A" (Text.ofLines renamedLines) hfault
  refine ⟨c, a, hanalyses, ha, ?_⟩
  rw [Contributed, hevents, hvalues, hresolves, declaring, if_pos rfl, lines_renamedLines]
    at hcontributed
  have target {n : Nat} {p : Procedure} {x y : String} {e : Edge}
      (h : Contributes (Resolved ["X=V", " X = Y ", "Y=M"] renamingEntries renamedLines)
        renamedLines (n, .calls p x) e)
      (hy : Resolved ["X=V", " X = Y ", "Y=M"] renamingEntries renamedLines x y) :
      e.target = y := by
    cases h with
    | call _ _ hresolved => exact hresolved.unique hy
  obtain _ | ⟨hX, _ | ⟨hM, _ | ⟨hF, _ | ⟨hZ, ⟨⟩⟩⟩⟩⟩ := hcontributed
  rw [hedges, hrepeats]
  simp only [keepEdges, Bool.not_false, if_true, List.map_cons, List.map_nil]
  rw [target (y := "Y") hX (resolved_iff.1 (by decide +kernel)),
    target (y := "N") hM (resolved_iff.1 (by decide +kernel)),
    target (y := "NEW") hF (resolved_iff.1 (by decide +kernel)),
    target (y := "Z") hZ (resolved_iff.1 (by decide +kernel))]

end Session
end CobolCalls
