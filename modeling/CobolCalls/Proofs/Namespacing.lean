import CobolCalls.Proofs.Closure
import CobolCalls.Proofs.Relabelling

/-
  Sections labelled with their program are kept apart: from those of other programs, and from
  called and linked programs, whatever is merged. An id is a section's exactly if it begins with
  a bracket, and it then names one program, number and title only.

  Two arguments carry this. The label's parts are over alphabets that do not hold the characters
  which end them, so a label can be taken apart in one way (`Procedure.id_inj`). And all that
  is inserted into a graph is proper (`Event.Proper`): sections have a program that a line names,
  and other ids are written without brackets, if no rename brings one in. Without the labels an id
  may stand for a section and for a program; the first insertion would then decide its kind.
-/

namespace CobolCalls

open Statement

/-! ## Labels -/

/-- The program's name, the number and the title are over their alphabets. -/
structure Procedure.WellFormed (p : Procedure) : Prop where
  program : Over isProgramChar p.program
  name : p.name.WellFormed

/-- The id of a section that is labelled with its program. -/
def Procedure.id (p : Procedure) : String := p.name.label (some p.program)

theorem Procedure.toList_id (p : Procedure) :
    p.id.toList = '[' :: (p.program.toList ++ ']' :: ' ' ::
      (p.name.number.toList ++ '-' :: p.name.title.toList)) := by
  simp only [id, SectionName.label, String.toList_append, List.append_assoc]
  rfl

/-- A label can be taken apart in one way: the program ends at the bracket, and the number at the
first hyphen. -/
theorem Procedure.id_inj {p q : Procedure} (hp : p.WellFormed) (hq : q.WellFormed)
    (h : p.id = q.id) : p = q := by
  have hbracket {r : Procedure} (hr : r.WellFormed) :
      ∀ c ∈ r.program.toList, (c == ']') = false := hr.program.beq_eq_false (by decide)
  have hhyphen {r : Procedure} (hr : r.WellFormed) :
      ∀ c ∈ r.name.number.toList, (c == '-') = false := hr.name.number.beq_eq_false (by decide)
  have hchars := congrArg String.toList h
  rw [toList_id, toList_id] at hchars
  obtain ⟨hprogram, -, hname⟩ :=
    cut_unique (hbracket hp) (hbracket hq) rfl rfl (List.cons.inj hchars).2
  obtain ⟨hnumber, -, htitle⟩ :=
    cut_unique (hhyphen hp) (hhyphen hq) rfl rfl (List.cons.inj hname).2
  obtain ⟨program, number, title⟩ := p
  obtain ⟨program', number', title'⟩ := q
  rw [String.toList_inj] at hprogram hnumber htitle
  dsimp only at hprogram hnumber htitle
  rw [hprogram, hnumber, htitle]

/-- Whether an id is written like that of a labelled section. -/
def Bracketed (id : String) : Prop := id.toList.head? = some '['

instance : DecidablePred Bracketed := fun _ => inferInstanceAs (Decidable (_ = _))

theorem Procedure.bracketed_id (p : Procedure) : Bracketed p.id := by
  unfold Bracketed
  rw [p.toList_id]
  rfl

/-- No program is renamed to something that begins with a bracket. -/
def Options.SparesBrackets (o : Options) : Prop :=
  ∀ name value, o.renames.get? name = some value → ¬ Bracketed value

theorem not_bracketed_of_over {name : String} (h : Over isOperandChar name) : ¬ Bracketed name := by
  intro hb
  have hmem : '[' ∈ name.toList := List.mem_of_head? hb
  exact absurd (h.chars '[' hmem) (by decide)

theorem not_bracketed_resolve {o : Options} (ho : o.SparesBrackets) {target : String}
    (h : Over isOperandChar target) : ¬ Bracketed (o.resolve target) := by
  unfold Options.resolve
  cases hget : o.renames.get? target with
  | none => exact not_bracketed_of_over h
  | some value => exact ho target value hget

theorem Options.label_eq_id {o : Options} (ho : o.namespaced = true) (p : Procedure) :
    o.label p = p.id := by
  rw [label, if_pos ho]
  rfl

/-! ## What is read is proper -/

/-- The section's program is one of those named, and its name is over its alphabets. -/
structure Procedure.Proper (named : String → Prop) (p : Procedure) : Prop where
  program : named p.program
  name : p.name.WellFormed

/-- All sections and programs that the event mentions are proper. -/
def Event.Proper (named : String → Prop) : Event → Prop
  | performs p target => p.Proper named ∧ target.WellFormed
  | calls p target => p.Proper named ∧ Over isOperandChar target
  | links p target => p.Proper named ∧ Over isOperandChar target
  | closes p _ => p.Proper named
  | _ => True

/-- The program known in the block is named, and the section open in it is proper. -/
def Block.Proper (named : String → Prop) : Block → Prop
  | outside program => ∀ p, program = some p → named p
  | inSection s => s.procedure.Proper named
  | inLink s _ => s.procedure.Proper named

section Reading

variable {named : String → Prop}

theorem Event.proper_ofPlain {p : Procedure} (hp : p.Proper named) (line : Line) :
    ∀ e ∈ ofPlain p line, e.Proper named := by
  intro e he
  obtain ⟨target, htarget, rfl⟩ | ⟨target, htarget, rfl⟩ | ⟨_, -, rfl⟩ := ofPlain_cases he
  · exact ⟨hp, captures_performTarget line target htarget⟩
  · exact ⟨hp, captures_callTarget line target htarget⟩
  · trivial

theorem Block.proper_stepLink {s : OpenSection} (hs : s.procedure.Proper named) (line : Line)
    (n : Nat) :
    (stepLink line s n).2.Proper named ∧ ∀ e ∈ (stepLink line s n).1, e.Proper named := by
  unfold stepLink
  refine ⟨?_, fun e he => ?_⟩
  · dsimp only
    split
    · exact hs
    · exact hs
  · obtain ⟨target, htarget, rfl⟩ := Option.map_eq_some_iff.1 he
    -- linked programs are written without underscores, called ones need not be
    have hover : Over isOperandChar target :=
      (captures_linkProgram line target htarget).mono fun c hc => by simp [isOperandChar, hc]
    exact ⟨hs, hover⟩

/-- One line of a proper block says what is proper and leaves a proper block. -/
theorem Block.step_proper {block next : Block} {n : Nat} {line : Line} {event : Option Event}
    (hstep : block.step n line = .ok (event, next)) (hblock : block.Proper named)
    (hline : ∀ p, programId line = some p → named p) :
    next.Proper named ∧ ∀ e ∈ event, e.Proper named := by
  cases block with
  | outside program =>
    obtain ⟨-, rfl, rfl⟩ | ⟨name, p, hbegin, rfl, rfl, rfl⟩ := stepOutside_cases hstep
    · refine ⟨fun p hp => ?_, fun e he => ?_⟩
      · rcases eq_some_or_of_orElse hp with hp | hp
        · exact hline p hp
        · exact hblock p hp
      · obtain ⟨name, -, rfl⟩ := Option.map_eq_some_iff.1 he
        trivial
    · refine ⟨⟨hblock p rfl, captures_sectionBegin line name hbegin⟩, fun e he => ?_⟩
      cases he
      trivial
  | inSection s =>
    obtain ⟨-, rfl, rfl⟩ | ⟨-, hlink⟩ | ⟨-, -, rfl, rfl⟩ := stepSection_cases hstep
    · refine ⟨fun p hp => ?_, fun e he => ?_⟩
      · cases hp
        exact hblock.program
      · cases he
        exact hblock
    · have hproper := proper_stepLink hblock line n
      rwa [hlink] at hproper
    · refine ⟨?_, Event.proper_ofPlain hblock line⟩
      show (s.note line).procedure.Proper named
      rw [s.note_procedure]
      exact hblock
  | inLink s beginLine =>
    have hproper := proper_stepLink hblock line beginLine
    have hlink : stepLink line s beginLine = (event, next) := Except.ok.inj hstep
    rwa [hlink] at hproper

/-- Whatever is read from a proper block on says what is proper. -/
theorem Reads.proper {block after : Block} {code : List (Line × Nat)}
    {events : List (Nat × Event)} (h : Reads block code events after)
    (hblock : block.Proper named)
    (hcode : ∀ l ∈ code, ∀ p, programId l.1 = some p → named p) :
    ∀ e ∈ events, e.2.Proper named := by
  induction h with
  | done => simp
  | @line block next after line n event rest events hstep _ ih =>
    obtain ⟨hnext, hevent⟩ :=
      Block.step_proper hstep hblock (hcode (line, n) List.mem_cons_self)
    intro e he
    rcases List.mem_append.1 he with he | he
    · obtain ⟨e', he', rfl⟩ := Option.map_eq_some_iff.1 (Option.mem_toList.1 he)
      exact hevent e' he'
    · exact ih hnext (fun l hl => hcode l (List.mem_cons_of_mem _ hl)) e he

end Reading

/-! ## What is inserted is proper -/

/-- A section with a proper label, or another unit with an id that is none. -/
def Node.Proper (named : String → Prop) (n : Node) : Prop :=
  (n.kind = .procedure ∧ ∃ p : Procedure, p.Proper named ∧ n.id = p.id) ∨
    (n.kind ≠ .procedure ∧ ¬ Bracketed n.id)

theorem Node.Proper.procedure_iff {named : String → Prop} {n : Node} (h : n.Proper named) :
    n.kind = .procedure ↔ Bracketed n.id := by
  rcases h with ⟨hkind, p, -, hid⟩ | ⟨hkind, hid⟩
  · rw [hid]
    exact ⟨fun _ => p.bracketed_id, fun _ => hkind⟩
  · exact ⟨fun h => absurd h hkind, fun h => absurd h hid⟩

/-- From a proper section to a section of the same program, or to an id that is no section's. -/
def Edge.Proper (named : String → Prop) (e : Edge) : Prop :=
  ∃ p : Procedure, p.Proper named ∧ e.source = p.id ∧
    ((e.kind = .perform ∧ ∃ target : SectionName, target.WellFormed ∧
        e.target = Procedure.id ⟨p.program, target⟩) ∨
      (e.kind ≠ .perform ∧ ¬ Bracketed e.target))

section Inserting

variable {named : String → Prop} {o : Options} (hspaced : o.namespaced = true)
  (hspares : o.SparesBrackets)

include hspaced hspares

theorem Event.proper_nodes {event : Event} (h : event.Proper named) :
    ∀ n ∈ event.nodes o, n.Proper named := by
  intro n hn
  cases event <;> simp only [nodes, List.mem_singleton, List.not_mem_nil] at hn <;> subst hn
  case performs p target =>
    exact .inl ⟨rfl, ⟨p.program, target⟩, ⟨h.1.program, h.2⟩, o.label_eq_id hspaced _⟩
  case calls p target => exact .inr ⟨by simp, not_bracketed_resolve hspares h.2⟩
  case links p target => exact .inr ⟨by simp, not_bracketed_resolve hspares h.2⟩
  case closes p fields => exact .inl ⟨rfl, p, h, o.label_eq_id hspaced p⟩

theorem Event.proper_edges {event : Event} (h : event.Proper named) :
    ∀ e ∈ event.edges o, e.Proper named := by
  intro e he
  cases event <;> simp only [edges, List.mem_singleton, List.not_mem_nil] at he <;> subst he
  case performs p target =>
    exact ⟨p, h.1, o.label_eq_id hspaced p, .inl ⟨rfl, target, h.2, o.label_eq_id hspaced _⟩⟩
  case calls p target =>
    exact ⟨p, h.1, o.label_eq_id hspaced p, .inr ⟨by simp, not_bracketed_resolve hspares h.2⟩⟩
  case links p target =>
    exact ⟨p, h.1, o.label_eq_id hspaced p, .inr ⟨by simp, not_bracketed_resolve hspares h.2⟩⟩

end Inserting

namespace CallGraph

/-- A closed graph in which all nodes and edges are proper. -/
structure Proper (named : String → Prop) (g : CallGraph) : Prop where
  closed : g.Closed
  nodes : ∀ n ∈ g.nodes, n.Proper named
  edges : ∀ e ∈ g.edges, e.Proper named

/-- A line of one of the sources is the heading of this program. -/
def NamedIn (sources : List String) (program : String) : Prop :=
  ∃ source ∈ sources, ∃ line ∈ Text.lines source, programId line = some program

theorem proper_ofSource {o : Options} {sources : List String} {source : String} {g : CallGraph}
    (hspaced : o.namespaced = true) (hspares : o.SparesBrackets) (hsource : source ∈ sources)
    (h : ofSource o source = .ok g) : g.Proper (NamedIn sources) := by
  obtain ⟨hfault, hcollects⟩ := ofSource_eq_ok h
  have hevents : ∀ e ∈ (Outline.ofSource source).events, e.2.Proper (NamedIn sources) := by
    obtain ⟨events, program, hreads⟩ := Outline.fault_eq_none_iff.1 hfault
    rw [Outline.ofSource, Outline.ofLinesFrom_of_reads hreads]
    have hstart : (Block.outside none).Proper (NamedIn sources) := by
      intro p hp
      cases hp
    refine hreads.proper hstart fun l hl p hp => ?_
    have hcode : l.1 ∈ codeLines source := by
      rw [codeLines, ← map_fst_codeFrom 1]
      exact List.mem_map_of_mem hl
    exact ⟨source, hsource, l.1, List.mem_of_mem_filter hcode, hp⟩
  refine ⟨closed_ofSource h, fun n hn => ?_, fun e he => ?_⟩
  · obtain ⟨event, hevent, hn⟩ := List.mem_flatMap.1 (hcollects.mem_of_mem_nodes hn)
    exact Event.proper_nodes hspaced hspares (hevents event hevent) n hn
  · obtain ⟨event, hevent, he⟩ := List.mem_flatMap.1 (hcollects.mem_of_mem_edges he)
    exact Event.proper_edges hspaced hspares (hevents event hevent) e he

theorem proper_merge {named : String → Prop} (repeats : Bool) {graphs : List CallGraph}
    (h : ∀ g ∈ graphs, g.Proper named) : (merge repeats graphs).Proper named := by
  have hcollects := collects_merge repeats graphs
  refine ⟨closed_merge repeats fun g hg => (h g hg).closed, fun n hn => ?_, fun e he => ?_⟩
  · obtain ⟨g, hg, hn⟩ := List.mem_flatMap.1 (hcollects.mem_of_mem_nodes hn)
    obtain ⟨m, hm, rfl⟩ := List.mem_map.1 hn
    -- merging may change the name of a node, at which nobody looks here
    exact (h g hg).nodes m (Array.mem_toList_iff.1 hm)
  · obtain ⟨g, hg, he⟩ := List.mem_flatMap.1 (hcollects.mem_of_mem_edges he)
    exact (h g hg).edges e (Array.mem_toList_iff.1 he)

/-! ## Kept apart -/

/-- One of the parts, or whatever such graphs are merged into. -/
inductive MergedFrom (parts : List CallGraph) : CallGraph → Prop where
  | part {g : CallGraph} : g ∈ parts → MergedFrom parts g
  | merge (repeats : Bool) {graphs : List CallGraph} :
      (∀ g ∈ graphs, MergedFrom parts g) → MergedFrom parts (merge repeats graphs)

/-- Sections are told apart from other units and from the sections of other programs. -/
structure KeptApart (sources : List String) (g : CallGraph) : Prop where
  /-- A node is a section exactly if its id begins with a bracket. -/
  procedure_iff : ∀ n ∈ g.nodes, n.kind = .procedure ↔ n.id.toList.head? = some '['
  /-- Its id is then the label of exactly one section, in a program that a line names. -/
  label_unique : ∀ n ∈ g.nodes, n.kind = .procedure →
    ∃ p : Procedure, p.WellFormed ∧ n.id = p.name.label (some p.program) ∧
      (∀ q : Procedure, q.WellFormed → n.id = q.name.label (some q.program) → q = p) ∧
      NamedIn sources p.program
  source_procedure : ∀ e ∈ g.edges, ∃ n ∈ g.nodes, n.id = e.source ∧ n.kind = .procedure
  /-- A section performs sections of its own program. -/
  perform_within : ∀ e ∈ g.edges, e.kind = .perform →
    ∃ (program : String) (s t : SectionName),
      Procedure.WellFormed ⟨program, s⟩ ∧ Procedure.WellFormed ⟨program, t⟩ ∧
      e.source = s.label (some program) ∧ e.target = t.label (some program) ∧
      ∃ n ∈ g.nodes, n.id = e.target ∧ n.kind = .procedure
  call_outside : ∀ e ∈ g.edges, e.kind = .call ∨ e.kind = .remoteLink →
    ∃ n ∈ g.nodes, n.id = e.target ∧ n.kind ≠ .procedure

theorem wellFormed_of_proper {sources : List String} {p : Procedure}
    (h : p.Proper (NamedIn sources)) : p.WellFormed := by
  obtain ⟨_, -, line, -, hprogram⟩ := h.program
  exact ⟨captures_programId line p.program hprogram, h.name⟩

theorem Proper.keptApart {sources : List String} {g : CallGraph} (h : g.Proper (NamedIn sources)) :
    KeptApart sources g where
  procedure_iff n hn := (h.nodes n hn).procedure_iff
  label_unique n hn hkind := by
    rcases h.nodes n hn with ⟨-, p, hp, hid⟩ | ⟨hother, -⟩
    · refine ⟨p, wellFormed_of_proper hp, hid, fun q hq hq' => ?_, hp.program⟩
      exact Procedure.id_inj hq (wellFormed_of_proper hp) (hq'.symm.trans hid)
    · exact absurd hkind hother
  source_procedure e he := by
    obtain ⟨p, -, hsource, -⟩ := h.edges e he
    obtain ⟨⟨n, hn, hid⟩, -⟩ := h.closed e he
    refine ⟨n, hn, hid, (h.nodes n hn).procedure_iff.2 ?_⟩
    rw [hid, hsource]
    exact p.bracketed_id
  perform_within e he hkind := by
    obtain ⟨p, hp, hsource, ⟨-, t, ht, htarget⟩ | ⟨hother, -⟩⟩ := h.edges e he
    · have hwf := wellFormed_of_proper hp
      obtain ⟨-, n, hn, hid⟩ := h.closed e he
      refine ⟨p.program, p.name, t, hwf, ⟨hwf.program, ht⟩, hsource, htarget, n, hn, hid, ?_⟩
      rw [(h.nodes n hn).procedure_iff, hid, htarget]
      exact Procedure.bracketed_id _
    · exact absurd hkind hother
  call_outside e he hkind := by
    obtain ⟨p, hp, -, ⟨hperform, -⟩ | ⟨-, htarget⟩⟩ := h.edges e he
    · rw [hperform] at hkind
      exact hkind.elim nofun nofun
    · obtain ⟨-, n, hn, hid⟩ := h.closed e he
      refine ⟨n, hn, hid, fun hprocedure => htarget ?_⟩
      rw [← hid]
      exact (h.nodes n hn).procedure_iff.1 hprocedure

/-- **Labels with programs keep programs and kinds of unit apart.** If sections are labelled with
their programs and no rename begins with a bracket, then in every graph of a source, and in
whatever these are merged into, a bracket at its beginning tells a section's id; it names one
program, number and title, and the program is that of a line of a source; edges start at sections,
sections perform sections of their own program, and what they call or link to is no section. -/
theorem merged_graphs_kept_apart {sources : List String} {graphs : List CallGraph} {g : CallGraph}
    (h : ∀ part ∈ graphs, ∃ source ∈ sources, ∃ o : Options,
      o.namespaced = true ∧ o.SparesBrackets ∧ ofSource o source = .ok part)
    (hg : MergedFrom graphs g) : KeptApart sources g := by
  -- merging preserves that nodes and edges are proper; the rest follows in the end
  have hproper : g.Proper (NamedIn sources) := by
    induction hg with
    | part hmem =>
      obtain ⟨source, hsource, o, hspaced, hspares, hok⟩ := h _ hmem
      exact proper_ofSource hspaced hspares hsource hok
    | merge repeats _ ih => exact proper_merge repeats ih
  exact hproper.keptApart

theorem sparesBrackets_renamingOptions : renamingOptions.SparesBrackets := by
  intro name value hget
  have hlookup : List.lookup name [("X", "Y")] = some value := hget
  rw [List.lookup_cons] at hlookup
  split at hlookup
  · cases hlookup
    decide
  · cases hlookup

set_option maxRecDepth 2000 in
theorem outline_twoProgramSource : Outline.ofSource twoProgramSource =
    ⟨[(1, .program "P"), (2, .opens ⟨"P", ⟨"1", "A"⟩⟩),
      (3, .performs ⟨"P", ⟨"1", "A"⟩⟩ ⟨"2", "B"⟩), (4, .closes ⟨"P", ⟨"1", "A"⟩⟩ ∅),
      (5, .program "Q"), (6, .opens ⟨"Q", ⟨"1", "A"⟩⟩), (7, .calls ⟨"Q", ⟨"1", "A"⟩⟩ "X"),
      (8, .closes ⟨"Q", ⟨"1", "A"⟩⟩ ∅)], none⟩ :=
  (Outline.ofSource_ofList _).trans (by decide)

theorem twoProgramSource_kept_apart :
    ∃ g, ofSource renamingOptions twoProgramSource = .ok g ∧
      (∃ n ∈ g.nodes, n.id = "[P] 1-A") ∧ (∃ n ∈ g.nodes, n.id = "[Q] 1-A") ∧
      KeptApart [twoProgramSource] (merge false [g, merge true [g, g]]) := by
  obtain ⟨g, hg⟩ := exists_ofSource_eq_ok renamingOptions
    (congrArg Outline.fault outline_twoProgramSource)
  have hcollects := (ofSource_eq_ok hg).2
  rw [outline_twoProgramSource] at hcollects
  have hpart : ∀ part ∈ [g], ∃ source ∈ [twoProgramSource], ∃ o : Options,
      o.namespaced = true ∧ o.SparesBrackets ∧ ofSource o source = .ok part := by
    intro part hmem
    rw [List.mem_singleton.1 hmem]
    exact ⟨twoProgramSource, List.mem_singleton_self _, renamingOptions, rfl,
      sparesBrackets_renamingOptions, hg⟩
  have hmerged : MergedFrom [g] (merge false [g, merge true [g, g]]) := by
    have hg' : MergedFrom [g] g := .part (List.mem_singleton_self g)
    refine .merge false fun part hmem => ?_
    rcases List.mem_pair.1 hmem with rfl | rfl
    · exact hg'
    · exact .merge true (by simpa using hg')
  exact ⟨g, hg, hcollects.exists_node (by decide +kernel),
    hcollects.exists_node (by decide +kernel), merged_graphs_kept_apart hpart hmerged⟩

end CallGraph
end CobolCalls
