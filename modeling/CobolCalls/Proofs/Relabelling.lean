import CobolCalls.Proofs.BlockGrammar

/-
  Options relabel; they never steer the reading. A source has a call graph under all options or
  under none. If it has none, the errors are equal, but for the program in front of an
  unterminated section's name. If it has one and repeats are kept, the edges under any options
  come from those under the default options one by one: the program in force goes in front of
  sources and of performed sections, and called and linked programs are renamed.

  The outline does not look at the options, so all that is left is what the labels are. The
  program in force is said without the reader: it is named last by the parts before the section,
  of the source's split or, where a section is left open, of the split of the lines before it.
-/

namespace CobolCalls

open Statement

/-! ## Labels -/

/-- What stands in front of the names of a program's sections. -/
def Options.tag (o : Options) (program : String) : String :=
  if o.namespaced then s!"[{program}] " else ""

theorem Options.label_eq_tag (o : Options) (p : Procedure) :
    o.label p = o.tag p.program ++ p.name.label none := by
  unfold label tag
  split
  · simp [SectionName.label, String.append_assoc]
  · simp

theorem Options.idIn_eq_tag (o : Options) (program : String) (name : SectionName) :
    o.idIn (some program) name = o.tag program ++ name.label none :=
  o.label_eq_tag ⟨program, name⟩

/-- An edge under the default options, as the options `o` label it in a section of `program`. -/
def Edge.relabel (o : Options) (program : String) (e : Edge) : Edge where
  source := o.tag program ++ e.source
  target :=
    match e.kind with
    | .perform => o.tag program ++ e.target
    | .call | .remoteLink => (o.renames.get? e.target).getD e.target
  kind := e.kind

/-! ## Edges -/

/-- For each edge that the parts show, the program named last before its section. -/
def programsFrom (program : Option String) : List Part → List (Option String)
  | [] => []
  | part :: rest =>
    (part.edges {} program).map (fun _ => program) ++
      programsFrom (part.program? <|> program) rest

/-- For each edge of a split, the program in force at its section. -/
def Split.programs (s : Split) : List (Option String) := programsFrom none s.parts

theorem BodyItem.edges_relabel (o : Options) (program : String) (name : SectionName)
    (item : BodyItem) :
    item.edges o (some program) (o.idIn (some program) name) =
      (item.edges {} (some program) (({} : Options).idIn (some program) name)).map
        (Edge.relabel o program) := by
  cases item with
  | plain line noExit noLink =>
    simp only [edges, List.map_append, List.map_map, o.idIn_eq_tag]
    rfl
  | link block =>
    simp only [edges, List.map_map, o.idIn_eq_tag]
    rfl

theorem Part.edges_relabel (o : Options) (program : String) (part : Part) :
    part.edges o (some program) = (part.edges {} (some program)).map (Edge.relabel o program) := by
  cases part with
  | outside line noSection => rfl
  | procedure block =>
    rw [edges, edges, List.map_flatMap]
    exact congrArg block.body.flatMap (funext fun item => item.edges_relabel o program block.name)

/-- Every edge has a program in force, by which its labels under any options are known. -/
theorem edgesFrom_relabel {program : Option String} {parts : List Part}
    (h : HeadedFrom program parts) :
    ∃ programs, programsFrom program parts = programs.map some ∧
      programs.length = (edgesFrom {} program parts).length ∧
      ∀ o, edgesFrom o program parts =
        List.zipWith (Edge.relabel o) programs (edgesFrom {} program parts) := by
  induction parts generalizing program with
  | nil => exact ⟨[], rfl, rfl, fun o => rfl⟩
  | cons part rest ih =>
    cases part with
    | outside line noSection =>
      obtain ⟨programs, hprograms, hlength, hedges⟩ := ih h
      exact ⟨programs, hprograms, hlength, hedges⟩
    | procedure block =>
      obtain ⟨hsome, hrest⟩ := h
      obtain ⟨p, rfl⟩ := Option.isSome_iff_exists.1 hsome
      obtain ⟨programs, hprograms, hlength, hedges⟩ := ih hrest
      have hpart := fun o => (Part.procedure block).edges_relabel o p
      generalize hfirst : (Part.procedure block).edges {} (some p) = first at hpart
      refine ⟨first.map (fun _ => p) ++ programs, ?_, ?_, fun o => ?_⟩
      · rw [programsFrom, hfirst, List.map_append, List.map_map, ← hprograms]
        rfl
      · rw [edgesFrom, hfirst, List.length_append, List.length_append, List.length_map, hlength]
        rfl
      · rw [edgesFrom, edgesFrom, hfirst, hpart, List.zipWith_append (by simp),
          List.zipWith_map_left, List.zipWith_self]
        exact congrArg (first.map (Edge.relabel o p) ++ ·) (hedges o)

/-! ## Sections left open -/

namespace Block

/-- The open section and the line of its heading. -/
def heading? (block : Block) : Option (Procedure × Nat) :=
  block.open?.map fun s => (s.procedure, s.beginLine)

theorem heading?_stepLink (line : Line) (s : OpenSection) (beginLine : Nat) :
    (stepLink line s beginLine).2.heading? = some (s.procedure, s.beginLine) := by
  rw [heading?, open?_stepLink]
  rfl

/-- A section that is open after a line was open before it, or the line is its heading. -/
theorem heading?_step {block next : Block} {n k : Nat} {line : Line} {event : Option Event}
    {p : Procedure} (hstep : block.step n line = .ok (event, next))
    (h : next.heading? = some (p, k)) :
    block.heading? = some (p, k) ∨
      block = outside (some p.program) ∧ sectionBegin line = some p.name ∧ k = n := by
  cases block with
  | outside program =>
    obtain ⟨-, -, rfl⟩ | ⟨name, q, hb, rfl, -, rfl⟩ := stepOutside_cases hstep
    · cases h
    · cases h
      exact .inr ⟨rfl, hb, rfl⟩
  | inSection s =>
    left
    obtain ⟨-, -, rfl⟩ | ⟨-, hnext⟩ | ⟨-, -, -, rfl⟩ := stepSection_cases hstep
    · cases h
    · have hlink := heading?_stepLink line s n
      rw [hnext] at hlink
      exact hlink.symm.trans h
    · have hnote : some ((s.note line).procedure, (s.note line).beginLine) = some (p, k) := h
      rwa [s.note_procedure, s.note_beginLine] at hnote
  | inLink s beginLine =>
    left
    have hlink := heading?_stepLink line s beginLine
    rw [Except.ok.inj hstep] at hlink
    exact hlink.symm.trans h

end Block

/-- A section that is open in the end was open in the beginning, or its heading was read outside,
in its own program. -/
theorem Reads.heading {block after : Block} {code : List (Line × Nat)}
    {events : List (Nat × Event)} {p : Procedure} {k : Nat} (h : Reads block code events after)
    (hafter : after.heading? = some (p, k)) :
    block.heading? = some (p, k) ∨
      ∃ before line rest events', code = before ++ (line, k) :: rest ∧
        sectionBegin line = some p.name ∧
        Reads block before events' (.outside (some p.program)) := by
  induction h with
  | done => exact .inl hafter
  | @line block next after line n event rest events hstep _ ih =>
    rcases ih hafter with hnext | ⟨before, heading, rest', events', rfl, hb, hreads⟩
    · rcases Block.heading?_step hstep hnext with hblock | ⟨rfl, hb, rfl⟩
      · exact .inl hblock
      · exact .inr ⟨[], line, rest, [], rfl, hb, .done⟩
    · exact .inr ⟨(line, n) :: before, heading, rest', _, rfl, hb, .line hstep hreads⟩

/-- Line `n` of the source is the heading of the section `p.name`; the lines before it have a
split, and the last program that it names is `p.program`. -/
def HeadedAt (source : String) (n : Nat) (p : Procedure) : Prop :=
  ∃ pre line post, Text.lines source = pre ++ line :: post ∧ n = pre.length + 1 ∧
    sectionBegin line = some p.name ∧
    ∃ s : Split, s.lines = pre.filter (fun line => !isComment line) ∧
      programAfter none s.parts = some p.program

theorem headedAt_of_unterminated {source : String} {n : Nat} {p : Procedure}
    (h : (Outline.ofSource source).fault = some (.unterminatedSection n p)) :
    HeadedAt source n p := by
  rw [Outline.ofSource] at h
  rcases reads_or_stops (.outside none) (codeFrom 1 (Text.lines source)) with
    ⟨events, after, hreads⟩ | ⟨before, line, k, rest, events, middle, fault, hcode, hreads, he⟩
  · rw [Outline.ofLinesFrom_of_reads hreads] at h
    have hafter : after.heading? = some (p, n) := by
      cases after with
      | outside program => cases h
      | inSection s => cases h; rfl
      | inLink s beginLine => cases h
    rcases hreads.heading hafter with hnone | ⟨before, line, rest, events', hcode, hb, hbefore⟩
    · cases hnone
    · obtain ⟨pre, post, hlines, hn, rfl⟩ := exists_lines_of_codeFrom hcode
      obtain ⟨s, hs, hprogram⟩ := exists_split_of_reads hbefore
      rw [map_fst_codeFrom] at hs
      exact ⟨pre, line, post, hlines, by omega, hb, s, hs, hprogram⟩
  · -- a line is never this fault
    rw [Outline.ofLinesFrom_of_stops hcode hreads he] at h
    cases h
    obtain ⟨_, -, -, hfault⟩ | ⟨_, _, -, -, -, hfault⟩ := Block.step_error_cases he <;> cases hfault

namespace CallGraph

theorem exists_fault_of_error {o : Options} {source : String} {e : SourceError}
    (h : ofSource o source = .error e) :
    ∃ fault, (Outline.ofSource source).fault = some fault ∧ e = fault.error o := by
  unfold ofSource ofOutline at h
  split at h
  next fault hfault => exact ⟨fault, hfault, (Except.error.inj h).symm⟩
  next => cases h

/-- Options label the section of an unterminated one, and no other fault. -/
theorem error_relabel (o o' : Options) {source : String} {fault : Fault}
    (h : (Outline.ofSource source).fault = some fault) :
    (fault.error o = fault.error o' ∧ ∀ n id, fault.error o ≠ .unterminatedSection n id) ∨
      ∃ n p, HeadedAt source n p ∧
        fault.error o = .unterminatedSection n (o.tag p.program ++ p.name.label none) ∧
        fault.error o' = .unterminatedSection n (o'.tag p.program ++ p.name.label none) := by
  cases fault with
  | mismatchedEnd beginLine endLine expected found => exact .inl ⟨rfl, fun _ _ => nofun⟩
  | beforeProgram line found => exact .inl ⟨rfl, fun _ _ => nofun⟩
  | unterminatedLink beginLine => exact .inl ⟨rfl, fun _ _ => nofun⟩
  | unterminatedSection n p =>
    refine .inr ⟨n, p, headedAt_of_unterminated h, ?_, ?_⟩
    · rw [Fault.error, o.label_eq_tag]
    · rw [Fault.error, o'.label_eq_tag]

theorem map_kind_relabel (o : Options) {programs : List String} {edges : List Edge}
    (h : programs.length = edges.length) :
    (List.zipWith (Edge.relabel o) programs edges).map Edge.kind = edges.map Edge.kind := by
  have hkind : Edge.kind ∘ Function.uncurry (Edge.relabel o) = Edge.kind ∘ Prod.snd := rfl
  rw [← List.map_uncurry_zip_eq_zipWith, List.map_map, hkind, ← List.map_map,
    List.map_snd_zip h.ge]

/-- **Options only relabel.** Whether a source has a call graph does not depend on the options,
and neither does the error, but for the program in front of an unterminated section. If repeats
are kept, the edges are those under the default options, each with its program in front of the
sections and with its called or linked program renamed. -/
theorem options_only_relabel (o o' : Options) (source : String) :
    ((∃ g, ofSource o source = .ok g) ↔ ∃ g, ofSource o' source = .ok g) ∧
    (∀ e e', ofSource o source = .error e → ofSource o' source = .error e' →
      (e = e' ∧ ∀ n id, e ≠ .unterminatedSection n id) ∨
      ∃ n p, HeadedAt source n p ∧
        e = .unterminatedSection n (o.tag p.program ++ p.name.label none) ∧
        e' = .unterminatedSection n (o'.tag p.program ++ p.name.label none)) ∧
    (∀ g d, o.keepsRepeats = true → ofSource o source = .ok g → ofSource {} source = .ok d →
      g.edges.size = d.edges.size ∧
      g.edges.toList.map Edge.kind = d.edges.toList.map Edge.kind ∧
      ∃ (s : Split) (programs : List String), s.lines = codeLines source ∧
        s.programs = programs.map some ∧ programs.length = d.edges.size ∧
        g.edges.toList = List.zipWith (Edge.relabel o) programs d.edges.toList) := by
  refine ⟨?_, ?_, ?_⟩
  · rw [exists_ok_iff, exists_ok_iff]
  · intro e e' he he'
    obtain ⟨fault, hfault, rfl⟩ := exists_fault_of_error he
    obtain ⟨fault', hfault', rfl⟩ := exists_fault_of_error he'
    obtain rfl : fault = fault' := Option.some.inj (hfault.symm.trans hfault')
    exact error_relabel o o' hfault
  · intro g d hkeeps hg hd
    obtain ⟨s, hs⟩ := exists_split_iff.2 (ofSource_eq_ok hg).1
    obtain ⟨programs, hprograms, hlength, hedges⟩ := edgesFrom_relabel s.headedFrom
    have hd' : d.edges.toList = edgesFrom {} none s.parts := edges_eq_of_split rfl hd hs
    have hg' : g.edges.toList = List.zipWith (Edge.relabel o) programs d.edges.toList := by
      rw [hd', ← hedges]
      exact edges_eq_of_split hkeeps hg hs
    rw [← hd'] at hlength
    have hkinds := map_kind_relabel o hlength
    rw [← hg'] at hkinds
    have hsize := congrArg List.length hkinds
    rw [List.length_map, List.length_map] at hsize
    exact ⟨hsize, hkinds, s, programs, hs, hprograms, hlength, hg'⟩

/-- Sections are labelled with their program, and `X` is called `Y`. -/
def renamingOptions : Options := { namespaced := true, renames := (∅ : Dict String).insert "X" "Y" }

/-- One section in each of two programs. -/
def twoProgramSource : String :=
  "       PROGRAM-ID. P.\n       1-A SECTION.\n        PERFORM 2-B\n       1-99-FIM. EXIT.
       PROGRAM-ID. Q.\n       1-A SECTION.\n        CALL X\n       1-99-FIM. EXIT."

/-- A section without an exit. -/
def openSource : String := "       PROGRAM-ID. P.\n       1-A SECTION."

theorem ofSource_openSource (o : Options) :
    ofSource o openSource = .error (.unterminatedSection 2 (o.label ⟨"P", ⟨"1", "A"⟩⟩)) := by
  have hfault : (Outline.ofSource openSource).fault =
      some (.unterminatedSection 2 ⟨"P", ⟨"1", "A"⟩⟩) :=
    (congrArg Outline.fault (Outline.ofSource_ofList _)).trans (by decide)
  rw [ofSource, ofOutline, hfault]
  rfl

set_option maxRecDepth 2000 in
theorem renamingOptions_only_relabel :
    (∃ g d programs, ofSource renamingOptions twoProgramSource = .ok g ∧
      ofSource {} twoProgramSource = .ok d ∧ programs.length = d.edges.size ∧
      g.edges.toList =
        List.zipWith (Edge.relabel renamingOptions) programs d.edges.toList) ∧
    ∃ n p, HeadedAt openSource n p ∧
      ofSource renamingOptions openSource = .error
        (.unterminatedSection n (renamingOptions.tag p.program ++ p.name.label none)) ∧
      ofSource {} openSource = .error
        (.unterminatedSection n (({} : Options).tag p.program ++ p.name.label none)) := by
  constructor
  · have complete : (Outline.ofSource twoProgramSource).fault = none :=
      (congrArg Outline.fault (Outline.ofSource_ofList _)).trans (by decide +kernel)
    obtain ⟨g, hg⟩ := exists_ofSource_eq_ok renamingOptions complete
    obtain ⟨d, hd⟩ := exists_ofSource_eq_ok {} complete
    obtain ⟨-, -, _, programs, -, -, hlength, hedges⟩ :=
      (options_only_relabel renamingOptions {} twoProgramSource).2.2 g d rfl hg hd
    exact ⟨g, d, programs, hg, hd, hlength, hedges⟩
  · have hopen := ofSource_openSource renamingOptions
    have hopen' := ofSource_openSource {}
    obtain ⟨-, hno⟩ | ⟨n, p, hp, he, he'⟩ :=
      (options_only_relabel renamingOptions {} openSource).2.1 _ _ hopen hopen'
    · exact absurd rfl (hno _ _)
    · exact ⟨n, p, hp, hopen.trans (congrArg _ he), hopen'.trans (congrArg _ he')⟩

end CallGraph
end CobolCalls
