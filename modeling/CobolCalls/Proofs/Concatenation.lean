import CobolCalls.Proofs.LineEnds
import CobolCalls.Proofs.Merging

/-
  Texts one after the other. Joined by line feeds, texts that each have a call graph have one
  together, and it holds what merging their graphs holds.

  Three things could get in the way. The line feed that joins two texts closes a last line that
  ended with the text, so it may take a carriage return from it; blanks at the end of a line are
  never looked at. The program named last in one text is still known in the next, and lines have
  other numbers there; `Block.Resumes` relates the two readings of a text, which say the same.
  And repeats are dropped twice, in each graph and in the merged one, but once is enough.
-/

namespace CobolCalls

open Statement

/-! ## Lines of joined texts -/

namespace Text

/-- A line feed cuts the text in two. -/
theorem linesAfter_append_feed (before text rest : List Char) :
    linesAfter before (text ++ '\n' :: rest) =
      linesAfter before (text ++ ['\n']) ++ linesAfter [] rest := by
  induction text generalizing before with
  | nil => rfl
  | cons c text ih =>
    by_cases hc : c = '\n'
    · subst hc
      exact congrArg (closeLine before :: ·) (ih [])
    · rw [List.cons_append, List.cons_append, linesAfter_cons hc, linesAfter_cons hc, ih]

/-- A line feed at the end adds an empty line, or it closes the last one. -/
theorem linesAfter_concat_feed (before text : List Char) :
    linesAfter before (text ++ ['\n']) = linesAfter before text ++ [[]] ∨
      ∃ lines last closed, linesAfter before text = lines ++ [last] ∧
        linesAfter before (text ++ ['\n']) = lines ++ [closed] ∧
        (last = closed ∨ last = closed ++ ['\r']) := by
  induction text generalizing before with
  | nil =>
    cases before with
    | nil => exact .inl rfl
    | cons c before =>
      exact .inr ⟨[], (c :: before).reverse, closeLine (c :: before), rfl, rfl,
        closeLine_cases (c :: before)⟩
  | cons c text ih =>
    by_cases hc : c = '\n'
    · subst hc
      rcases ih [] with h | ⟨lines, last, closed, hlines, hclosed, heq⟩
      · exact .inl (congrArg (closeLine before :: ·) h)
      · exact .inr ⟨closeLine before :: lines, last, closed,
          congrArg (closeLine before :: ·) hlines, congrArg (closeLine before :: ·) hclosed, heq⟩
    · rw [List.cons_append, linesAfter_cons hc, linesAfter_cons hc]
      exact ih (c :: before)

end Text

/-- A source says the same with a line feed after it. -/
theorem Outline.ofLinesFrom_concat_feed (source : String) :
    ofLinesFrom 1 (.outside none) (Text.linesAfter [] (source.toList ++ ['\n'])) =
      ofSource source := by
  rcases Text.linesAfter_concat_feed [] source.toList with
    heq | ⟨lines, last, closed, hlines, hclosed, hlast⟩
  · rw [heq]
    exact ofLinesFrom_append_blank (by simp [blank_nil]) _ 1 _
  · have halike : Alike last closed := by
      rcases hlast with rfl | rfl
      · exact .refl last
      · exact alike_append_blank closed (by simp [Blank, Text.isBlank])
    rw [ofSource, Text.lines, hlines, hclosed]
    refine (ofLinesFrom_alike (List.rel_append ?_ (.cons halike .nil)) 1 _).symm
    exact List.forall₂_same.2 fun line _ => .refl line

/-! ## Reading behind other lines -/

/-- The second block is the first one met behind other lines: they may have named a program where
none is known, and lines have other numbers. -/
inductive Block.Resumes : Block → Block → Prop where
  | unnamed (program : Option String) : Resumes (outside none) (outside program)
  | named (program : String) : Resumes (outside (some program)) (outside (some program))
  | inSection (p : Procedure) (fields : Dict (List String)) (n n' : Nat) :
      Resumes (inSection ⟨p, n, fields⟩) (inSection ⟨p, n', fields⟩)
  | inLink (p : Procedure) (fields : Dict (List String)) (n n' k k' : Nat) :
      Resumes (inLink ⟨p, n, fields⟩ k) (inLink ⟨p, n', fields⟩ k')

namespace Block

theorem Resumes.note {p : Procedure} {fields : Dict (List String)} (n n' : Nat) (line : Line) :
    Resumes (.inSection (OpenSection.note ⟨p, n, fields⟩ line))
      (.inSection (OpenSection.note ⟨p, n', fields⟩ line)) := by
  unfold OpenSection.note
  split
  · exact .inSection p _ n n'
  · exact .inSection p fields n n'

theorem Resumes.stepLink {p : Procedure} {fields : Dict (List String)} {n k : Nat} {line : Line}
    {event : Option Event} {next : Block}
    (h : Block.stepLink line ⟨p, n, fields⟩ k = (event, next)) (n' k' : Nat) :
    ∃ next', Block.stepLink line ⟨p, n', fields⟩ k' = (event, next') ∧ Resumes next next' := by
  obtain ⟨rfl, rfl⟩ := Prod.mk.inj h
  refine ⟨_, rfl, ?_⟩
  split
  · exact .inSection p fields n n'
  · exact .inLink p fields n n' k k'

/-- One line says the same in both blocks, and leaves blocks of the same kind. -/
theorem Resumes.step {block block' next : Block} {n : Nat} {line : Line} {event : Option Event}
    (h : Resumes block block') (hstep : block.step n line = .ok (event, next)) (n' : Nat) :
    ∃ next', block'.step n' line = .ok (event, next') ∧ Resumes next next' := by
  cases h with
  | unnamed program =>
    obtain ⟨hb, rfl, rfl⟩ | ⟨name, p, hb, hnone, -⟩ := stepOutside_cases hstep
    · refine ⟨_, stepOutside_outside hb n' program, ?_⟩
      cases programId line with
      | none => exact .unnamed program
      | some name => exact .named name
    · cases hnone
  | named program =>
    obtain ⟨hb, rfl, rfl⟩ | ⟨name, p, hb, hsome, rfl, rfl⟩ := stepOutside_cases hstep
    · refine ⟨_, stepOutside_outside hb n' (some program), ?_⟩
      cases programId line with
      | none => exact .named program
      | some name => exact .named name
    · cases hsome
      exact ⟨_, stepOutside_section hb n' program, .inSection _ _ n n'⟩
  | inSection p fields k k' =>
    obtain ⟨hexit, rfl, rfl⟩ | ⟨hlink, hnext⟩ | ⟨hexit, hlink, rfl, rfl⟩ := stepSection_cases hstep
    · exact ⟨_, stepSection_exit (s := ⟨p, k', fields⟩) hexit n', .named p.program⟩
    · obtain ⟨next', hnext', hresumes⟩ := Resumes.stepLink hnext k' n'
      exact ⟨next', (stepSection_link hlink n' _).trans (congrArg Except.ok hnext'), hresumes⟩
    · exact ⟨_, stepSection_plain hexit hlink n' _, .note k k' line⟩
  | inLink p fields k k' j j' =>
    obtain ⟨next', hnext', hresumes⟩ := Resumes.stepLink (Except.ok.inj hstep) k' j'
    exact ⟨next', congrArg Except.ok hnext', hresumes⟩

end Block

/-- What is read says the same behind other lines. -/
theorem Reads.resume {block block' after : Block} {code code' : List (Line × Nat)}
    {events : List (Nat × Event)} (h : Reads block code events after)
    (hblock : block.Resumes block') (hcode : code'.map Prod.fst = code.map Prod.fst) :
    ∃ events' after', Reads block' code' events' after' ∧ after.Resumes after' ∧
      events'.map Prod.snd = events.map Prod.snd := by
  induction h generalizing block' code' with
  | done =>
    obtain rfl := List.map_eq_nil_iff.1 hcode
    exact ⟨[], block', .done, hblock, rfl⟩
  | @line block next after line n event rest events hstep _ ih =>
    obtain ⟨⟨_, n'⟩, rest', rfl, rfl, hrest⟩ := List.map_eq_cons_iff.1 hcode
    obtain ⟨next', hstep', hnext⟩ := hblock.step hstep n'
    obtain ⟨events', after', hreads, hafter, hevents⟩ := ih hnext hrest
    refine ⟨_, after', .line hstep' hreads, hafter, ?_⟩
    rw [List.map_append, List.map_append, hevents]
    cases event <;> rfl

theorem Outline.reads_behind {lines : List Line}
    (h : (ofLinesFrom 1 (.outside none) lines).fault = none) (n : Nat) (program : Option String) :
    ∃ events program', Reads (.outside program) (codeFrom n lines) events (.outside program') ∧
      events.map Prod.snd = (ofLinesFrom 1 (.outside none) lines).events.map Prod.snd := by
  obtain ⟨events, last, hreads⟩ := fault_eq_none_iff.1 h
  have hcode : (codeFrom n lines).map Prod.fst = (codeFrom 1 lines).map Prod.fst := by
    rw [map_fst_codeFrom, map_fst_codeFrom]
  obtain ⟨events', after, hreads', hafter, hevents⟩ := hreads.resume (.unnamed program) hcode
  rw [ofLinesFrom_of_reads hreads]
  cases hafter <;> exact ⟨events', _, hreads', hevents⟩

theorem Text.lines_join (source joined : String) :
    lines (source ++ "\n" ++ joined) =
      linesAfter [] (source.toList ++ ['\n']) ++ lines joined := by
  rw [lines, String.toList_append, String.toList_append, List.append_assoc]
  exact linesAfter_append_feed [] source.toList joined.toList

/-- Behind any lines, joined sources say what they say one by one. -/
theorem reads_intercalate {sources : List String}
    (h : ∀ source ∈ sources, (Outline.ofSource source).fault = none) (n : Nat)
    (program : Option String) :
    ∃ events program',
      Reads (.outside program) (codeFrom n (Text.lines ("\n".intercalate sources))) events
        (.outside program') ∧
      events.map Prod.snd =
        sources.flatMap fun source => (Outline.ofSource source).events.map Prod.snd := by
  induction sources generalizing n program with
  | nil =>
    refine ⟨[], program, ?_, rfl⟩
    rw [String.intercalate_nil]
    exact .done
  | cons source rest ih =>
    have hfirst := h source List.mem_cons_self
    have hrest := fun s hs => h s (List.mem_cons_of_mem source hs)
    cases rest with
    | nil =>
      rw [String.intercalate_singleton, List.flatMap_singleton]
      exact Outline.reads_behind hfirst n program
    | cons next others =>
      have hfeed := Outline.ofLinesFrom_concat_feed source
      obtain ⟨events, middle, hreads, hevents⟩ :=
        Outline.reads_behind (hfeed ▸ hfirst) n program
      obtain ⟨events', program', hreads', hevents'⟩ := ih hrest _ middle
      rw [String.intercalate_cons_cons, Text.lines_join, codeFrom_append, List.flatMap_cons]
      refine ⟨_, program', hreads.append hreads', ?_⟩
      rw [List.map_append, hevents, hevents', hfeed]

theorem flatMap_events {α : Type} {sources : List String} {events : List (Nat × Event)}
    (h : events.map Prod.snd =
      sources.flatMap fun source => (Outline.ofSource source).events.map Prod.snd)
    (f : Event → List α) :
    (events.flatMap fun e => f e.2) =
      sources.flatMap fun source => (Outline.ofSource source).events.flatMap fun e => f e.2 := by
  rw [← List.flatMap_map, h, List.flatMap_assoc]
  simp only [List.flatMap_map]

/-! ## Graphs of the parts -/

namespace CallGraph

/-- **Merging agrees with joining.** If each source has a call graph, the sources joined by line
feeds have one too, and its nodes and its edges are those of the merged graphs. -/
theorem ofSource_intercalate_eq_merge (o : Options) (sources : List String)
    (graphs : List CallGraph)
    (h : List.Forall₂ (fun source g => ofSource o source = .ok g) sources graphs) :
    ∃ g, ofSource o ("\n".intercalate sources) = .ok g ∧
      g.nodes = (merge o.keepsRepeats graphs).nodes ∧
      g.edges = (merge o.keepsRepeats graphs).edges := by
  obtain ⟨hcomplete, hgraphs⟩ :=
    (List.forall₂_and_left ..).1 (h.imp fun _ _ hg => ofSource_eq_ok hg)
  obtain ⟨events, program, hreads, hevents⟩ := reads_intercalate hcomplete 1 none
  have houtline : Outline.ofSource ("\n".intercalate sources) = ⟨events, none⟩ :=
    Outline.ofLinesFrom_of_reads hreads
  obtain ⟨g, hg⟩ := exists_ofSource_eq_ok o (congrArg Outline.fault houtline)
  have hjoined := (ofSource_eq_ok hg).2
  rw [houtline, flatMap_events hevents (Event.nodes o), flatMap_events hevents (Event.edges o)]
    at hjoined
  have named : ∀ source, ∀ n ∈ (Outline.ofSource source).events.flatMap fun e => e.2.nodes o,
      n.name = n.id := by
    intro source n hn
    obtain ⟨e, -, hn⟩ := List.mem_flatMap.1 hn
    exact Event.name_eq_id_of_mem_nodes hn
  obtain ⟨hnodes, hedges⟩ := merge_of_parts named hgraphs
  refine ⟨g, hg, ?_, ?_⟩
  · rw [← Array.toList_inj, hjoined.nodes_eq, hnodes]
  · rw [← Array.toList_inj, hjoined.edges_eq, hedges]

/-- Ends within a line, after a carriage return. -/
def returnedSource : String :=
  "       PROGRAM-ID. P.\n       1-A SECTION.\n        CALL X\n       1-99-FIM. EXIT.\r"

/-- Opens a section of the same name, with the same call. -/
def repeatedSource : String :=
  "       PROGRAM-ID. Q.\n       1-A SECTION.\n        CALL X\n       1-99-FIM. EXIT.\n"

set_option maxRecDepth 2000 in
theorem returned_repeated_eq_merge :
    ∃ g₁ g₂ g, ofSource { keepsRepeats := false } returnedSource = .ok g₁ ∧
      ofSource { keepsRepeats := false } repeatedSource = .ok g₂ ∧
      ofSource { keepsRepeats := false } ("\n".intercalate [returnedSource, repeatedSource]) =
        .ok g ∧
      g.nodes = (merge false [g₁, g₂]).nodes ∧ g.edges = (merge false [g₁, g₂]).edges := by
  have hfirst : (Outline.ofSource returnedSource).fault = none :=
    (congrArg Outline.fault (Outline.ofSource_ofList _)).trans (by decide +kernel)
  have hsecond : (Outline.ofSource repeatedSource).fault = none :=
    (congrArg Outline.fault (Outline.ofSource_ofList _)).trans (by decide +kernel)
  obtain ⟨g₁, hg₁⟩ := exists_ofSource_eq_ok { keepsRepeats := false } hfirst
  obtain ⟨g₂, hg₂⟩ := exists_ofSource_eq_ok { keepsRepeats := false } hsecond
  obtain ⟨g, hg, hnodes, hedges⟩ :=
    ofSource_intercalate_eq_merge _ [returnedSource, repeatedSource] [g₁, g₂]
      (.cons hg₁ (.cons hg₂ .nil))
  exact ⟨g₁, g₂, g, hg₁, hg₂, hg, hnodes, hedges⟩

end CallGraph
end CobolCalls
