import CobolCalls.Outline
import CobolCalls.Proofs.Recognition

/-
  Reading lines without a fault, as a relation between the blocks before and after. Comments are
  taken out first, and every line that stays keeps its number, so the relation has one rule for a
  line. It composes: lines read one after the other are read together.

  What one line does is said here once for each block. Inside a section there are three kinds of
  lines, told apart by two recognisers: an exit, the beginning of a link block, and a plain line.
-/

namespace CobolCalls

open Statement

/-- The lines that are no comments, with their numbers from `n` on. -/
def codeFrom (n : Nat) (lines : List Line) : List (Line × Nat) :=
  (lines.zipIdx n).filter fun l => !isComment l.1

theorem codeFrom_cons_of_comment {line : Line} (h : isComment line = true) (n : Nat)
    (rest : List Line) : codeFrom n (line :: rest) = codeFrom (n + 1) rest := by
  simp [codeFrom, h]

theorem codeFrom_cons_of_code {line : Line} (h : isComment line = false) (n : Nat)
    (rest : List Line) : codeFrom n (line :: rest) = (line, n) :: codeFrom (n + 1) rest := by
  simp [codeFrom, h]

theorem codeFrom_append (n : Nat) (lines more : List Line) :
    codeFrom n (lines ++ more) = codeFrom n lines ++ codeFrom (n + lines.length) more := by
  simp [codeFrom, List.zipIdx_append]

/-- A line that is no comment has as many lines before it as its number says. -/
theorem exists_lines_of_codeFrom {n k : Nat} {lines : List Line} {line : Line}
    {before rest : List (Line × Nat)} (h : codeFrom n lines = before ++ (line, k) :: rest) :
    ∃ pre post, lines = pre ++ line :: post ∧ k = n + pre.length ∧ codeFrom n pre = before := by
  induction lines generalizing n before with
  | nil => simp [codeFrom] at h
  | cons l lines ih =>
    cases hc : isComment l with
    | true =>
      rw [codeFrom_cons_of_comment hc] at h
      obtain ⟨pre, post, rfl, rfl, rfl⟩ := ih h
      have hlength : n + 1 + pre.length = n + (l :: pre).length := by
        rw [List.length_cons]
        omega
      exact ⟨l :: pre, post, rfl, hlength, codeFrom_cons_of_comment hc n pre⟩
    | false =>
      rw [codeFrom_cons_of_code hc] at h
      cases before with
      | nil =>
        obtain ⟨heq, -⟩ := List.cons.inj h
        cases heq
        exact ⟨[], lines, rfl, rfl, rfl⟩
      | cons b before =>
        obtain ⟨rfl, htail⟩ := List.cons.inj h
        obtain ⟨pre, post, rfl, rfl, rfl⟩ := ih htail
        have hlength : n + 1 + pre.length = n + (l :: pre).length := by
          rw [List.length_cons]
          omega
        exact ⟨l :: pre, post, rfl, hlength, codeFrom_cons_of_code hc n pre⟩

/-- The lines of a source that are no comments. -/
def codeLines (source : String) : List Line :=
  (Text.lines source).filter fun line => !isComment line

theorem map_fst_codeFrom (n : Nat) (lines : List Line) :
    (codeFrom n lines).map Prod.fst = lines.filter fun line => !isComment line := by
  induction lines generalizing n with
  | nil => rfl
  | cons line rest ih =>
    cases h : isComment line with
    | true => rw [codeFrom_cons_of_comment h, ih]; simp [h]
    | false => rw [codeFrom_cons_of_code h, List.map_cons, ih]; simp [h]

/-! ## One line -/

/-- What a plain line of a section's body says. -/
def Event.ofPlain (p : Procedure) (line : Line) : Option Event :=
  (performTarget line).map (.performs p) <|> (callTarget line).map (.calls p) <|>
    (sectionBegin line).map (.strays p)

/-- All that a plain line can say. -/
theorem Event.ofPlain_cases {p : Procedure} {line : Line} {e : Event}
    (h : ofPlain p line = some e) :
    (∃ target, performTarget line = some target ∧ e = .performs p target) ∨
      (∃ target, callTarget line = some target ∧ e = .calls p target) ∨
      ∃ found, sectionBegin line = some found ∧ e = .strays p found := by
  rcases eq_some_or_of_orElse h with h | h
  · obtain ⟨target, htarget, rfl⟩ := Option.map_eq_some_iff.1 h
    exact .inl ⟨target, htarget, rfl⟩
  · rcases eq_some_or_of_orElse h with h | h
    · obtain ⟨target, htarget, rfl⟩ := Option.map_eq_some_iff.1 h
      exact .inr (.inl ⟨target, htarget, rfl⟩)
    · obtain ⟨found, hfound, rfl⟩ := Option.map_eq_some_iff.1 h
      exact .inr (.inr ⟨found, hfound, rfl⟩)

/-- What a plain line of the body changes: a literal may be moved to a field. -/
def OpenSection.note (s : OpenSection) (line : Line) : OpenSection :=
  match assignment line with
  | some (value, field) => s.assign value field
  | none => s

@[simp] theorem OpenSection.note_procedure (s : OpenSection) (line : Line) :
    (s.note line).procedure = s.procedure := by
  unfold note
  split <;> rfl

@[simp] theorem OpenSection.note_beginLine (s : OpenSection) (line : Line) :
    (s.note line).beginLine = s.beginLine := by
  unfold note
  split <;> rfl

namespace Block

theorem stepOutside_section {line : Line} {name : SectionName} (h : sectionBegin line = some name)
    (n : Nat) (program : String) :
    stepOutside n line (some program) =
      .ok (some (.opens ⟨program, name⟩), inSection ⟨⟨program, name⟩, n, ∅⟩) := by
  simp [stepOutside, h, programId_eq_none_of_sectionBegin h]

/-- A line outside that opens no section leaves at most another program behind. -/
theorem stepOutside_outside {line : Line} (h : sectionBegin line = none) (n : Nat)
    (program : Option String) :
    stepOutside n line program =
      .ok ((programId line).map .program, outside (programId line <|> program)) := by
  cases hp : programId line with
  | some name => simp [stepOutside, hp]
  | none => simp [stepOutside, hp, h]

theorem stepOutside_error {line : Line} {name : SectionName} (h : sectionBegin line = some name)
    (n : Nat) : stepOutside n line none = .error (.beforeProgram n name) := by
  simp [stepOutside, h, programId_eq_none_of_sectionBegin h]

theorem stepSection_exit {line : Line} {s : OpenSection}
    (h : sectionExit line = some s.procedure.name.number) (n : Nat) :
    stepSection n line s =
      .ok (some (.closes s.procedure s.fields), outside (some s.procedure.program)) := by
  simp [stepSection, h]

theorem stepSection_mismatch {line : Line} {s : OpenSection} {number : String}
    (h : sectionExit line = some number) (hne : number ≠ s.procedure.name.number) (n : Nat) :
    stepSection n line s =
      .error (.mismatchedEnd s.beginLine n s.procedure.name.number number) := by
  simp [stepSection, h, hne]

theorem stepSection_link {line : Line} (h : isLinkBegin line = true) (n : Nat) (s : OpenSection) :
    stepSection n line s = .ok (stepLink line s n) := by
  have hexec := isLinkBegin_indented h
  simp [stepSection, sectionExit_eq_none_of_indented hexec,
    assignment_eq_none_of_indented hexec (by decide),
    performTarget_eq_none_of_indented hexec (by decide),
    callTarget_eq_none_of_indented hexec (by decide), h]

/-- The order in which the recognisers are tried does not matter for a plain line. -/
theorem stepSection_plain {line : Line} (hexit : sectionExit line = none)
    (hlink : isLinkBegin line = false) (n : Nat) (s : OpenSection) :
    stepSection n line s = .ok (Event.ofPlain s.procedure line, inSection (s.note line)) := by
  cases hmove : assignment line with
  | none =>
    cases hperform : performTarget line <;> cases hcall : callTarget line <;>
      simp [stepSection, Event.ofPlain, OpenSection.note, hexit, hlink, hmove, hperform, hcall]
  | some move =>
    have hword := assignment_indented hmove
    simp [stepSection, Event.ofPlain, OpenSection.note, hexit, hmove,
      performTarget_eq_none_of_indented hword (by decide),
      callTarget_eq_none_of_indented hword (by decide), sectionBegin_eq_none_of_indented hword]

/-- The section that is open inside a block. -/
def open? : Block → Option OpenSection
  | outside _ => none
  | inSection s => some s
  | inLink s _ => some s

theorem open?_stepLink (line : Line) (s : OpenSection) (n : Nat) :
    (stepLink line s n).2.open? = some s := by
  unfold stepLink
  split <;> rfl

/-- All that a line can do outside. -/
theorem stepOutside_cases {n : Nat} {line : Line} {program : Option String} {event : Option Event}
    {next : Block} (h : stepOutside n line program = .ok (event, next)) :
    (sectionBegin line = none ∧ event = (programId line).map .program ∧
        next = outside (programId line <|> program)) ∨
      ∃ name p, sectionBegin line = some name ∧ program = some p ∧
        event = some (.opens ⟨p, name⟩) ∧ next = inSection ⟨⟨p, name⟩, n, ∅⟩ := by
  cases hb : sectionBegin line with
  | none =>
    rw [stepOutside_outside hb] at h
    obtain ⟨rfl, rfl⟩ := Prod.mk.inj (Except.ok.inj h)
    exact .inl ⟨rfl, rfl, rfl⟩
  | some name =>
    cases program with
    | none =>
      rw [stepOutside_error hb] at h
      cases h
    | some p =>
      rw [stepOutside_section hb] at h
      obtain ⟨rfl, rfl⟩ := Prod.mk.inj (Except.ok.inj h)
      exact .inr ⟨name, p, rfl, rfl, rfl, rfl⟩

/-- All that a line can do inside a section. -/
theorem stepSection_cases {n : Nat} {line : Line} {s : OpenSection} {event : Option Event}
    {next : Block} (h : stepSection n line s = .ok (event, next)) :
    (sectionExit line = some s.procedure.name.number ∧
        event = some (.closes s.procedure s.fields) ∧
        next = outside (some s.procedure.program)) ∨
      (isLinkBegin line = true ∧ stepLink line s n = (event, next)) ∨
      (sectionExit line = none ∧ isLinkBegin line = false ∧
        event = Event.ofPlain s.procedure line ∧ next = inSection (s.note line)) := by
  cases hexit : sectionExit line with
  | some number =>
    by_cases hnumber : number = s.procedure.name.number
    · subst hnumber
      rw [stepSection_exit hexit] at h
      obtain ⟨rfl, rfl⟩ := Prod.mk.inj (Except.ok.inj h)
      exact .inl ⟨rfl, rfl, rfl⟩
    · rw [stepSection_mismatch hexit hnumber] at h
      cases h
  | none =>
    cases hlink : isLinkBegin line with
    | false =>
      rw [stepSection_plain hexit hlink] at h
      obtain ⟨rfl, rfl⟩ := Prod.mk.inj (Except.ok.inj h)
      exact .inr (.inr ⟨rfl, rfl, rfl, rfl⟩)
    | true =>
      rw [stepSection_link hlink] at h
      exact .inr (.inl ⟨rfl, Except.ok.inj h⟩)

/-- All faults that a line can be: a heading before any program, or an exit of another section. -/
theorem step_error_cases {block : Block} {n : Nat} {line : Line} {fault : Fault}
    (h : block.step n line = .error fault) :
    (∃ name, block = outside none ∧ sectionBegin line = some name ∧
        fault = .beforeProgram n name) ∨
      ∃ s number, block = inSection s ∧ sectionExit line = some number ∧
        number ≠ s.procedure.name.number ∧
        fault = .mismatchedEnd s.beginLine n s.procedure.name.number number := by
  cases block with
  | outside program =>
    rw [step] at h
    cases hb : sectionBegin line with
    | none =>
      rw [stepOutside_outside hb] at h
      cases h
    | some name =>
      cases program with
      | none =>
        rw [stepOutside_error hb] at h
        exact .inl ⟨name, rfl, rfl, (Except.error.inj h).symm⟩
      | some p =>
        rw [stepOutside_section hb] at h
        cases h
  | inSection s =>
    rw [step] at h
    cases hexit : sectionExit line with
    | some number =>
      by_cases hnumber : number = s.procedure.name.number
      · rw [stepSection_exit (hnumber ▸ hexit)] at h
        cases h
      · rw [stepSection_mismatch hexit hnumber] at h
        exact .inr ⟨s, number, rfl, rfl, hnumber, (Except.error.inj h).symm⟩
    | none =>
      cases hlink : isLinkBegin line with
      | false =>
        rw [stepSection_plain hexit hlink] at h
        cases h
      | true =>
        rw [stepSection_link hlink] at h
        cases h
  | inLink s beginLine => cases h

end Block

/-! ## Many lines -/

/-- `Reads block code events after`: inside `block` the numbered lines are read without a fault;
they say `events` and leave the reader inside `after`. -/
inductive Reads : Block → List (Line × Nat) → List (Nat × Event) → Block → Prop where
  | done {block : Block} : Reads block [] [] block
  | line {block next after : Block} {line : Line} {n : Nat} {event : Option Event}
      {rest : List (Line × Nat)} {events : List (Nat × Event)} :
      block.step n line = .ok (event, next) → Reads next rest events after →
      Reads block ((line, n) :: rest) ((event.map (n, ·)).toList ++ events) after

namespace Reads

variable {block middle after : Block} {code more : List (Line × Nat)}
  {events events' : List (Nat × Event)}

theorem append (first : Reads block code events middle) (second : Reads middle more events' after) :
    Reads block (code ++ more) (events ++ events') after := by
  induction first with
  | done => exact second
  | line hstep _ ih =>
    rw [List.append_assoc]
    exact .line hstep (ih second)

theorem unique {after' : Block} (h : Reads block code events after)
    (h' : Reads block code events' after') : events = events' ∧ after = after' := by
  induction h generalizing events' with
  | done => cases h'; exact ⟨rfl, rfl⟩
  | line hstep _ ih =>
    cases h' with
    | line hstep' htail' =>
      obtain ⟨rfl, rfl⟩ := Prod.mk.inj (Except.ok.inj (hstep.symm.trans hstep'))
      obtain ⟨rfl, rfl⟩ := ih htail'
      exact ⟨rfl, rfl⟩

theorem single {line : Line} {n : Nat} {event : Option Event}
    (h : block.step n line = .ok (event, after)) :
    Reads block [(line, n)] (event.map (n, ·)).toList after := by
  simpa using Reads.line h .done

/-- What is said, a line says where the reader comes to it. -/
theorem exists_step (h : Reads block code events after) {n : Nat} {e : Event}
    (he : (n, e) ∈ events) :
    ∃ before line rest said middle next, code = before ++ (line, n) :: rest ∧
      Reads block before said middle ∧ middle.step n line = .ok (some e, next) := by
  induction h with
  | done => cases he
  | @line block next _ line k event rest events hstep _ ih =>
    rcases List.mem_append.1 he with he | he
    · obtain ⟨e', rfl, heq⟩ := Option.map_eq_some_iff.1 (Option.mem_toList.1 he)
      cases heq
      exact ⟨[], line, rest, [], block, next, rfl, .done, hstep⟩
    · obtain ⟨before, line', rest', said, middle, next', rfl, hreads, hstep'⟩ := ih he
      exact ⟨(line, k) :: before, line', rest', _, middle, next', rfl, .line hstep hreads, hstep'⟩

end Reads

/-- Lines are read to their end, or up to a line that is a fault where it stands. -/
theorem reads_or_stops (block : Block) (code : List (Line × Nat)) :
    (∃ events after, Reads block code events after) ∨
      ∃ before line n rest events middle fault, code = before ++ (line, n) :: rest ∧
        Reads block before events middle ∧ middle.step n line = .error fault := by
  induction code generalizing block with
  | nil => exact .inl ⟨[], block, .done⟩
  | cons l rest ih =>
    obtain ⟨line, n⟩ := l
    cases hstep : block.step n line with
    | error fault => exact .inr ⟨[], line, n, rest, [], block, fault, rfl, .done, hstep⟩
    | ok result =>
      obtain ⟨event, next⟩ := result
      rcases ih next with
        ⟨events, after, h⟩ | ⟨before, l, k, post, events, middle, fault, rfl, h, he⟩
      · exact .inl ⟨_, after, .line hstep h⟩
      · exact .inr ⟨(line, n) :: before, l, k, post, _, middle, fault, rfl, .line hstep h, he⟩

namespace Outline

theorem ofSource_ofList (chars : List Char) :
    ofSource (String.ofList chars) = ofLinesFrom 1 (.outside none) (Text.linesAfter [] chars) := by
  rw [ofSource, Text.lines, String.toList_ofList]

theorem ofLinesFrom_of_reads {n : Nat} {lines : List Line} {block after : Block}
    {events : List (Nat × Event)} (h : Reads block (codeFrom n lines) events after) :
    ofLinesFrom n block lines = ⟨events, after.fault?⟩ := by
  induction lines generalizing n block events with
  | nil => cases h; rfl
  | cons line rest ih =>
    rw [ofLinesFrom]
    cases hc : isComment line with
    | true =>
      rw [codeFrom_cons_of_comment hc] at h
      exact ih h
    | false =>
      rw [codeFrom_cons_of_code hc] at h
      cases h with
      | line hstep htail => simp [hstep, ih htail]

theorem ofLinesFrom_of_stops {n k : Nat} {lines : List Line} {block middle : Block} {line : Line}
    {before rest : List (Line × Nat)} {events : List (Nat × Event)} {fault : Fault}
    (hcode : codeFrom n lines = before ++ (line, k) :: rest) (h : Reads block before events middle)
    (hstep : middle.step k line = .error fault) :
    ofLinesFrom n block lines = ⟨events, some fault⟩ := by
  induction lines generalizing n block events before with
  | nil => simp [codeFrom] at hcode
  | cons l lines ih =>
    rw [ofLinesFrom]
    cases hc : isComment l with
    | true =>
      rw [codeFrom_cons_of_comment hc] at hcode
      exact ih hcode h
    | false =>
      rw [codeFrom_cons_of_code hc] at hcode
      cases h with
      | done =>
        obtain ⟨heq, -⟩ := List.cons.inj hcode
        cases heq
        simp [hstep]
      | line hfirst htail =>
        obtain ⟨heq, hrest⟩ := List.cons.inj hcode
        cases heq
        simp [hfirst, ih hrest htail]

/-- A source is without fault exactly when reading it ends outside all sections. -/
theorem fault_eq_none_iff {n : Nat} {block : Block} {lines : List Line} :
    (ofLinesFrom n block lines).fault = none ↔
      ∃ events program, Reads block (codeFrom n lines) events (.outside program) := by
  constructor
  · intro h
    rcases reads_or_stops block (codeFrom n lines) with
      ⟨events, after, hreads⟩ | ⟨before, line, k, rest, events, middle, fault, hcode, hreads, he⟩
    · rw [ofLinesFrom_of_reads hreads] at h
      cases after with
      | outside program => exact ⟨events, program, hreads⟩
      | inSection s => cases h
      | inLink s beginLine => cases h
    · rw [ofLinesFrom_of_stops hcode hreads he] at h
      cases h
  · rintro ⟨events, program, h⟩
    rw [ofLinesFrom_of_reads h]
    rfl

end Outline
end CobolCalls
