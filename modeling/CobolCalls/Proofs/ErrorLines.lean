import CobolCalls.Proofs.Continuation

/-
  What the line numbers of an error point at. The reader keeps two numbers, that of the heading of
  the open section and that of the beginning of the open link block, and reports them many lines
  later. `Recalls code block` says what they mean for the lines read so far: the first is that of a
  heading, since which every exit was inside a link block; the second is that of a link, since which
  no line had END-EXEC. One line keeps this (`Recalls.step`), so it holds wherever the reader stops,
  and each error reads it off.

  A line is inside a link block if a link begins at or before it, with no END-EXEC from there up to
  the line before it. Links before the heading do not count.
-/

namespace CobolCalls

open Statement

/-! ## Numbered lines -/

/-- The lines of a source that are no comments, with their numbers. The first line of the source
has number one. -/
def numberedCode (source : String) : List (Line × Nat) := codeFrom 1 (Text.lines source)

theorem ascending_codeFrom (n : Nat) (lines : List Line) :
    (codeFrom n lines).Pairwise fun l m => l.2 < m.2 := by
  have hnumbers : ((lines.zipIdx n).map Prod.snd).Pairwise (· < ·) := by
    rw [List.zipIdx_map_snd]
    exact List.pairwise_lt_range'
  exact (List.pairwise_map.1 hnumbers).filter _

theorem le_length_of_mem_numberedCode {source : String} {l : Line × Nat}
    (h : l ∈ numberedCode source) : 1 ≤ l.2 ∧ l.2 ≤ (Text.lines source).length := by
  obtain ⟨before, rest, hcode⟩ := List.append_of_mem h
  obtain ⟨pre, post, hlines, hnumber, -⟩ := exists_lines_of_codeFrom hcode
  rw [hlines, List.length_append, List.length_cons]
  omega

/-! ## Inside link blocks -/

/-- Line `j` is inside a link block that begins after line `b`. -/
def InLinkBlock (code : List (Line × Nat)) (b j : Nat) : Prop :=
  ∃ l ∈ code, b < l.2 ∧ l.2 ≤ j ∧ isLinkBegin l.1 = true ∧
    ∀ m ∈ code, l.2 ≤ m.2 → m.2 < j → hasEndExec m.1 = false

/-- What comes later does not matter. -/
theorem InLinkBlock.append {seen more : List (Line × Nat)} {b j : Nat}
    (h : InLinkBlock seen b j) (hmore : ∀ m ∈ more, j ≤ m.2) :
    InLinkBlock (seen ++ more) b j := by
  obtain ⟨l, hl, hb, hj, hlink, hunended⟩ := h
  refine ⟨l, List.mem_append_left more hl, hb, hj, hlink, fun m hm hlm hmj => ?_⟩
  rcases List.mem_append.1 hm with hm | hm
  · exact hunended m hm hlm hmj
  · have := hmore m hm
    omega

/-! ## What the reader recalls -/

/-- The section has its heading among the lines, and every exit since is inside a link block. -/
structure Opened (code : List (Line × Nat)) (s : OpenSection) : Prop where
  heading : ∃ header, (header, s.beginLine) ∈ code ∧ sectionBegin header = some s.procedure.name
  swallowed : ∀ l ∈ code, s.beginLine < l.2 → (sectionExit l.1).isSome →
    InLinkBlock code s.beginLine l.2

/-- A link begins at line `k` of the section, and no line has had END-EXEC since. -/
structure Linking (code : List (Line × Nat)) (s : OpenSection) (k : Nat) : Prop where
  begins : ∃ line, (line, k) ∈ code ∧ isLinkBegin line = true
  inside : s.beginLine < k
  unended : ∀ l ∈ code, k ≤ l.2 → hasEndExec l.1 = false

/-- What a block says of the lines that lead into it. -/
def Recalls (code : List (Line × Nat)) : Block → Prop
  | .outside none => ∀ l ∈ code, programId l.1 = none ∧ sectionBegin l.1 = none
  | .outside (some _) => True
  | .inSection s => Opened code s
  | .inLink s k => Opened code s ∧ Linking code s k

section Step

variable {seen : List (Line × Nat)} {line : Line} {n : Nat} {s : OpenSection}

theorem Opened.note {code : List (Line × Nat)} (h : Opened code s) (line : Line) :
    Opened code (s.note line) := by
  obtain ⟨heading, swallowed⟩ := h
  constructor
  · rwa [s.note_beginLine, s.note_procedure]
  · rwa [s.note_beginLine]

/-- One more line leaves the section open, if as an exit it is inside a link block. -/
theorem Opened.concat (h : Opened seen s) (hn : ∀ l ∈ seen, l.2 < n)
    (hexit : (sectionExit line).isSome → InLinkBlock seen s.beginLine n) :
    Opened (seen ++ [(line, n)]) s := by
  have hlast {j : Nat} (hj : j ≤ n) : ∀ m ∈ [(line, n)], j ≤ m.2 := by
    intro m hm
    rw [List.mem_singleton.1 hm]
    exact hj
  obtain ⟨header, hmem, hheader⟩ := h.heading
  refine ⟨⟨header, List.mem_append_left _ hmem, hheader⟩, fun l hl hlater hsome => ?_⟩
  rcases List.mem_append.1 hl with hl | hl
  · exact (h.swallowed l hl hlater hsome).append (hlast (Nat.le_of_lt (hn l hl)))
  · obtain rfl := List.mem_singleton.1 hl
    exact (hexit hsome).append (hlast (Nat.le_refl n))

/-- The heading of a section is its first line, so there are no exits yet. -/
theorem opened_of_heading (hn : ∀ l ∈ seen, l.2 < n) {p : Procedure} {d : Dict (List String)}
    (h : sectionBegin line = some p.name) : Opened (seen ++ [(line, n)]) ⟨p, n, d⟩ := by
  refine ⟨⟨line, by simp, h⟩, fun l hl hlater _ => ?_⟩
  rcases List.mem_append.1 hl with hl | hl
  · exact absurd (hn l hl) (Nat.lt_asymm hlater)
  · rw [List.mem_singleton.1 hl] at hlater
    exact absurd hlater (Nat.lt_irrefl n)

theorem Opened.beginLine_lt (h : Opened seen s) (hn : ∀ l ∈ seen, l.2 < n) : s.beginLine < n := by
  obtain ⟨header, hmem, -⟩ := h.heading
  exact hn _ hmem

theorem linking_of_begin (h : Opened seen s) (hn : ∀ l ∈ seen, l.2 < n)
    (hlink : isLinkBegin line = true) (hopen : hasEndExec line = false) :
    Linking (seen ++ [(line, n)]) s n := by
  refine ⟨⟨line, by simp, hlink⟩, h.beginLine_lt hn, fun l hl hlater => ?_⟩
  rcases List.mem_append.1 hl with hl | hl
  · exact absurd (hn l hl) (Nat.not_lt.2 hlater)
  · rw [List.mem_singleton.1 hl]
    exact hopen

theorem Linking.concat {k : Nat} (h : Linking seen s k) (hopen : hasEndExec line = false) :
    Linking (seen ++ [(line, n)]) s k := by
  obtain ⟨first, hfirst, hlink⟩ := h.begins
  refine ⟨⟨first, List.mem_append_left _ hfirst, hlink⟩, h.inside, fun l hl hlater => ?_⟩
  rcases List.mem_append.1 hl with hl | hl
  · exact h.unended l hl hlater
  · rw [List.mem_singleton.1 hl]
    exact hopen

/-- The next line is inside the link block that is open. -/
theorem Linking.inLinkBlock {k : Nat} (h : Linking seen s k) (hn : ∀ l ∈ seen, l.2 < n) :
    InLinkBlock seen s.beginLine n := by
  obtain ⟨first, hfirst, hlink⟩ := h.begins
  exact ⟨(first, k), hfirst, h.inside, Nat.le_of_lt (hn _ hfirst), hlink,
    fun m hm hlater _ => h.unended m hm hlater⟩

theorem recalls_of_stepLink {code : List (Line × Nat)} {k : Nat} {event : Option Event}
    {next : Block} (hstep : Block.stepLink line s k = (event, next)) (hopened : Opened code s)
    (hlinking : hasEndExec line = false → Linking code s k) : Recalls code next := by
  obtain ⟨-, rfl⟩ := Prod.mk.inj hstep
  split
  next => exact hopened
  next hopen => exact ⟨hopened, hlinking (by simpa using hopen)⟩

/-- A line keeps what the reader recalls true. -/
theorem Recalls.step {block next : Block} {event : Option Event} (h : Recalls seen block)
    (hn : ∀ l ∈ seen, l.2 < n) (hstep : block.step n line = .ok (event, next)) :
    Recalls (seen ++ [(line, n)]) next := by
  cases block with
  | outside program =>
    obtain ⟨hb, -, rfl⟩ | ⟨name, p, hb, rfl, -, rfl⟩ := Block.stepOutside_cases hstep
    · cases hp : programId line with
      | some name => trivial
      | none =>
        cases program with
        | some p => trivial
        | none =>
          intro l hl
          rcases List.mem_append.1 hl with hl | hl
          · exact h l hl
          · rw [List.mem_singleton.1 hl]
            exact ⟨hp, hb⟩
    · exact opened_of_heading hn hb
  | inSection s =>
    obtain ⟨-, -, rfl⟩ | ⟨hlink, hnext⟩ | ⟨hexit, -, -, rfl⟩ := Block.stepSection_cases hstep
    · trivial
    · have hexit := sectionExit_eq_none_of_indented (isLinkBegin_indented hlink)
      exact recalls_of_stepLink hnext (Opened.concat h hn (by simp [hexit]))
        (linking_of_begin h hn hlink)
    · exact (Opened.concat h hn (by simp [hexit])).note line
  | inLink s k =>
    obtain ⟨hopened, hlinking⟩ := h
    exact recalls_of_stepLink (Except.ok.inj hstep)
      (hopened.concat hn fun _ => hlinking.inLinkBlock hn) hlinking.concat

end Step

/-- So do all lines that are read. -/
theorem Reads.recalls {block after : Block} {seen code : List (Line × Nat)}
    {events : List (Nat × Event)} (h : Reads block code events after) (hseen : Recalls seen block)
    (hascending : (seen ++ code).Pairwise fun l m => l.2 < m.2) : Recalls (seen ++ code) after := by
  induction h generalizing seen with
  | done => rwa [List.append_nil]
  | @line block next after line n event rest events hstep _ ih =>
    have hn : ∀ l ∈ seen, l.2 < n := fun l hl =>
      (List.pairwise_append.1 hascending).2.2 l hl (line, n) List.mem_cons_self
    have hcons : seen ++ (line, n) :: rest = seen ++ [(line, n)] ++ rest := by simp
    rw [hcons] at hascending ⊢
    exact ih (hseen.step hn hstep) hascending

/-! ## Where the reader stops -/

/-- A faulty source is read to its end, or up to the line that is the fault. Either way the reader
recalls what it has read. -/
theorem recalls_of_fault {source : String} {fault : Fault}
    (h : (Outline.ofSource source).fault = some fault) :
    (∃ after, Recalls (numberedCode source) after ∧ after.fault? = some fault) ∨
      ∃ before line n rest middle, numberedCode source = before ++ (line, n) :: rest ∧
        Recalls before middle ∧ middle.step n line = .error fault := by
  have hascending := ascending_codeFrom 1 (Text.lines source)
  have hstart : Recalls [] (.outside none) := fun l hl => by cases hl
  rcases reads_or_stops (.outside none) (codeFrom 1 (Text.lines source)) with
    ⟨events, after, hreads⟩ | ⟨before, line, n, rest, events, middle, fault', hcode, hreads, he⟩
  · rw [Outline.ofSource, Outline.ofLinesFrom_of_reads hreads] at h
    exact .inl ⟨after, hreads.recalls hstart hascending, h⟩
  · rw [Outline.ofSource, Outline.ofLinesFrom_of_stops hcode hreads he] at h
    cases h
    rw [hcode] at hascending
    have hbefore := hascending.sublist (List.sublist_append_left before _)
    exact .inr ⟨before, line, n, rest, middle, hcode, hreads.recalls hstart hbefore, he⟩

section Number

variable {source : String} {before rest : List (Line × Nat)} {line : Line} {n : Nat}

/-- The number of a line parts those before it from the others. -/
theorem number_parts (hcode : numberedCode source = before ++ (line, n) :: rest) :
    (∀ l ∈ before, l.2 < n) ∧ ∀ l ∈ (line, n) :: rest, n ≤ l.2 := by
  have hascending := ascending_codeFrom 1 (Text.lines source)
  rw [← numberedCode, hcode, List.pairwise_append, List.pairwise_cons] at hascending
  obtain ⟨-, ⟨hafter, -⟩, hbefore⟩ := hascending
  refine ⟨fun l hl => hbefore l hl _ List.mem_cons_self, fun l hl => ?_⟩
  rcases List.mem_cons.1 hl with rfl | hl
  · exact Nat.le_refl _
  · exact Nat.le_of_lt (hafter l hl)

theorem mem_before_iff (hcode : numberedCode source = before ++ (line, n) :: rest)
    {l : Line × Nat} : l ∈ before ↔ l ∈ numberedCode source ∧ l.2 < n := by
  obtain ⟨hbefore, hothers⟩ := number_parts hcode
  rw [hcode, List.mem_append]
  refine ⟨fun hl => ⟨.inl hl, hbefore l hl⟩, fun ⟨hl, hlt⟩ => hl.resolve_right fun hl => ?_⟩
  exact absurd hlt (Nat.not_lt.2 (hothers l hl))

end Number

namespace CallGraph

variable {o : Options} {source : String}

/-! ## A heading before any program -/

/-- Line `k` is the heading of a section, and the first heading of a section or a program. -/
def FirstHeading (source : String) (k : Nat) (name : SectionName) : Prop :=
  (∃ line, (line, k) ∈ numberedCode source ∧ sectionBegin line = some name) ∧
    ∀ l ∈ numberedCode source, l.2 < k → programId l.1 = none ∧ sectionBegin l.1 = none

theorem reads_unheaded {code : List (Line × Nat)}
    (h : ∀ l ∈ code, programId l.1 = none ∧ sectionBegin l.1 = none) :
    Reads (.outside none) code [] (.outside none) := by
  induction code with
  | nil => exact .done
  | cons l rest ih =>
    obtain ⟨hprogram, hsection⟩ := h l List.mem_cons_self
    have hstep : (Block.outside none).step l.2 l.1 = .ok (none, .outside none) := by
      rw [Block.step, Block.stepOutside_outside hsection, hprogram]
      rfl
    exact .line hstep (ih fun l hl => h l (List.mem_cons_of_mem _ hl))

theorem fault_beforeProgram_iff {k : Nat} {name : SectionName} :
    (Outline.ofSource source).fault = some (.beforeProgram k name) ↔
      FirstHeading source k name := by
  constructor
  · intro h
    obtain ⟨after, -, hfault⟩ | ⟨before, line, n, rest, middle, hcode, hrecalls, hstep⟩ :=
      recalls_of_fault h
    · cases after <;> cases hfault
    · obtain ⟨name, rfl, hb, hfault⟩ | ⟨_, _, -, -, -, hfault⟩ := Block.step_error_cases hstep
      · cases hfault
        refine ⟨⟨line, by simp [hcode], hb⟩, fun l hl hlt => ?_⟩
        exact hrecalls l ((mem_before_iff hcode).2 ⟨hl, hlt⟩)
      · cases hfault
  · rintro ⟨⟨line, hmem, hb⟩, hfirst⟩
    obtain ⟨before, rest, hcode⟩ := List.append_of_mem hmem
    have hreads := reads_unheaded fun l hl => by
      obtain ⟨hl, hlt⟩ := (mem_before_iff hcode).1 hl
      exact hfirst l hl hlt
    rw [Outline.ofSource,
      Outline.ofLinesFrom_of_stops hcode hreads (Block.stepOutside_error hb k)]

theorem ofSource_eq_beforeProgram_iff {k : Nat} {id : String} :
    ofSource o source = .error (.beforeProgram k id) ↔
      ∃ name, FirstHeading source k name ∧ id = name.label none := by
  constructor
  · intro h
    obtain ⟨fault, hfault, herror⟩ := exists_fault_of_error h
    cases fault <;> cases herror
    exact ⟨_, fault_beforeProgram_iff.1 hfault, rfl⟩
  · rintro ⟨name, hfirst, rfl⟩
    exact ofSource_eq_error (fault_beforeProgram_iff.2 hfirst)

/-! ## Blocks that are not closed -/

theorem mismatchedEnd_lines {b e : Nat} {expected found : String}
    (h : (Outline.ofSource source).fault = some (.mismatchedEnd b e expected found)) :
    (1 ≤ b ∧ b < e ∧ e ≤ (Text.lines source).length) ∧
    (∃ header name, (header, b) ∈ numberedCode source ∧ sectionBegin header = some name ∧
      name.number = expected) ∧
    (∃ exit, (exit, e) ∈ numberedCode source ∧ sectionExit exit = some found) ∧
    found ≠ expected ∧
    ∀ l ∈ numberedCode source, b < l.2 → l.2 < e → (sectionExit l.1).isSome →
      InLinkBlock (numberedCode source) b l.2 := by
  obtain ⟨after, -, hfault⟩ | ⟨before, line, n, rest, middle, hcode, hrecalls, hstep⟩ :=
    recalls_of_fault h
  · cases after <;> cases hfault
  · obtain ⟨_, -, -, hfault⟩ | ⟨s, number, rfl, hexit, hne, hfault⟩ := Block.step_error_cases hstep
    · cases hfault
    · cases hfault
      have hopened : Opened before s := hrecalls
      obtain ⟨header, hheader, hb⟩ := hopened.heading
      obtain ⟨hmem, hlt⟩ := (mem_before_iff hcode).1 hheader
      have hline : (line, e) ∈ numberedCode source := by simp [hcode]
      have hfirst := (le_length_of_mem_numberedCode hmem).1
      have hlast := (le_length_of_mem_numberedCode hline).2
      refine ⟨⟨hfirst, hlt, hlast⟩, ⟨header, _, hmem, hb, rfl⟩, ⟨line, hline, hexit⟩, hne, ?_⟩
      intro l hl hlater hbefore hsome
      have hl' := (mem_before_iff hcode).2 ⟨hl, hbefore⟩
      rw [hcode]
      refine (hopened.swallowed l hl' hlater hsome).append fun m hm => ?_
      exact Nat.le_trans (Nat.le_of_lt hbefore) ((number_parts hcode).2 m hm)

theorem unterminatedSection_lines {b : Nat} {p : Procedure}
    (h : (Outline.ofSource source).fault = some (.unterminatedSection b p)) :
    (∃ header, (header, b) ∈ numberedCode source ∧ sectionBegin header = some p.name) ∧
    ∀ l ∈ numberedCode source, b < l.2 → (sectionExit l.1).isSome →
      InLinkBlock (numberedCode source) b l.2 := by
  obtain ⟨after, hrecalls, hfault⟩ | ⟨_, _, _, _, _, -, -, hstep⟩ := recalls_of_fault h
  · cases after with
    | outside program => cases hfault
    | inLink s k => cases hfault
    | inSection s =>
      cases hfault
      have hopened : Opened (numberedCode source) s := hrecalls
      exact ⟨hopened.heading, hopened.swallowed⟩
  · cases Block.line?_of_step hstep

theorem unterminatedLink_lines {b : Nat}
    (h : (Outline.ofSource source).fault = some (.unterminatedLink b)) :
    (∃ line, (line, b) ∈ numberedCode source ∧ isLinkBegin line = true) ∧
    ∀ l ∈ numberedCode source, b ≤ l.2 → hasEndExec l.1 = false := by
  obtain ⟨after, hrecalls, hfault⟩ | ⟨_, _, _, _, _, -, -, hstep⟩ := recalls_of_fault h
  · cases after with
    | outside program => cases hfault
    | inSection s => cases hfault
    | inLink s k =>
      cases hfault
      obtain ⟨-, hlinking⟩ := hrecalls
      exact ⟨hlinking.begins, hlinking.unended⟩
  · cases Block.line?_of_step hstep

/-- **Errors point at the truth.** Where a section is named before any program, the line is the
first heading of all. Where an exit has the wrong number, the two lines are the heading and the
exit, in this order, and every exit between them is inside a link block; the same holds of every
exit after the heading of a section that has none. Where a link is left open, no line from its
beginning on has END-EXEC. Comments are numbered, but never pointed at. -/
theorem errors_point_at_their_lines (o : Options) (source : String) :
    (∀ k id, ofSource o source = .error (.beforeProgram k id) ↔
      ∃ name, FirstHeading source k name ∧ id = name.label none) ∧
    (∀ b e expected found, ofSource o source = .error (.mismatchedEnd b e expected found) →
      (1 ≤ b ∧ b < e ∧ e ≤ (Text.lines source).length) ∧
      (∃ header name, (header, b) ∈ numberedCode source ∧ sectionBegin header = some name ∧
        name.number = expected) ∧
      (∃ exit, (exit, e) ∈ numberedCode source ∧ sectionExit exit = some found) ∧
      found ≠ expected ∧
      ∀ l ∈ numberedCode source, b < l.2 → l.2 < e → (sectionExit l.1).isSome →
        InLinkBlock (numberedCode source) b l.2) ∧
    (∀ b id, ofSource o source = .error (.unterminatedSection b id) →
      (∃ header p, (header, b) ∈ numberedCode source ∧ sectionBegin header = some p.name ∧
        HeadedAt source b p ∧ id = o.label p) ∧
      ∀ l ∈ numberedCode source, b < l.2 → (sectionExit l.1).isSome →
        InLinkBlock (numberedCode source) b l.2) ∧
    (∀ b, ofSource o source = .error (.unterminatedLink b) →
      (∃ line, (line, b) ∈ numberedCode source ∧ isLinkBegin line = true) ∧
      ∀ l ∈ numberedCode source, b ≤ l.2 → hasEndExec l.1 = false) := by
  refine ⟨fun k id => ofSource_eq_beforeProgram_iff, fun b e expected found h => ?_,
    fun b id h => ?_, fun b h => ?_⟩
  · obtain ⟨fault, hfault, herror⟩ := exists_fault_of_error h
    cases fault <;> cases herror
    exact mismatchedEnd_lines hfault
  · obtain ⟨fault, hfault, herror⟩ := exists_fault_of_error h
    cases fault <;> cases herror
    obtain ⟨⟨header, hmem, hb⟩, hexits⟩ := unterminatedSection_lines hfault
    exact ⟨⟨header, _, hmem, hb, headedAt_of_unterminated hfault, rfl⟩, hexits⟩
  · obtain ⟨fault, hfault, herror⟩ := exists_fault_of_error h
    cases fault <;> cases herror
    exact unterminatedLink_lines hfault

/-- A link block swallows the exit of its section, and a comment does not end it. -/
def swallowingLines : List Line :=
  ["       PROGRAM-ID. P.".toList, "       1-A SECTION.".toList, "        EXEC CICS LINK".toList,
    "      *    END-EXEC".toList, "       1-99-FIM. EXIT.".toList, "        END-EXEC".toList]

/-- The exit of another section. -/
def otherExit : Line := "       2-99-FIM. EXIT.".toList

theorem reads_swallowingLines :
    Reads (.outside none) (codeFrom 1 swallowingLines)
      [(1, .program "P"), (2, .opens ⟨"P", ⟨"1", "A"⟩⟩)]
      (.inSection ⟨⟨"P", ⟨"1", "A"⟩⟩, 2, ∅⟩) := by
  have hcode : codeFrom 1 swallowingLines =
      [("       PROGRAM-ID. P.".toList, 1), ("       1-A SECTION.".toList, 2),
        ("        EXEC CICS LINK".toList, 3), ("       1-99-FIM. EXIT.".toList, 5),
        ("        END-EXEC".toList, 6)] := by
    decide +kernel
  let s : OpenSection := ⟨⟨"P", ⟨"1", "A"⟩⟩, 2, ∅⟩
  have hprogram : (Block.outside none).step 1 "       PROGRAM-ID. P.".toList =
      .ok (some (.program "P"), .outside (some "P")) := by decide +kernel
  have hheading : (Block.outside (some "P")).step 2 "       1-A SECTION.".toList =
      .ok (some (.opens s.procedure), .inSection s) := by decide +kernel
  have hlink : (Block.inSection s).step 3 "        EXEC CICS LINK".toList =
      .ok (none, .inLink s 3) := by decide +kernel
  have hexit : (Block.inLink s 3).step 5 "       1-99-FIM. EXIT.".toList =
      .ok (none, .inLink s 3) := by decide +kernel
  have hend : (Block.inLink s 3).step 6 "        END-EXEC".toList = .ok (none, .inSection s) := by
    decide +kernel
  rw [hcode]
  exact .line hprogram (.line hheading (.line hlink (.line hexit (.line hend .done))))

/-- Sections that are closed with the wrong number, not at all, or before any program, and a link
block that is not closed. -/
theorem swallowingLines_point_at_their_lines :
    (ofSource {} (Text.ofLines (swallowingLines ++ [otherExit])) =
        .error (.mismatchedEnd 2 7 "1" "2") ∧
      InLinkBlock (numberedCode (Text.ofLines (swallowingLines ++ [otherExit]))) 2 5) ∧
    (ofSource {} (Text.ofLines swallowingLines) = .error (.unterminatedSection 2 "1-A") ∧
      InLinkBlock (numberedCode (Text.ofLines swallowingLines)) 2 5) ∧
    (ofSource {} (Text.ofLines unendedLines) = .error (.unterminatedLink 3) ∧
      ∃ line, (line, 3) ∈ numberedCode (Text.ofLines unendedLines) ∧ isLinkBegin line = true) ∧
    ofSource {} (Text.ofLines (swallowingLines.drop 1)) = .error (.beforeProgram 1 "1-A") ∧
      ∃ name, FirstHeading (Text.ofLines (swallowingLines.drop 1)) 1 name ∧
        "1-A" = name.label none := by
  have hfeeds : ∀ line ∈ swallowingLines ++ [otherExit], '\n' ∉ line := by decide +kernel
  have hfeeds' : ∀ line ∈ swallowingLines, '\n' ∉ line := fun line hline =>
    hfeeds line (List.mem_append_left _ hline)
  have hdrop : ∀ line ∈ swallowingLines.drop 1, '\n' ∉ line := fun line hline =>
    hfeeds' line (List.mem_of_mem_drop hline)
  have error {ls : List Line} (fault : Fault) (h : ∀ line ∈ ls, '\n' ∉ line)
      (hfault : (Outline.ofLinesFrom 1 (.outside none) ls).fault = some fault) :
      ofSource {} (Text.ofLines ls) = .error (fault.error {}) :=
    ofSource_eq_error (by rw [Outline.ofSource_ofLines h, hfault])
  have numbered {ls : List Line} (h : ∀ line ∈ ls, '\n' ∉ line)
      (hmem : ("       1-99-FIM. EXIT.".toList, 5) ∈ codeFrom 1 (Text.linesOf ls)) :
      ("       1-99-FIM. EXIT.".toList, 5) ∈ numberedCode (Text.ofLines ls) := by
    rwa [numberedCode, Text.lines_ofLines h]
  have isExit : (sectionExit "       1-99-FIM. EXIT.".toList).isSome := by decide +kernel
  refine ⟨?_, ?_, ?_, ?_⟩
  · have hcode : codeFrom 1 (swallowingLines ++ [otherExit]) =
        codeFrom 1 swallowingLines ++ [(otherExit, 7)] := by decide +kernel
    have hexit : (Block.inSection ⟨⟨"P", ⟨"1", "A"⟩⟩, 2, ∅⟩).step 7 otherExit =
        .error (.mismatchedEnd 2 7 "1" "2") := by decide +kernel
    have herror := error (.mismatchedEnd 2 7 "1" "2") hfeeds
      (by rw [Outline.ofLinesFrom_of_stops hcode reads_swallowingLines hexit])
    obtain ⟨-, -, -, -, hexits⟩ := (errors_point_at_their_lines {}
      (Text.ofLines (swallowingLines ++ [otherExit]))).2.1 _ _ _ _ herror
    exact ⟨herror, hexits _ (numbered hfeeds (by decide +kernel)) (by decide) (by decide) isExit⟩
  · have herror := error (.unterminatedSection 2 ⟨"P", ⟨"1", "A"⟩⟩) hfeeds'
      (by rw [Outline.ofLinesFrom_of_reads reads_swallowingLines]; rfl)
    obtain ⟨-, hexits⟩ :=
      (errors_point_at_their_lines {} (Text.ofLines swallowingLines)).2.2.1 _ _ herror
    exact ⟨herror, hexits _ (numbered hfeeds' (by decide +kernel)) (by decide) isExit⟩
  · have hfault := congrArg Outline.fault outline_unendedLines
    have herror : ofSource {} (Text.ofLines unendedLines) = .error (.unterminatedLink 3) :=
      ofSource_eq_error hfault
    obtain ⟨hbegin, -⟩ :=
      (errors_point_at_their_lines {} (Text.ofLines unendedLines)).2.2.2 _ herror
    exact ⟨herror, hbegin⟩
  · have herror := error (.beforeProgram 1 ⟨"1", "A"⟩) hdrop (by decide +kernel)
    exact ⟨herror, ((errors_point_at_their_lines {} _).1 _ _).1 herror⟩

end CallGraph
end CobolCalls
