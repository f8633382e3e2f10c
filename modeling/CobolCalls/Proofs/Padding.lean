import CobolCalls.Proofs.Recognition

/-
  Blanks at the end of a line never matter. A recogniser that reads a padded line may read on into
  the padding where the bare line has ended, but what is left is then blank, and every form goes
  on with something that is no blank. `Tight` names the two facts this argument needs of the rest
  of a form: it ignores padding, and it fails on nothing at all. Each way of reading on keeps them,
  so the recognisers, which are chains of such ways, ignore padding.
-/

namespace CobolCalls

/-- Nothing but blanks. -/
def Blank (line : Line) : Prop := ∀ c ∈ line, Text.isBlank c = true

theorem Blank.of_append_right {line pad : Line} (h : Blank (line ++ pad)) : Blank pad :=
  fun c hc => h c (List.mem_append_right line hc)

theorem Blank.of_cons {c : Char} {pad : Line} (h : Blank (c :: pad)) : Blank pad :=
  fun d hd => h d (List.mem_cons_of_mem c hd)

namespace Text

/-- The ranges of the blanks. -/
def blankRanges : List (Nat × Nat) :=
  [(0x9, 0xD), (0x20, 0x20), (0x85, 0x85), (0xA0, 0xA0), (0x1680, 0x1680), (0x2000, 0x200A),
   (0x2028, 0x2029), (0x202F, 0x202F), (0x205F, 0x205F), (0x3000, 0x3000)]

theorem mem_blankRanges {c : Char} (h : isBlank c = true) :
    ∃ r ∈ blankRanges, r.1 ≤ c.toNat ∧ c.toNat ≤ r.2 := by
  simp only [isBlank, Bool.or_eq_true, Bool.and_eq_true, decide_eq_true_eq, beq_iff_eq] at h
  simp only [blankRanges, List.mem_cons, List.not_mem_nil, or_false, exists_eq_or_imp,
    exists_eq_left]
  omega

/-- No range of word characters meets a range of blanks. -/
theorem wordRanges_apart_blankRanges :
    ∀ w ∈ wordRanges, ∀ b ∈ blankRanges, w.2 < b.1 ∨ b.2 < w.1 := by
  decide +kernel

theorem isWordChar_eq_false_of_isBlank {c : Char} (h : isBlank c = true) :
    isWordChar c = false := by
  obtain ⟨b, hb, hlow, hhigh⟩ := mem_blankRanges h
  unfold isWordChar
  rw [List.any_eq_false]
  intro w hw
  have apart := wordRanges_apart_blankRanges w hw b hb
  simp only [Bool.and_eq_true, decide_eq_true_eq, not_and]
  omega

end Text

namespace Statement

/-! ## Runs and spaces -/

/-- An alphabet without blanks. -/
def Inked (alphabet : Char → Bool) : Prop :=
  ∀ c, alphabet c = true → Text.isBlank c = false

/-- Names are written in letters, digits, hyphens and underscores. -/
theorem inked_isOperandChar : Inked isOperandChar := by
  intro c hc
  simp only [isOperandChar, isNameChar, isUpper, isDigit, Bool.or_eq_true, Bool.and_eq_true,
    decide_eq_true_eq, beq_iff_eq, Char.le_def, UInt32.le_iff_toNat_le] at hc
  rw [← Bool.not_eq_true]
  intro blank
  obtain ⟨b, hb, hlow, hhigh⟩ := Text.mem_blankRanges blank
  simp only [Text.blankRanges, List.mem_cons, List.not_mem_nil, or_false] at hb
  rcases hc with (((hc | hc) | rfl) | rfl)
  all_goals
    simp only [Char.toNat] at hlow hhigh
    rcases hb with rfl | rfl | rfl | rfl | rfl | rfl | rfl | rfl | rfl | rfl <;> simp_all <;> omega

theorem Inked.mono {alphabet wider : Char → Bool} (h : Inked wider)
    (hsub : ∀ c, alphabet c = true → wider c = true) : Inked alphabet :=
  fun c hc => h c (hsub c hc)

theorem inked_isNameChar : Inked isNameChar :=
  inked_isOperandChar.mono fun c hc => by simp [isOperandChar, hc]

theorem inked_isProgramChar : Inked isProgramChar :=
  inked_isNameChar.mono fun c hc => by
    simp only [isProgramChar] at hc
    simp [isNameChar, hc]

theorem inked_isDigit : Inked isDigit :=
  inked_isNameChar.mono fun c hc => by simp [isNameChar, hc]

theorem takeWhile_blank {alphabet : Char → Bool} (ink : Inked alphabet) {pad : Line}
    (h : Blank pad) : pad.takeWhile alphabet = [] ∧ pad.dropWhile alphabet = pad := by
  cases pad with
  | nil => exact ⟨rfl, rfl⟩
  | cons c rest =>
    have hc : alphabet c ≠ true := by
      intro hc
      have := ink c hc
      rw [h c List.mem_cons_self] at this
      cases this
    exact ⟨List.takeWhile_cons_of_neg hc, List.dropWhile_cons_of_neg hc⟩

theorem takeWhile_padded {alphabet : Char → Bool} (ink : Inked alphabet) (line : Line)
    {pad : Line} (h : Blank pad) :
    (line ++ pad).takeWhile alphabet = line.takeWhile alphabet ∧
      (line ++ pad).dropWhile alphabet = line.dropWhile alphabet ++ pad := by
  induction line with
  | nil => simpa using takeWhile_blank ink h
  | cons c rest ih =>
    by_cases hc : alphabet c = true
    · simp [hc, ih.1, ih.2]
    · simp [hc]

theorem run_padded {alphabet : Char → Bool} (ink : Inked alphabet) (line : Line) {pad : Line}
    (h : Blank pad) :
    run alphabet (line ++ pad) =
      (run alphabet line).map fun (name, rest) => (name, rest ++ pad) := by
  unfold run
  rw [(takeWhile_padded ink line h).1, (takeWhile_padded ink line h).2]
  split <;> rfl

theorem skipSpaces_cons_space (rest : Line) : skipSpaces (' ' :: rest) = skipSpaces rest := by
  simp [skipSpaces]

theorem skipSpaces_cons_of_ne {c : Char} (h : c ≠ ' ') (rest : Line) :
    skipSpaces (c :: rest) = c :: rest := by
  simp [skipSpaces, h]

/-- Skipping spaces stops in the line, or the line is all spaces and what is left is blank. -/
theorem skipSpaces_padded (line : Line) {pad : Line} (h : Blank pad) :
    skipSpaces (line ++ pad) = skipSpaces line ++ pad ∨
      skipSpaces line = [] ∧ Blank (skipSpaces (line ++ pad)) := by
  induction line with
  | nil =>
    refine .inr ⟨rfl, fun c hc => h c ?_⟩
    exact List.dropWhile_subset _ hc
  | cons c rest ih =>
    by_cases hc : c = ' '
    · subst hc
      rw [List.cons_append, skipSpaces_cons_space, skipSpaces_cons_space]
      exact ih
    · rw [List.cons_append, skipSpaces_cons_of_ne hc, skipSpaces_cons_of_ne hc]
      exact .inl rfl

/-- A word that starts the padded line starts the line, or reaches into the padding. -/
theorem after_padded (word : String) (line : Line) {pad : Line} (h : Blank pad) :
    after word (line ++ pad) = (after word line).map (· ++ pad) ∨
      after word line = none ∧ line <+: word.toList ∧
        ∀ rest, after word (line ++ pad) = some rest → Blank rest := by
  cases hline : after word line with
  | some rest =>
    left
    rw [after_eq_some] at hline
    rw [hline]
    exact after_eq_some.2 (by simp)
  | none =>
    cases hpad : after word (line ++ pad) with
    | none => exact .inl rfl
    | some rest =>
      right
      rw [after_eq_some] at hpad
      rcases List.append_eq_append_iff.1 hpad with ⟨more, hword, hrest⟩ | ⟨more, hword, hrest⟩
      · refine ⟨rfl, ⟨more, hword.symm⟩, fun rest' hrest' => ?_⟩
        cases hrest'
        rw [hrest] at h
        exact h.of_append_right
      · rw [after_eq_some.2 hword] at hline
        cases hline

/-! ## Forms that ignore padding -/

/-- What a form reads does not change when blanks are added. -/
def IgnoresPadding {α : Type} (form : Line → α) : Prop :=
  ∀ (line : Line) {pad : Line}, Blank pad → form (line ++ pad) = form line

theorem ignoresPadding_const {α : Type} (a : α) : IgnoresPadding fun _ => a :=
  fun _ _ _ => rfl

/-- What is left of a form ignores padding and needs at least one character. -/
structure Tight {α : Type} (form : Line → Option α) : Prop where
  padded : IgnoresPadding form
  empty : form [] = none

namespace Tight

variable {α : Type} {form : Line → Option α}

theorem blank (h : Tight form) {pad : Line} (hp : Blank pad) : form pad = none := by
  have := h.padded [] hp
  rwa [h.empty, List.nil_append] at this

theorem comp_skipSpaces (h : Tight form) : Tight fun line => form (skipSpaces line) where
  padded line pad hp := by
    show form (skipSpaces (line ++ pad)) = form (skipSpaces line)
    rcases skipSpaces_padded line hp with hs | ⟨hs, hblank⟩
    · rw [hs, h.padded _ hp]
    · rw [hs, h.empty, h.blank hblank]
  empty := h.empty

theorem bind_afterSpaces (h : Tight form) : Tight fun line => afterSpaces line >>= form where
  padded line pad hp := by
    cases line with
    | nil =>
      cases pad with
      | nil => rfl
      | cons c rest =>
        by_cases hc : c = ' '
        · subst hc
          exact h.comp_skipSpaces.blank hp.of_cons
        · simp [afterSpaces, hc]
    | cons c rest =>
      by_cases hc : c = ' '
      · subst hc
        exact h.comp_skipSpaces.padded rest hp
      · simp [afterSpaces, hc]
  empty := rfl

theorem bind_afterQuote (h : Tight form) : Tight fun line => afterQuote line >>= form where
  padded line pad hp := by
    cases line with
    | nil =>
      cases pad with
      | nil => rfl
      | cons c rest =>
        show (if isQuote c then some rest else none) >>= form = none
        split
        · exact h.blank hp.of_cons
        · rfl
    | cons c rest =>
      show (if isQuote c then some (rest ++ pad) else none) >>= form =
        (if isQuote c then some rest else none) >>= form
      split
      · exact h.padded rest hp
      · rfl
  empty := rfl

theorem comp_skipQuote (h : Tight form) : Tight fun line => form (skipQuote line) where
  padded line pad hp := by
    unfold skipQuote
    cases line with
    | nil =>
      cases pad with
      | nil => rfl
      | cons c rest =>
        show form ((if isQuote c then some rest else none).getD (c :: rest)) = form []
        split
        · exact (h.blank hp.of_cons).trans h.empty.symm
        · exact (h.blank hp).trans h.empty.symm
    | cons c rest =>
      show form ((if isQuote c then some (rest ++ pad) else none).getD (c :: rest ++ pad)) =
        form ((if isQuote c then some rest else none).getD (c :: rest))
      split
      · exact h.padded rest hp
      · exact h.padded (c :: rest) hp
  empty := h.empty

theorem bind_after (h : Tight form) (word : String) (hw : word.toList ≠ []) :
    Tight fun line => after word line >>= form where
  padded line pad hp := by
    rcases after_padded word line hp with heq | ⟨hnone, -, hblank⟩
    · simp only [heq]
      cases after word line with
      | none => rfl
      | some rest => exact h.padded rest hp
    · simp only [hnone]
      cases hsome : after word (line ++ pad) with
      | none => rfl
      | some rest => exact h.blank (hblank rest hsome)
  empty := by
    cases hafter : after word [] with
    | none => rfl
    | some rest => exact absurd (List.append_eq_nil_iff.1 (after_eq_some.1 hafter).symm).1 hw

/-- After a run the rest of the form may succeed on nothing. -/
theorem bind_run {alphabet : Char → Bool} (ink : Inked alphabet)
    {form : String → Line → Option α} (h : ∀ name, IgnoresPadding (form name)) :
    Tight fun line => run alphabet line >>= fun (name, rest) => form name rest where
  padded line pad hp := by
    simp only [run_padded ink line hp]
    cases run alphabet line with
    | none => rfl
    | some read => exact h read.1 read.2 hp
  empty := rfl

/-- So it may after a word whose last character is no blank: the word ends inside the line. -/
theorem bind_word (word : String) {c : Char} (hlast : word.toList.getLast? = some c)
    (hc : Text.isBlank c = false) (h : IgnoresPadding form) :
    Tight fun line => after word line >>= form where
  padded line pad hp := by
    rcases after_padded word line hp with heq | ⟨hnone, ⟨more, hmore⟩, hblank⟩
    · simp only [heq]
      cases after word line with
      | none => rfl
      | some rest => exact h rest hp
    · simp only [hnone]
      cases hsome : after word (line ++ pad) with
      | none => rfl
      | some rest =>
        rw [after_eq_some, ← hmore, List.append_assoc, List.append_cancel_left_eq] at hsome
        cases hsplit : more.getLast? with
        | none =>
          rw [List.getLast?_eq_none_iff] at hsplit
          rw [hsplit] at hmore
          have hsome : after word line = some [] := after_eq_some.2 (by rw [← hmore]; simp)
          rw [hnone] at hsome
          cases hsome
        | some last =>
          -- the word's last character would stand in the padding
          rw [← hmore, List.getLast?_append, hsplit, Option.some_or] at hlast
          cases hlast
          have hmem : c ∈ pad := hsome ▸ List.mem_append_left rest (List.mem_of_getLast? hsplit)
          rw [hp c hmem] at hc
          cases hc
  empty := by
    cases hafter : after word [] with
    | none => rfl
    | some rest =>
      rw [(List.append_eq_nil_iff.1 (after_eq_some.1 hafter).symm).1] at hlast
      cases hlast

/-- Cutting the line off before a character leaves blanks behind it or none. -/
theorem comp_takeWhile (h : Tight form) (keeps : Char → Bool) :
    Tight fun line => form (line.takeWhile keeps) where
  padded line pad hp := by
    show form ((line ++ pad).takeWhile keeps) = form (line.takeWhile keeps)
    rw [List.takeWhile_append]
    split
    next whole =>
      have hblank : Blank (pad.takeWhile keeps) := fun c hc =>
        hp c ((List.takeWhile_sublist keeps).subset hc)
      have hline : line.takeWhile keeps = line :=
        (List.takeWhile_prefix keeps).eq_of_length whole
      rw [h.padded line hblank, hline]
    next => rfl
  empty := h.empty

theorem map {β : Type} (h : Tight form) (f : α → β) :
    Tight fun line => form line >>= fun a => some (f a) where
  padded line pad hp := by
    show (form (line ++ pad) >>= fun a => some (f a)) = form line >>= fun a => some (f a)
    rw [h.padded line hp]
  empty := by
    show (form [] >>= fun a => some (f a)) = none
    rw [h.empty]
    rfl

theorem bind_afterMargin (h : Tight form) : Tight fun line => afterMargin line >>= form :=
  h.bind_after _ (by decide)

theorem bind_afterIndent (h : Tight form) : Tight fun line => afterIndent line >>= form := by
  have := h.bind_afterSpaces.bind_afterMargin
  simpa only [afterIndent, bind_assoc] using this

end Tight

/-! ## Recognisers -/

theorem tight_sectionName {α : Type} {form : SectionName → Line → Option α}
    (h : ∀ name, IgnoresPadding (form name)) :
    Tight fun line => sectionName line >>= fun (name, rest) => form name rest := by
  have title (number : String) := Tight.bind_run inked_isNameChar fun title => h ⟨number, title⟩
  have hyphen (number : String) := (title number).bind_after "-" (by decide)
  have := Tight.bind_run inked_isDigit fun number => (hyphen number).padded
  simpa only [sectionName, bind_assoc, pure_bind] using this

theorem tight_programId : Tight programId := by
  have dot (name : String) : Tight fun line => after "." line >>= fun _ => some name :=
    Tight.bind_word "." (c := '.') (by decide) (by decide) (ignoresPadding_const _)
  have name := Tight.bind_run inked_isProgramChar fun name => (dot name).padded
  exact (name.bind_afterSpaces.bind_after _ (by decide)).bind_afterMargin

theorem tight_sectionBegin : Tight sectionBegin := by
  have word (name : SectionName) : Tight fun line => after "SECTION." line >>= fun _ => some name :=
    Tight.bind_word "SECTION." (c := '.') (by decide) (by decide) (ignoresPadding_const _)
  exact (tight_sectionName fun name => (word name).bind_afterSpaces.padded).bind_afterMargin

theorem tight_sectionExit : Tight sectionExit := by
  have word (number : String) : Tight fun line => after "EXIT." line >>= fun _ => some number :=
    Tight.bind_word "EXIT." (c := '.') (by decide) (by decide) (ignoresPadding_const _)
  have fim (number : String) := (word number).bind_afterSpaces.bind_after "-99-FIM." (by decide)
  exact (Tight.bind_run inked_isDigit fun number => (fim number).padded).bind_afterMargin

theorem tight_assignment : Tight assignment := by
  have field (value : String) := Tight.bind_run inked_isOperandChar fun field =>
    ignoresPadding_const (some (value, field))
  have receiver (value : String) :=
    ((field value).bind_afterSpaces.bind_after "TO" (by decide)).bind_afterSpaces.bind_afterQuote
  have value := Tight.bind_run inked_isOperandChar fun value => (receiver value).padded
  exact (value.bind_afterQuote.bind_afterSpaces.bind_after _ (by decide)).bind_afterIndent

theorem tight_performTarget : Tight performTarget := by
  have name := tight_sectionName fun name => ignoresPadding_const (some name)
  exact (name.bind_afterSpaces.bind_after _ (by decide)).bind_afterIndent

theorem tight_callTarget : Tight callTarget := by
  have name := Tight.bind_run inked_isOperandChar fun target => ignoresPadding_const (some target)
  exact (name.comp_skipQuote.bind_afterSpaces.bind_after _ (by decide)).bind_afterIndent

/-! ### Link blocks -/

theorem wordEnds_padded : IgnoresPadding wordEnds := by
  intro line pad hp
  cases line with
  | cons c rest => rfl
  | nil =>
    cases pad with
    | nil => rfl
    | cons c rest =>
      show (!Text.isWordChar c) = true
      rw [Text.isWordChar_eq_false_of_isBlank (hp c List.mem_cons_self)]
      rfl

theorem any_wordEnds (rest : Option Line) :
    rest.any wordEnds = (rest >>= fun l => if wordEnds l then some () else none).isSome := by
  cases rest with
  | none => rfl
  | some l => cases h : wordEnds l <;> simp [h]

/-- A keyword and the word boundary after it. -/
theorem tight_keyword (word : String) {c : Char} (hlast : word.toList.getLast? = some c)
    (hc : Text.isBlank c = false) :
    Tight fun line => after word line >>= fun l => if wordEnds l then some () else none :=
  Tight.bind_word word hlast hc fun line _ hp => by simp only [wordEnds_padded line hp]

theorem isLinkBegin_padded : IgnoresPadding isLinkBegin := by
  intro line pad hp
  have link := tight_keyword "LINK" (c := 'K') (by decide) (by decide)
  have cics := link.bind_afterSpaces.bind_after "CICS" (by decide)
  have exec := (cics.bind_afterSpaces.bind_after "EXEC" (by decide)).bind_afterIndent
  simp only [isLinkBegin, any_wordEnds, bind_assoc]
  exact congrArg Option.isSome (exec.padded line hp)

theorem tight_clauseTarget : Tight clauseTarget := by
  have name := Tight.bind_run inked_isNameChar fun target => ignoresPadding_const (some target)
  exact name.comp_skipQuote

theorem tight_programClause : Tight programClause := by
  have inner := tight_clauseTarget.comp_skipSpaces.bind_after "(" (by decide)
  exact inner.comp_skipSpaces.bind_after _ (by decide)

/-- With a parenthesis the clause goes on behind it, and without one behind spaces. -/
theorem openingProgram_eq (line : Line) :
    openingProgram line = afterIndent line >>= fun line => after "PROGRAM" line >>= fun line =>
      if (after "(" (skipSpaces line) >>= fun _ => some ()).isSome then
        after "(" (skipSpaces line) >>= fun rest => clauseTarget (skipSpaces rest)
      else afterSpaces line >>= clauseTarget := by
  refine congrArg (afterIndent line >>= ·) (funext fun line => ?_)
  refine congrArg (after "PROGRAM" line >>= ·) (funext fun line => ?_)
  cases after "(" (skipSpaces line) <;> rfl

theorem tight_openingProgram : Tight openingProgram := by
  have paren : Tight fun line => after "(" line >>= fun _ => some () :=
    Tight.bind_word "(" (c := '(') (by decide) (by decide) (ignoresPadding_const _)
  have closed := tight_clauseTarget.comp_skipSpaces.bind_after "(" (by decide)
  have spaced := tight_clauseTarget.bind_afterSpaces
  -- both lines have a parenthesis or neither has, and each way on is tight
  have clause : Tight fun line =>
      if (after "(" (skipSpaces line) >>= fun _ => some ()).isSome then
        after "(" (skipSpaces line) >>= fun rest => clauseTarget (skipSpaces rest)
      else afterSpaces line >>= clauseTarget := by
    constructor
    · intro line pad hp
      have h₁ := paren.comp_skipSpaces.padded line hp
      have h₂ := closed.comp_skipSpaces.padded line hp
      have h₃ := spaced.padded line hp
      dsimp only at h₁ h₂ h₃ ⊢
      rw [h₁, h₂, h₃]
    · rfl
  rw [funext openingProgram_eq]
  exact (clause.bind_after _ (by decide)).bind_afterIndent

theorem programAfterBlank_padded : IgnoresPadding programAfterBlank := by
  intro line pad hp
  induction line with
  | nil =>
    show programAfterBlank pad = none
    induction pad with
    | nil => rfl
    | cons c rest ih =>
      rw [programAfterBlank, tight_programClause.blank hp.of_cons, ih hp.of_cons]
      simp
  | cons c rest ih =>
    rw [List.cons_append, programAfterBlank, programAfterBlank, ih,
      tight_programClause.padded rest hp]

theorem linkProgram_padded : IgnoresPadding linkProgram := by
  intro line pad hp
  rw [linkProgram, linkProgram, tight_openingProgram.padded line hp,
    tight_programClause.padded line hp, programAfterBlank_padded line hp]

theorem endExecAfter_padded (before : Option Char) : IgnoresPadding (endExecAfter before) := by
  have keyword := tight_keyword "END-EXEC" (c := 'C') (by decide) (by decide)
  intro line pad hp
  induction line generalizing before with
  | nil =>
    show endExecAfter before pad = false
    induction pad generalizing before with
    | nil => rfl
    | cons c rest ih =>
      rw [endExecAfter, any_wordEnds, keyword.blank hp, ih hp.of_cons]
      simp
  | cons c rest ih =>
    have hword : (after "END-EXEC" (c :: (rest ++ pad))).any wordEnds =
        (after "END-EXEC" (c :: rest)).any wordEnds := by
      rw [any_wordEnds, any_wordEnds]
      exact congrArg Option.isSome (keyword.padded (c :: rest) hp)
    rw [List.cons_append, endExecAfter, endExecAfter, ih, hword]

theorem hasEndExec_padded : IgnoresPadding hasEndExec := endExecAfter_padded none

/-! ### Fields -/

theorem tight_valueClause : Tight valueClause := by
  have dot (value : String) : Tight fun line => after "." line >>= fun _ => some value :=
    Tight.bind_word "." (c := '.') (by decide) (by decide) (ignoresPadding_const _)
  have value := Tight.bind_run inked_isNameChar fun value => (dot value).bind_afterQuote.padded
  exact value.bind_afterQuote.bind_afterSpaces.bind_after _ (by decide)

theorem tight_lastValue : Tight lastValue where
  padded line pad hp := by
    induction line with
    | nil =>
      show lastValue pad = none
      induction pad with
      | nil => rfl
      | cons c rest ih => rw [lastValue, tight_valueClause.blank hp, ih hp.of_cons]; rfl
    | cons c rest ih =>
      have hclause := tight_valueClause.padded (c :: rest) hp
      rw [List.cons_append] at hclause ⊢
      rw [lastValue, lastValue, ih, hclause]
  empty := rfl

theorem tight_fieldDeclaration : Tight fieldDeclaration := by
  have value (field : String) :=
    (tight_lastValue.comp_takeWhile (· != '\n')).map fun value => (field, value)
  have field := Tight.bind_run inked_isNameChar fun field =>
    ((value field).bind_after "PIC" (by decide)).bind_afterSpaces.padded
  exact (Tight.bind_run inked_isDigit fun _ => field.bind_afterSpaces.padded).bind_afterIndent

/-! ### Comments -/

theorem mem_of_charAtByte? {n : Nat} {line : Line} {c : Char}
    (h : Text.charAtByte? n line = some c) : c ∈ line := by
  induction line generalizing n with
  | nil => cases n <;> cases h
  | cons d rest ih =>
    cases n with
    | zero =>
      cases h
      exact List.mem_cons_self
    | succ n =>
      rw [Text.charAtByte?] at h
      split at h
      · exact List.mem_cons_of_mem d (ih h)
      · cases h

/-- A column of the padded line is one of the line, or it holds a blank or no character at all. -/
theorem charAtByte?_padded (n : Nat) (line : Line) {pad : Line} (hp : Blank pad) :
    Text.charAtByte? n (line ++ pad) = Text.charAtByte? n line ∨
      Text.charAtByte? n line = none ∧
        ∀ c, Text.charAtByte? n (line ++ pad) = some c → Text.isBlank c = true := by
  induction line generalizing n with
  | nil => exact .inr ⟨by cases n <;> rfl, fun c hc => hp c (mem_of_charAtByte? hc)⟩
  | cons d rest ih =>
    cases n with
    | zero => exact .inl rfl
    | succ n =>
      rw [List.cons_append, Text.charAtByte?, Text.charAtByte?]
      split
      · exact ih _
      · exact .inl rfl

theorem isComment_padded : IgnoresPadding isComment := by
  intro line pad hp
  unfold isComment
  rcases charAtByte?_padded 6 line hp with heq | ⟨hnone, hblank⟩
  · rw [heq]
  · rw [hnone]
    cases hsome : Text.charAtByte? 6 (line ++ pad) with
    | none => rfl
    | some c =>
      have hc := hblank c hsome
      show (c == '*' || c == '/') = false
      rw [Bool.or_eq_false_iff, beq_eq_false_iff_ne, beq_eq_false_iff_ne]
      constructor <;> rintro rfl <;> cases hc

end Statement
end CobolCalls
