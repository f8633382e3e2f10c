import CobolCalls.Statement
import Mathlib.Data.List.Infix
import Mathlib.Data.List.TakeWhile

/-
  Which recognisers can succeed on one line. A heading's text stands right after the margin and a
  statement's text is indented further, so no line is both. Two statements begin with keywords of
  which neither starts the other, and a program heading begins with a letter where section
  headings and exits have a digit. Hence the order in which the recognisers are tried is never
  what decides.

  And what they capture: names that are not empty and over the alphabet of their form.
-/

namespace CobolCalls.Statement

theorem after_eq_some {word : String} {line rest : Line} :
    after word line = some rest ↔ line = word.toList ++ rest := by
  rw [after, List.isPrefixOf?_eq_some_iff_append_eq, eq_comm]

theorem run_eq_some {alphabet : Char → Bool} {line rest : Line} {name : String}
    (h : run alphabet line = some (name, rest)) :
    name.toList = line.takeWhile alphabet ∧ rest = line.dropWhile alphabet ∧
      line.takeWhile alphabet ≠ [] := by
  unfold run at h
  split at h
  next => cases h
  next ne =>
    obtain ⟨rfl, rfl⟩ := Prod.mk.inj (Option.some.inj h)
    exact ⟨String.toList_ofList, rfl, ne⟩

/-- What a run starts with is in its alphabet. -/
theorem run_head {alphabet : Char → Bool} {line rest : Line} {name : String}
    (h : run alphabet line = some (name, rest)) :
    ∃ c tail, line = c :: tail ∧ alphabet c = true := by
  have ne := (run_eq_some h).2.2
  cases line with
  | nil => exact absurd rfl ne
  | cons c tail =>
    refine ⟨c, tail, rfl, ?_⟩
    by_contra hc
    exact ne (by simp [hc])

/-! ## Headings -/

/-- The line's text stands right after the margin and starts with `c`. -/
def Heads (c : Char) (line : Line) : Prop := ∃ rest, afterMargin line = some (c :: rest)

theorem Heads.unique {c d : Char} {line : Line} (hc : Heads c line) (hd : Heads d line) :
    c = d := by
  obtain ⟨rest, hrest⟩ := hc
  obtain ⟨rest', hrest'⟩ := hd
  rw [hrest] at hrest'
  exact (List.cons.inj (Option.some.inj hrest')).1

theorem programId_heads {line : Line} {name : String} (h : programId line = some name) :
    Heads 'P' line := by
  obtain ⟨text, hmargin, h⟩ := Option.bind_eq_some_iff.1 h
  obtain ⟨rest, hword, -⟩ := Option.bind_eq_some_iff.1 h
  rw [after_eq_some] at hword
  exact ⟨_, hmargin.trans (congrArg some hword)⟩

theorem heads_of_margin_run {line text rest : Line} {number : String}
    (hmargin : afterMargin line = some text) (hrun : run isDigit text = some (number, rest)) :
    ∃ c, Heads c line ∧ isDigit c = true := by
  obtain ⟨c, tail, rfl, hc⟩ := run_head hrun
  exact ⟨c, ⟨tail, hmargin⟩, hc⟩

theorem sectionBegin_heads {line : Line} {name : SectionName} (h : sectionBegin line = some name) :
    ∃ c, Heads c line ∧ isDigit c = true := by
  obtain ⟨text, hmargin, h⟩ := Option.bind_eq_some_iff.1 h
  obtain ⟨_, hname, -⟩ := Option.bind_eq_some_iff.1 h
  obtain ⟨_, hrun, -⟩ := Option.bind_eq_some_iff.1 hname
  exact heads_of_margin_run hmargin hrun

theorem sectionExit_heads {line : Line} {number : String} (h : sectionExit line = some number) :
    ∃ c, Heads c line ∧ isDigit c = true := by
  obtain ⟨text, hmargin, h⟩ := Option.bind_eq_some_iff.1 h
  obtain ⟨_, hrun, -⟩ := Option.bind_eq_some_iff.1 h
  exact heads_of_margin_run hmargin hrun

theorem programId_eq_none_of_sectionBegin {line : Line} {name : SectionName}
    (h : sectionBegin line = some name) : programId line = none := by
  refine Option.eq_none_iff_forall_ne_some.2 fun program hp => ?_
  obtain ⟨c, hc, hdigit⟩ := sectionBegin_heads h
  have hp : 'P' = c := (programId_heads hp).unique hc
  subst hp
  exact absurd hdigit (by decide)

/-! ## Statements -/

/-- The line's text is indented beyond the margin and starts with `word`. -/
def Indented (word : String) (line : Line) : Prop :=
  ∃ rest, afterIndent line = some (word.toList ++ rest)

/-- Of two words that start the same text, one starts the other. -/
theorem Indented.comparable {word word' : String} {line : Line} (h : Indented word line)
    (h' : Indented word' line) :
    word.toList <+: word'.toList ∨ word'.toList <+: word.toList := by
  obtain ⟨rest, hrest⟩ := h
  obtain ⟨rest', hrest'⟩ := h'
  rw [hrest] at hrest'
  have same : word.toList ++ rest = word'.toList ++ rest' := Option.some.inj hrest'
  exact List.prefix_or_prefix_of_prefix ⟨rest, same⟩ ⟨rest', rfl⟩

theorem not_heads_of_indented {word : String} {line : Line} {c : Char} (h : Indented word line)
    (hc : c ≠ ' ') : ¬ Heads c line := by
  rintro ⟨rest, hrest⟩
  obtain ⟨text, htext⟩ := h
  rw [afterIndent, hrest] at htext
  -- a text that starts with no space has no indentation
  have : afterSpaces (c :: rest) = none := by
    unfold afterSpaces
    split
    next heq => exact absurd (List.cons.inj heq).1 hc
    next => rfl
  rw [Option.bind_eq_bind, Option.bind_some, this] at htext
  cases htext

theorem indented_of_bind {α : Type} {word : String} {line : Line} {f : Line → Option α} {a : α}
    (h : (afterIndent line >>= fun text => after word text >>= f) = some a) :
    Indented word line := by
  obtain ⟨text, hindent, h⟩ := Option.bind_eq_some_iff.1 h
  obtain ⟨rest, hword, -⟩ := Option.bind_eq_some_iff.1 h
  exact ⟨rest, hindent.trans (congrArg some (after_eq_some.1 hword))⟩

theorem assignment_indented {line : Line} {move : String × String}
    (h : assignment line = some move) : Indented "MOVE" line := indented_of_bind h

theorem performTarget_indented {line : Line} {target : SectionName}
    (h : performTarget line = some target) : Indented "PERFORM" line := indented_of_bind h

theorem callTarget_indented {line : Line} {target : String}
    (h : callTarget line = some target) : Indented "CALL" line := indented_of_bind h

theorem isLinkBegin_indented {line : Line} (h : isLinkBegin line = true) :
    Indented "EXEC" line := by
  obtain ⟨rest, hrest, -⟩ := (Option.any_eq_true _ _).1 h
  exact indented_of_bind hrest

/-- No two statements, of which neither keyword starts the other, share a line. -/
theorem Indented.not_indented {word word' : String} {line : Line} (h : Indented word line)
    (apart : ¬ (word.toList <+: word'.toList ∨ word'.toList <+: word.toList)) :
    ¬ Indented word' line :=
  fun h' => apart (h.comparable h')

theorem not_digit_heads_of_indented {word : String} {line : Line} (h : Indented word line) :
    ¬ ∃ c, Heads c line ∧ isDigit c = true := by
  rintro ⟨c, hc, hdigit⟩
  refine not_heads_of_indented h ?_ hc
  rintro rfl
  exact absurd hdigit (by decide)

theorem sectionBegin_eq_none_of_indented {word : String} {line : Line} (h : Indented word line) :
    sectionBegin line = none :=
  Option.eq_none_iff_forall_ne_some.2 fun _ hb =>
    not_digit_heads_of_indented h (sectionBegin_heads hb)

theorem sectionExit_eq_none_of_indented {word : String} {line : Line} (h : Indented word line) :
    sectionExit line = none :=
  Option.eq_none_iff_forall_ne_some.2 fun _ he =>
    not_digit_heads_of_indented h (sectionExit_heads he)

theorem assignment_eq_none_of_indented {word : String} {line : Line} (h : Indented word line)
    (apart : ¬ (word.toList <+: "MOVE".toList ∨ "MOVE".toList <+: word.toList)) :
    assignment line = none :=
  Option.eq_none_iff_forall_ne_some.2 fun _ ha => h.not_indented apart (assignment_indented ha)

theorem performTarget_eq_none_of_indented {word : String} {line : Line} (h : Indented word line)
    (apart : ¬ (word.toList <+: "PERFORM".toList ∨ "PERFORM".toList <+: word.toList)) :
    performTarget line = none :=
  Option.eq_none_iff_forall_ne_some.2 fun _ hp => h.not_indented apart (performTarget_indented hp)

theorem callTarget_eq_none_of_indented {word : String} {line : Line} (h : Indented word line)
    (apart : ¬ (word.toList <+: "CALL".toList ∨ "CALL".toList <+: word.toList)) :
    callTarget line = none :=
  Option.eq_none_iff_forall_ne_some.2 fun _ hc => h.not_indented apart (callTarget_indented hc)

end CobolCalls.Statement

namespace CobolCalls

open Statement

/-! ## Captured names -/

/-- Not empty, and all its characters are in the alphabet. -/
structure Over (alphabet : Char → Bool) (name : String) : Prop where
  ne_empty : name ≠ ""
  chars : ∀ c ∈ name.toList, alphabet c = true

theorem Over.mono {alphabet wider : Char → Bool} {name : String} (h : Over alphabet name)
    (hsub : ∀ c, alphabet c = true → wider c = true) : Over wider name :=
  ⟨h.ne_empty, fun c hc => hsub c (h.chars c hc)⟩

theorem Over.beq_eq_false {alphabet : Char → Bool} {name : String} (h : Over alphabet name)
    {d : Char} (hd : alphabet d = false) : ∀ c ∈ name.toList, (c == d) = false := by
  intro c hc
  rw [beq_eq_false_iff_ne]
  rintro rfl
  rw [h.chars c hc] at hd
  cases hd

/-- A name's number and title are over their alphabets. -/
structure SectionName.WellFormed (s : SectionName) : Prop where
  number : Over isDigit s.number
  title : Over isNameChar s.title

namespace Statement

theorem over_of_run {alphabet : Char → Bool} {line rest : Line} {name : String}
    (h : run alphabet line = some (name, rest)) : Over alphabet name := by
  obtain ⟨htake, -, hne⟩ := run_eq_some h
  refine ⟨?_, ?_⟩
  · rintro rfl
    exact hne htake.symm
  · intro c hc
    rw [htake] at hc
    exact List.mem_takeWhile_imp hc

theorem eq_some_or_of_orElse {α : Type} {a b : Option α} {x : α} (h : (a <|> b) = some x) :
    a = some x ∨ b = some x := by
  cases a with
  | none => exact .inr h
  | some y => exact .inl h

/-- Whatever line the form reads, what it captures has the property. -/
def Captures {α : Type} (P : α → Prop) (form : Line → Option α) : Prop :=
  ∀ line a, form line = some a → P a

namespace Captures

variable {α : Type} {P : α → Prop} {form : Line → Option α}

theorem const {a : α} (h : P a) : Captures P fun _ => some a := by
  intro line b hb
  cases hb
  exact h

/-- Nothing is captured by what only reads on. -/
theorem bind (h : Captures P form) (read : Line → Option Line) :
    Captures P fun line => read line >>= form := by
  intro line a ha
  obtain ⟨rest, -, ha⟩ := Option.bind_eq_some_iff.1 ha
  exact h rest a ha

theorem comp (h : Captures P form) (skip : Line → Line) : Captures P fun line => form (skip line) :=
  fun line a ha => h (skip line) a ha

theorem bind_run {alphabet : Char → Bool} {form : String → Line → Option α}
    (h : ∀ name, Over alphabet name → Captures P (form name)) :
    Captures P fun line => run alphabet line >>= fun (name, rest) => form name rest := by
  intro line a ha
  obtain ⟨read, hrun, ha⟩ := Option.bind_eq_some_iff.1 ha
  exact h read.1 (over_of_run hrun) read.2 a ha

theorem bind_sectionName {form : SectionName → Line → Option α}
    (h : ∀ name, name.WellFormed → Captures P (form name)) :
    Captures P fun line => sectionName line >>= fun (name, rest) => form name rest := by
  have title (number : String) (hnumber : Over isDigit number) :=
    bind_run fun title htitle => h ⟨number, title⟩ ⟨hnumber, htitle⟩
  have number := bind_run fun number hnumber => (title number hnumber).bind (after "-")
  simpa only [sectionName, bind_assoc, pure_bind] using number

theorem orElse {other : Line → Option α} (h : Captures P form) (h' : Captures P other) :
    Captures P fun line => form line <|> other line := by
  intro line a ha
  rcases eq_some_or_of_orElse ha with ha | ha
  · exact h line a ha
  · exact h' line a ha

end Captures

theorem captures_programId : Captures (Over isProgramChar) programId := by
  have name := Captures.bind_run fun name (hname : Over isProgramChar name) =>
    (Captures.const hname).bind (after ".")
  exact ((name.bind afterSpaces).bind (after "PROGRAM-ID.")).bind afterMargin

theorem captures_sectionBegin : Captures SectionName.WellFormed sectionBegin := by
  have name := Captures.bind_sectionName fun name hname =>
    ((Captures.const hname).bind (after "SECTION.")).bind afterSpaces
  exact name.bind afterMargin

theorem captures_performTarget : Captures SectionName.WellFormed performTarget := by
  have name := Captures.bind_sectionName fun name hname => Captures.const hname
  exact ((name.bind afterSpaces).bind (after "PERFORM")).bind afterIndent

theorem captures_callTarget : Captures (Over isOperandChar) callTarget := by
  have name := Captures.bind_run fun name (hname : Over isOperandChar name) => Captures.const hname
  exact (((name.comp skipQuote).bind afterSpaces).bind (after "CALL")).bind afterIndent

theorem captures_clauseTarget : Captures (Over isNameChar) clauseTarget := by
  have name := Captures.bind_run fun name (hname : Over isNameChar name) => Captures.const hname
  exact name.comp skipQuote

theorem captures_programClause : Captures (Over isNameChar) programClause := by
  have inner := (captures_clauseTarget.comp skipSpaces).bind (after "(")
  exact (inner.comp skipSpaces).bind (after "PROGRAM")

theorem captures_openingProgram : Captures (Over isNameChar) openingProgram := by
  intro line target h
  obtain ⟨_, -, h⟩ := Option.bind_eq_some_iff.1 h
  obtain ⟨_, -, h⟩ := Option.bind_eq_some_iff.1 h
  split at h
  · exact captures_clauseTarget _ target h
  · exact captures_clauseTarget.bind afterSpaces _ target h

theorem captures_programAfterBlank : Captures (Over isNameChar) programAfterBlank := by
  intro line target h
  induction line with
  | nil => cases h
  | cons c rest ih =>
    rw [programAfterBlank] at h
    rcases eq_some_or_of_orElse h with h | h
    · split at h
      · exact captures_programClause rest target h
      · cases h
    · exact ih h

theorem captures_linkProgram : Captures (Over isNameChar) linkProgram :=
  captures_openingProgram.orElse (captures_programClause.orElse captures_programAfterBlank)

end Statement
end CobolCalls
