import CobolCalls.Proofs.Shapes

/-
  The clauses that are searched for inside a line. A PROGRAM clause is taken where it is found
  first, a VALUE clause where it is found last, and a search may meet the keyword many times before
  the rest of the clause fits.

  Both searches go through the line character by character, and what they find is said here with
  positions: `First found p a` and `Last found p a` hold of the first and the last position at which
  anything is found at all. A line that is one character longer has its positions moved by one
  (`exists_first_iff`, `exists_last_iff`), and by these two the searches are followed step by step.
-/

namespace CobolCalls

open Statement

/-! ## First and last finds -/

section Finds

variable {α : Type} {found : Nat → α → Prop} {p q : Nat} {a b : α}

/-- `a` is found at position `p`, and nothing at a position before it. -/
def First (found : Nat → α → Prop) (p : Nat) (a : α) : Prop :=
  found p a ∧ ∀ q < p, ∀ b, ¬ found q b

/-- `a` is found at position `p`, and nothing at a position after it. -/
def Last (found : Nat → α → Prop) (p : Nat) (a : α) : Prop :=
  found p a ∧ ∀ q > p, ∀ b, ¬ found q b

theorem First.position_eq (hp : First found p a) (hq : First found q b) : p = q := by
  rcases Nat.lt_trichotomy p q with h | h | h
  · exact absurd hp.1 (hq.2 p h a)
  · exact h
  · exact absurd hq.1 (hp.2 q h b)

theorem exists_first_iff :
    (∃ p, First found p a) ↔
      found 0 a ∨ (∀ b, ¬ found 0 b) ∧ ∃ p, First (fun p => found (p + 1)) p a := by
  constructor
  · rintro ⟨p, hp, hbefore⟩
    cases p with
    | zero => exact .inl hp
    | succ p =>
      exact .inr ⟨hbefore 0 (Nat.succ_pos p), p, hp, fun q hq => hbefore _ (Nat.succ_lt_succ hq)⟩
  · rintro (h | ⟨hzero, p, hp, hbefore⟩)
    · exact ⟨0, h, fun q hq => absurd hq (Nat.not_lt_zero q)⟩
    · refine ⟨p + 1, hp, fun q hq => ?_⟩
      cases q with
      | zero => exact hzero
      | succ q => exact hbefore q (Nat.lt_of_succ_lt_succ hq)

theorem exists_last_iff :
    (∃ p, Last found p a) ↔
      (∃ p, Last (fun p => found (p + 1)) p a) ∨ (∀ p b, ¬ found (p + 1) b) ∧ found 0 a := by
  constructor
  · rintro ⟨p, hp, hafter⟩
    cases p with
    | zero => exact .inr ⟨fun q => hafter _ (Nat.succ_pos q), hp⟩
    | succ p => exact .inl ⟨p, hp, fun q hq => hafter _ (Nat.succ_lt_succ hq)⟩
  · rintro (⟨p, hp, hafter⟩ | ⟨hlater, hzero⟩)
    · refine ⟨p + 1, hp, fun q hq => ?_⟩
      cases q with
      | zero => exact absurd hq (Nat.not_lt_zero _)
      | succ q => exact hafter q (Nat.lt_of_succ_lt_succ hq)
    · refine ⟨0, hzero, fun q hq => ?_⟩
      cases q with
      | zero => exact absurd hq (Nat.lt_irrefl 0)
      | succ q => exact hlater q

/-- Where something is found, there is a first position of it. -/
theorem exists_first (h : found p a) : ∃ q b, First found q b := by
  induction p using Nat.strongRecOn generalizing a with
  | _ p ih =>
    by_cases hbefore : ∃ q, q < p ∧ ∃ b, found q b
    · obtain ⟨q, hq, b, hb⟩ := hbefore
      exact ih q hq hb
    · exact ⟨p, a, h, fun q hq b hb => hbefore ⟨q, hq, b, hb⟩⟩

end Finds

theorem orElse_eq_some_iff {α : Type} {x y : Option α} {a : α} :
    (x <|> y) = some a ↔ x = some a ∨ x = none ∧ y = some a := by
  cases x <;> simp

/-! ## PROGRAM clauses -/

/-- A target, after a quote or not. What follows it does not go on with it. -/
def TargetText (target : String) (text : Line) : Prop :=
  ∃ (quote : Option Char) (rest : Line), (∀ q ∈ quote, isQuote q = true) ∧
    Over isNameChar target ∧ Stops isNameChar rest ∧ text = quote.toList ++ target.toList ++ rest

/-- `PROGRAM`, a parenthesis with any number of spaces on both sides, and the target. -/
def ClauseText (target : String) (text : Line) : Prop :=
  ∃ gap gap' rest, TargetText target rest ∧
    text = "PROGRAM".toList ++ spaces gap ++ "(".toList ++ spaces gap' ++ rest

/-- `PROGRAM`, one or more spaces and the target. -/
def SpacedText (target : String) (text : Line) : Prop :=
  ∃ gap rest, 0 < gap ∧ TargetText target rest ∧ text = "PROGRAM".toList ++ spaces gap ++ rest

/-- An indented line whose text is a clause, with a parenthesis or with spaces. -/
def OpeningText (target : String) (line : Line) : Prop :=
  ∃ indent text, 8 ≤ indent ∧ line = spaces indent ++ text ∧
    (ClauseText target text ∨ SpacedText target text)

/-- The text starts at this position, or a blank stands right before it. -/
def Bounded (text : Line) : Nat → Prop
  | 0 => True
  | p + 1 => ∃ c, text[p]? = some c ∧ Text.isBlank c = true

/-- At this position, the line's start or right after a blank, a clause with a parenthesis is
read. -/
def ClauseAt (line : Line) (p : Nat) (target : String) : Prop :=
  Bounded line p ∧ ClauseText target (line.drop p)

/-- The clause whose keyword stands at position `p` names the target of the line: it opens the
line's text, or no clause does and it is the first one inside the line. -/
inductive Names (line : Line) : Nat → String → Prop where
  | opening {indent : Nat} {text : Line} {target : String} : 8 ≤ indent →
      line = spaces indent ++ text → ClauseText target text ∨ SpacedText target text →
      Names line indent target
  | inside {p : Nat} {target : String} : (∀ other, ¬ OpeningText other line) →
      First (ClauseAt line) p target → Names line p target

/-- A target starts with a quote or a character of its name. -/
theorem TargetText.stops {target : String} {text : Line} (h : TargetText target text) {d : Char}
    (hname : isNameChar d = false) (hquote : isQuote d = false) : Stops (· == d) text := by
  obtain ⟨quote, rest, hquotes, htarget, -, rfl⟩ := h
  rw [List.append_assoc]
  cases quote with
  | none => exact htarget.stops (htarget.beq_eq_false hname) rest
  | some q =>
    have hne : q ≠ d := by
      rintro rfl
      rw [hquotes q rfl] at hquote
      cases hquote
    exact .inr ⟨q, _, rfl, beq_eq_false_iff_ne.2 hne⟩

namespace Statement

theorem clauseTarget_eq_some_iff {text : Line} {target : String} :
    clauseTarget text = some target ↔ TargetText target text := by
  have quotes {target : String} (h : Over isNameChar target) (rest : Line) :
      Stops isQuote (target.toList ++ rest) :=
    (h.mono fun c hc => by rw [isOperandChar, hc]; rfl).stops_quotes rest
  simp only [clauseTarget, TargetText, Option.bind_eq_bind, Option.bind_eq_some_iff, Prod.exists,
    run_eq_some_iff, Option.pure_def, Option.some.injEq, List.append_assoc]
  constructor
  · rintro ⟨_, rest, ⟨htarget, htext, hstops⟩, rfl⟩
    obtain ⟨quote, hquote, rfl⟩ := (skipQuote_eq_iff (quotes htarget rest)).1 htext
    exact ⟨quote, rest, hquote, htarget, hstops, rfl⟩
  · rintro ⟨quote, rest, hquote, htarget, hstops, rfl⟩
    have hskip := (skipQuote_eq_iff (quotes htarget rest)).2 ⟨quote, hquote, rfl⟩
    exact ⟨target, rest, ⟨htarget, hskip, hstops⟩, rfl⟩

theorem programClause_eq_some_iff {text : Line} {target : String} :
    programClause text = some target ↔ ClauseText target text := by
  simp only [programClause, ClauseText, Option.bind_eq_bind, Option.bind_eq_some_iff,
    after_eq_some, clauseTarget_eq_some_iff, skipSpaces_eq_iff, List.append_assoc]
  constructor
  · rintro ⟨_, rfl, inner, ⟨gap, rfl, -⟩, htarget⟩
    obtain ⟨gap', hinner, -⟩ := skipSpaces_eq_iff.1 (rfl : skipSpaces inner = _)
    exact ⟨gap, gap', _, htarget, by rw [← hinner]⟩
  · rintro ⟨gap, gap', rest, htarget, rfl⟩
    refine ⟨_, rfl, spaces gap' ++ rest, ⟨gap, rfl, stops_cons rfl _⟩, ?_⟩
    rwa [skipSpaces_eq_iff.2 ⟨gap', rfl, htarget.stops rfl rfl⟩]

/-- A clause that opens the text has its parenthesis, or else spaces in its place. -/
theorem openingProgram_eq_some_iff {line : Line} {target : String} :
    openingProgram line = some target ↔ OpeningText target line := by
  simp only [openingProgram, OpeningText, Option.bind_eq_bind, Option.bind_eq_some_iff,
    afterIndent_eq_some_iff, after_eq_some]
  constructor
  · rintro ⟨_, ⟨indent, hindent, rfl, -⟩, line, rfl, h⟩
    refine ⟨indent, _, hindent, rfl, ?_⟩
    cases hopen : after "(" (skipSpaces line) with
    | some inner =>
      simp only [hopen] at h
      refine .inl (programClause_eq_some_iff.1 ?_)
      simp only [programClause, Option.bind_eq_bind, Option.bind_eq_some_iff, after_eq_some]
      exact ⟨line, rfl, inner, after_eq_some.1 hopen, h⟩
    | none =>
      simp only [hopen, Option.bind_eq_some_iff, afterSpaces_eq_some_iff,
        clauseTarget_eq_some_iff] at h
      obtain ⟨rest, ⟨gap, hgap, rfl, -⟩, htarget⟩ := h
      exact .inr ⟨gap, rest, hgap, htarget, (List.append_assoc ..).symm⟩
  · rintro ⟨indent, text, hindent, rfl, htext⟩
    have hstart {rest : Line} : Stops (· == ' ') ("PROGRAM".toList ++ rest) := stops_cons rfl _
    rcases htext with hclause | ⟨gap, rest, hgap, htarget, rfl⟩
    · have hclause := programClause_eq_some_iff.2 hclause
      simp only [programClause, Option.bind_eq_bind, Option.bind_eq_some_iff, after_eq_some]
        at hclause
      obtain ⟨line, rfl, inner, hopen, htarget⟩ := hclause
      refine ⟨_, ⟨indent, hindent, rfl, hstart⟩, line, rfl, ?_⟩
      simpa only [after_eq_some.2 hopen] using htarget
    · rw [List.append_assoc]
      refine ⟨_, ⟨indent, hindent, rfl, hstart⟩, _, rfl, ?_⟩
      have hskip := skipSpaces_eq_iff.2 ⟨gap, rfl, htarget.stops rfl rfl⟩
      have hshut : after "(" (skipSpaces (spaces gap ++ rest)) = none := by
        rw [hskip]
        refine Option.eq_none_iff_forall_ne_some.2 fun inner hinner => ?_
        rw [after_eq_some.1 hinner] at htarget
        obtain hnil | ⟨c, tail, hcons, hc⟩ := htarget.stops (d := '(') rfl rfl
        · cases hnil
        · cases hcons
          cases hc
      simp only [hshut, Option.bind_eq_some_iff, afterSpaces_eq_some_iff, clauseTarget_eq_some_iff]
      exact ⟨rest, ⟨gap, hgap, rfl, htarget.stops rfl rfl⟩, htarget⟩

end Statement

/-! ## The search for a PROGRAM clause -/

theorem clauseAt_zero_iff {line : Line} {target : String} :
    ClauseAt line 0 target ↔ ClauseText target line :=
  and_iff_right trivial

theorem clauseAt_one_iff {c : Char} {rest : Line} {target : String} :
    ClauseAt (c :: rest) 1 target ↔ Text.isBlank c = true ∧ ClauseText target rest := by
  simp [ClauseAt, Bounded]

theorem not_clauseText_nil {target : String} : ¬ ClauseText target [] := by
  rintro ⟨gap, gap', rest, -, heq⟩
  cases heq

namespace Statement

theorem programAfterBlank_eq_some_iff {line : Line} {target : String} :
    programAfterBlank line = some target ↔
      ∃ p, First (fun p => ClauseAt line (p + 1)) p target := by
  induction line with
  | nil =>
    constructor
    · intro h
      cases h
    · rintro ⟨p, ⟨-, htext⟩, -⟩
      rw [List.drop_nil] at htext
      exact absurd htext not_clauseText_nil
  | cons c rest ih =>
    have hnext : (if Text.isBlank c then programClause rest else none) = some target ↔
        ClauseAt (c :: rest) 1 target := by
      rw [clauseAt_one_iff, ← programClause_eq_some_iff]
      split <;> simp [*]
    have hnone : (if Text.isBlank c then programClause rest else none) = none ↔
        ∀ other, ¬ ClauseAt (c :: rest) 1 other := by
      simp only [clauseAt_one_iff, ← programClause_eq_some_iff]
      split <;> simp [*, Option.eq_none_iff_forall_ne_some]
    -- behind the first character every position of the line is one of the rest
    have hsplit : (∃ p, First (fun p => ClauseAt (c :: rest) (p + 1)) p target) ↔
        ClauseAt (c :: rest) 1 target ∨ (∀ other, ¬ ClauseAt (c :: rest) 1 other) ∧
          ∃ p, First (fun p => ClauseAt rest (p + 1)) p target := exists_first_iff
    rw [programAfterBlank, orElse_eq_some_iff, hnext, hnone, ih, hsplit]

/-- The search inside a line finds the first clause. -/
theorem programInside_eq_some_iff {line : Line} {target : String} :
    (programClause line <|> programAfterBlank line) = some target ↔
      ∃ p, First (ClauseAt line) p target := by
  rw [orElse_eq_some_iff, exists_first_iff, programAfterBlank_eq_some_iff]
  simp only [clauseAt_zero_iff, ← programClause_eq_some_iff, Option.eq_none_iff_forall_ne_some,
    ne_eq]

theorem programInside_eq_none_iff {line : Line} :
    (programClause line <|> programAfterBlank line) = none ↔
      ∀ p target, ¬ ClauseAt line p target := by
  rw [Option.eq_none_iff_forall_ne_some]
  constructor
  · intro h p target hclause
    obtain ⟨q, other, hfirst⟩ := exists_first hclause
    exact h other (programInside_eq_some_iff.2 ⟨q, hfirst⟩)
  · intro h target htarget
    obtain ⟨p, hfirst⟩ := programInside_eq_some_iff.1 htarget
    exact h p target hfirst.1

end Statement

theorem bounded_indent (indent : Nat) (text : Line) : Bounded (spaces indent ++ text) indent := by
  cases indent with
  | zero => trivial
  | succ n =>
    refine ⟨' ', ?_, rfl⟩
    rw [List.getElem?_append_left (by simp [spaces])]
    simp [spaces]

/-- Behind an indentation a clause with a parenthesis is the first one of the line. -/
theorem first_clauseAt_indent {text : Line} {target : String} (h : ClauseText target text)
    (indent : Nat) : First (ClauseAt (spaces indent ++ text)) indent target := by
  refine ⟨⟨bounded_indent indent text, ?_⟩, ?_⟩
  · rwa [List.drop_left' (by simp [spaces])]
  · rintro q hq other ⟨-, _, _, _, -, heq⟩
    -- before the text there are only spaces, and no keyword starts with one
    have hspace : ((spaces indent ++ text).drop q).head? = some ' ' := by
      rw [List.head?_drop, List.getElem?_append_left (by simpa [spaces] using hq)]
      simp [spaces, hq]
    rw [heq] at hspace
    cases hspace

theorem Names.bounded {line : Line} {p : Nat} {target : String} (h : Names line p target) :
    Bounded line p := by
  cases h with
  | opening _ hline _ => exact hline ▸ bounded_indent ..
  | inside _ hfirst => exact hfirst.1.1

namespace Statement

theorem linkProgram_of_opening {line : Line} {target : String} (h : OpeningText target line) :
    linkProgram line = some target := by
  rw [linkProgram, openingProgram_eq_some_iff.2 h]
  rfl

theorem linkProgram_of_not_opening {line : Line} (h : ∀ target, ¬ OpeningText target line) :
    linkProgram line = (programClause line <|> programAfterBlank line) := by
  have hnone : openingProgram line = none :=
    Option.eq_none_iff_forall_ne_some.2 fun target ht => h target (openingProgram_eq_some_iff.1 ht)
  rw [linkProgram, hnone]
  rfl

theorem linkProgram_eq_some_iff {line : Line} {target : String} :
    linkProgram line = some target ↔ ∃ p, Names line p target := by
  by_cases hopen : ∃ other, OpeningText other line
  · obtain ⟨other, hother⟩ := hopen
    rw [linkProgram_of_opening hother]
    constructor
    · rintro ⟨⟩
      obtain ⟨indent, text, hindent, hline, htext⟩ := hother
      exact ⟨indent, .opening hindent hline htext⟩
    · rintro ⟨p, hp⟩
      cases hp with
      | opening hindent hline htext =>
        exact (linkProgram_of_opening hother).symm.trans
          (linkProgram_of_opening ⟨_, _, hindent, hline, htext⟩)
      | inside hnone _ => exact absurd hother (hnone other)
  · rw [not_exists] at hopen
    rw [linkProgram_of_not_opening hopen, programInside_eq_some_iff]
    constructor
    · rintro ⟨p, hfirst⟩
      exact ⟨p, .inside hopen hfirst⟩
    · rintro ⟨p, hp⟩
      cases hp with
      | opening hindent hline htext => exact absurd ⟨_, _, hindent, hline, htext⟩ (hopen target)
      | inside _ hfirst => exact ⟨p, hfirst⟩

/-- **The right PROGRAM clause is found.** A clause that opens the line's text names the target,
whether it has a parenthesis or spaces. Otherwise the first one inside the line does that has a
parenthesis and stands at the start of the line or right after a blank; without one there is no
target. So a keyword behind any other character names nothing, and of a clause that opens the text
with a parenthesis the search inside the line would find the same target. -/
theorem linkProgram_finds_its_clause (line : Line) :
    (∀ target, OpeningText target line → linkProgram line = some target) ∧
    ((∀ target, ¬ OpeningText target line) →
      (∀ target, linkProgram line = some target ↔ ∃ p, First (ClauseAt line) p target) ∧
      (linkProgram line = none ↔ ∀ p target, ¬ ClauseAt line p target)) ∧
    (∀ target, linkProgram line = some target ↔ ∃ p, Names line p target) ∧
    (∀ before c after, line = before ++ c :: after → Text.isBlank c = false →
      ∀ target, ¬ Names line (before.length + 1) target) ∧
    (∀ indent text target, 8 ≤ indent → line = spaces indent ++ text → ClauseText target text →
      ∀ p other, First (ClauseAt line) p other ↔ p = indent ∧ other = target) := by
  refine ⟨fun target => linkProgram_of_opening, fun hnone => ?_,
    fun target => linkProgram_eq_some_iff, ?_, ?_⟩
  · rw [linkProgram_of_not_opening hnone]
    exact ⟨fun target => programInside_eq_some_iff, programInside_eq_none_iff⟩
  · intro before c after hline hblank target hnames
    obtain ⟨d, hd, hd'⟩ := hnames.bounded
    rw [hline, List.getElem?_append_right (Nat.le_refl _), Nat.sub_self] at hd
    cases hd
    rw [hblank] at hd'
    cases hd'
  · rintro indent text target hindent rfl htext p other
    have hfirst := first_clauseAt_indent htext indent
    constructor
    · intro hp
      refine ⟨hp.position_eq hfirst, Option.some.inj ?_⟩
      rw [← programInside_eq_some_iff.2 ⟨p, hp⟩, ← programInside_eq_some_iff.2 ⟨indent, hfirst⟩]
    · rintro ⟨hp, rfl⟩
      rwa [hp]

/-- The first keyword belongs to a longer name, and the second lacks its parenthesis. -/
example : linkProgram "        COMMAREA(WRK-PROGRAM(1)) PROGRAM PROGRAM ( 'ONL1')".toList =
    some "ONL1" := by
  decide

end Statement

/-! ## Declarations and their VALUE clauses -/

/-- ` VALUE`, one or more spaces, a literal in quotes and a full stop. -/
def ValueText (value : String) (text : Line) : Prop :=
  ∃ gap opening closing rest, 0 < gap ∧ isQuote opening = true ∧ Over isNameChar value ∧
    isQuote closing = true ∧
    text = " VALUE".toList ++ spaces gap ++ [opening] ++ value.toList ++ [closing] ++ ".".toList ++
      rest

/-- A VALUE clause is read at this position of the text. -/
def ValueAt (text : Line) (p : Nat) (value : String) : Prop := ValueText value (text.drop p)

/-- The text of `NN FIELD PIC ... VALUE 'LITERAL'.`, where the literal is that of the last VALUE
clause after `PIC`. -/
def DeclarationText (declared : String × String) (line : Line) : Prop :=
  ∃ indent level gap gap' text, 8 ≤ indent ∧ Over isDigit level ∧ 0 < gap ∧
    Over isNameChar declared.1 ∧ 0 < gap' ∧ (∃ p, Last (ValueAt text) p declared.2) ∧
    line = spaces indent ++ level.toList ++ spaces gap ++ declared.1.toList ++ spaces gap' ++
      "PIC".toList ++ text

theorem stops_spaces_append {gap : Nat} (h : 0 < gap) {alphabet : Char → Bool}
    (hspace : alphabet ' ' = false) (rest : Line) : Stops alphabet (spaces gap ++ rest) := by
  obtain ⟨more, rfl⟩ := Nat.exists_eq_add_of_lt h
  exact stops_cons hspace _

namespace Statement

theorem valueClause_eq_some_iff {text : Line} {value : String} :
    valueClause text = some value ↔ ValueText value text := by
  simp only [valueClause, ValueText, Option.bind_eq_bind, Option.bind_eq_some_iff, Prod.exists,
    after_eq_some, afterSpaces_eq_some_iff, afterQuote_eq_some_iff, run_eq_some_iff,
    Option.pure_def, Option.some.injEq, List.append_assoc]
  constructor
  · rintro ⟨_, rfl, _, ⟨gap, hgap, rfl, -⟩, _, ⟨q, hq, rfl⟩, _, _, ⟨hvalue, rfl, -⟩, _,
      ⟨q', hq', rfl⟩, rest, rfl, rfl⟩
    exact ⟨gap, q, q', rest, hgap, hq, hvalue, hq', rfl⟩
  · rintro ⟨gap, q, q', rest, hgap, hq, hvalue, hq', rfl⟩
    exact ⟨_, rfl, _, ⟨gap, hgap, rfl, stops_quote hq rfl rfl _⟩, _, ⟨q, hq, rfl⟩, _, _,
      ⟨hvalue, rfl, stops_quote hq' rfl rfl _⟩, _, ⟨q', hq', rfl⟩, rest, rfl, rfl⟩

theorem lastValue_eq_none_iff {text : Line} :
    lastValue text = none ↔ ∀ p value, ¬ ValueAt text p value := by
  induction text with
  | nil =>
    refine iff_of_true rfl fun p value => ?_
    rintro ⟨_, _, _, _, -, -, -, -, heq⟩
    rw [List.drop_nil] at heq
    cases heq
  | cons c rest ih =>
    have hhere : valueClause (c :: rest) = none ↔ ∀ value, ¬ ValueAt (c :: rest) 0 value := by
      simp only [ValueAt, List.drop_zero, ← valueClause_eq_some_iff,
        Option.eq_none_iff_forall_ne_some, ne_eq]
    have hboth : lastValue (c :: rest) = none ↔
        lastValue rest = none ∧ valueClause (c :: rest) = none := by
      rw [lastValue]
      cases lastValue rest <;> simp
    rw [hboth, ih, hhere]
    constructor
    · rintro ⟨hlater, hzero⟩ p
      cases p with
      | zero => exact hzero
      | succ p => exact hlater p
    · exact fun h => ⟨fun p => h (p + 1), h 0⟩

/-- The search through a declaration finds the last VALUE clause. -/
theorem lastValue_eq_some_iff {text : Line} {value : String} :
    lastValue text = some value ↔ ∃ p, Last (ValueAt text) p value := by
  induction text with
  | nil =>
    have hnone := lastValue_eq_none_iff.1 (rfl : lastValue [] = none)
    constructor
    · intro h
      cases h
    · rintro ⟨p, hp, -⟩
      exact absurd hp (hnone p value)
  | cons c rest ih =>
    -- behind the first character every position of the text is one of the rest
    have hsplit : (∃ p, Last (ValueAt (c :: rest)) p value) ↔
        (∃ p, Last (ValueAt rest) p value) ∨
          (∀ p other, ¬ ValueAt rest p other) ∧ ValueText value (c :: rest) := exists_last_iff
    rw [lastValue, orElse_eq_some_iff, ih, lastValue_eq_none_iff, valueClause_eq_some_iff, hsplit]

theorem fieldDeclaration_eq_some_iff {line : Line} (hline : '\n' ∉ line)
    {declared : String × String} :
    fieldDeclaration line = some declared ↔ DeclarationText declared line := by
  have whole {text : Line} (h : '\n' ∉ text) : text.takeWhile (· != '\n') = text := by
    refine List.takeWhile_eq_self_iff.2 fun c hc => ?_
    rw [bne_iff_ne]
    rintro rfl
    exact h hc
  simp only [fieldDeclaration, DeclarationText, Option.bind_eq_bind, Option.bind_eq_some_iff,
    Prod.exists, afterIndent_eq_some_iff, run_eq_some_iff, afterSpaces_eq_some_iff, after_eq_some,
    ← lastValue_eq_some_iff, Option.pure_def, Option.some.injEq, List.append_assoc]
  constructor
  · rintro ⟨_, ⟨indent, hindent, rfl, -⟩, level, _, ⟨hlevel, rfl, -⟩, _, ⟨gap, hgap, rfl, -⟩,
      field, _, ⟨hfield, rfl, -⟩, _, ⟨gap', hgap', rfl, -⟩, text, rfl, value, hvalue, rfl⟩
    have htext : '\n' ∉ text := fun h => hline (by simp [h])
    rw [whole htext] at hvalue
    exact ⟨indent, level, gap, gap', text, hindent, hlevel, hgap, hfield, hgap', hvalue, rfl⟩
  · rintro ⟨indent, level, gap, gap', text, hindent, hlevel, hgap, hfield, hgap', hvalue, rfl⟩
    have htext : '\n' ∉ text := fun h => hline (by simp [h])
    rw [← whole htext] at hvalue
    exact ⟨_, ⟨indent, hindent, rfl, hlevel.stops_spaces rfl _⟩, level, _,
      ⟨hlevel, rfl, stops_spaces_append hgap rfl _⟩, _,
      ⟨gap, hgap, rfl, hfield.stops_spaces rfl _⟩, _, _,
      ⟨hfield, rfl, stops_spaces_append hgap' rfl _⟩, _,
      ⟨gap', hgap', rfl, stops_cons rfl _⟩, text, rfl, _, hvalue, rfl⟩

end Statement
end CobolCalls
