import CobolCalls.Proofs.Recognition

/-
  The texts that the anchored recognisers accept, and what they capture from them. A recogniser
  reads from the left and takes every run as long as it can; its text is given here as a
  concatenation, cut wherever the form allows it. The two agree, on every line, because a longest
  run is cut off in one way only (`span_iff`) and no form goes on with a character of the run
  before it. So what a form captures is unique.
-/

namespace CobolCalls

open Statement

/-! ## Texts -/

def spaces (n : Nat) : Line := List.replicate n ' '

/-- Nothing, or a text that starts with a character outside the alphabet. -/
def Stops (alphabet : Char → Bool) (rest : Line) : Prop :=
  rest = [] ∨ ∃ c tail, rest = c :: tail ∧ alphabet c = false

/-- The text of `PROGRAM-ID. NAME.` -/
def ProgramIdText (name : String) (line : Line) : Prop :=
  ∃ gap rest, 0 < gap ∧ Over isProgramChar name ∧
    line = spaces 7 ++ "PROGRAM-ID.".toList ++ spaces gap ++ name.toList ++ ".".toList ++ rest

/-- The text of `NNNN-TITLE SECTION.` -/
def SectionBeginText (name : SectionName) (line : Line) : Prop :=
  ∃ gap rest, 0 < gap ∧ Over isDigit name.number ∧ Over isNameChar name.title ∧
    line = spaces 7 ++ name.number.toList ++ "-".toList ++ name.title.toList ++ spaces gap ++
      "SECTION.".toList ++ rest

/-- The text of `NNNN-99-FIM. EXIT.` -/
def SectionExitText (number : String) (line : Line) : Prop :=
  ∃ gap rest, 0 < gap ∧ Over isDigit number ∧
    line = spaces 7 ++ number.toList ++ "-99-FIM.".toList ++ spaces gap ++ "EXIT.".toList ++ rest

/-- The text of `MOVE 'VALUE' TO FIELD` -/
def AssignmentText (move : String × String) (line : Line) : Prop :=
  ∃ indent gap opening closing gap' gap'' rest, 8 ≤ indent ∧ 0 < gap ∧ isQuote opening = true ∧
    Over isOperandChar move.1 ∧ isQuote closing = true ∧ 0 < gap' ∧ 0 < gap'' ∧
    Over isOperandChar move.2 ∧ Stops isOperandChar rest ∧
    line = spaces indent ++ "MOVE".toList ++ spaces gap ++ [opening] ++ move.1.toList ++
      [closing] ++ spaces gap' ++ "TO".toList ++ spaces gap'' ++ move.2.toList ++ rest

/-- The text of `PERFORM NNNN-TITLE` -/
def PerformText (name : SectionName) (line : Line) : Prop :=
  ∃ indent gap rest, 8 ≤ indent ∧ 0 < gap ∧ Over isDigit name.number ∧
    Over isNameChar name.title ∧ Stops isNameChar rest ∧
    line = spaces indent ++ "PERFORM".toList ++ spaces gap ++ name.number.toList ++ "-".toList ++
      name.title.toList ++ rest

/-- The text of `CALL 'PROGRAM'` or `CALL FIELD` -/
def CallText (target : String) (line : Line) : Prop :=
  ∃ (indent gap : Nat) (quote : Option Char) (rest : Line), 8 ≤ indent ∧ 0 < gap ∧
    (∀ q ∈ quote, isQuote q = true) ∧ Over isOperandChar target ∧ Stops isOperandChar rest ∧
    line = spaces indent ++ "CALL".toList ++ spaces gap ++ quote.toList ++ target.toList ++ rest

/-! ## Longest runs -/

theorem stops_cons {alphabet : Char → Bool} {c : Char} (h : alphabet c = false) (rest : Line) :
    Stops alphabet (c :: rest) :=
  .inr ⟨c, rest, rfl, h⟩

theorem stops_quote {alphabet : Char → Bool} {q : Char} (hq : isQuote q = true)
    (hsingle : alphabet '\'' = false) (hdouble : alphabet '"' = false) (rest : Line) :
    Stops alphabet (q :: rest) := by
  rw [isQuote, Bool.or_eq_true, beq_iff_eq, beq_iff_eq] at hq
  rcases hq with rfl | rfl
  · exact stops_cons hsingle rest
  · exact stops_cons hdouble rest

/-- A name stops a run over an alphabet that has none of its characters. -/
theorem Over.stops {alphabet other : Char → Bool} {name : String} (h : Over alphabet name)
    (apart : ∀ c ∈ name.toList, other c = false) (rest : Line) :
    Stops other (name.toList ++ rest) := by
  cases hname : name.toList with
  | nil => exact absurd (String.toList_eq_nil_iff.1 hname) h.ne_empty
  | cons c tail => exact stops_cons (apart c (hname ▸ List.mem_cons_self)) _

theorem Over.stops_spaces {alphabet : Char → Bool} {name : String} (h : Over alphabet name)
    (hspace : alphabet ' ' = false) (rest : Line) : Stops (· == ' ') (name.toList ++ rest) :=
  h.stops (h.beq_eq_false hspace) rest

theorem Over.stops_quotes {name : String} (h : Over isOperandChar name) (rest : Line) :
    Stops isQuote (name.toList ++ rest) := by
  refine h.stops (fun c hc => ?_) rest
  rw [isQuote, h.beq_eq_false rfl c hc, h.beq_eq_false rfl c hc]
  rfl

/-- A line is cut in one way only behind its longest run over an alphabet. -/
theorem span_iff {alphabet : Char → Bool} {line name rest : Line} :
    line.takeWhile alphabet = name ∧ line.dropWhile alphabet = rest ↔
      (∀ c ∈ name, alphabet c = true) ∧ line = name ++ rest ∧ Stops alphabet rest := by
  constructor
  · rintro ⟨rfl, rfl⟩
    refine ⟨fun c hc => List.mem_takeWhile_imp hc, List.takeWhile_append_dropWhile.symm, ?_⟩
    cases hrest : line.dropWhile alphabet with
    | nil => exact .inl rfl
    | cons c tail =>
      have hc := List.head?_dropWhile_not alphabet line
      rw [hrest, List.head?_cons] at hc
      exact stops_cons (by simpa using hc) tail
  · rintro ⟨hname, rfl, hrest⟩
    rw [List.takeWhile_append_of_pos hname, List.dropWhile_append_of_pos hname]
    rcases hrest with rfl | ⟨c, tail, rfl, hc⟩
    · simp
    · simp [hc]

namespace Statement

theorem run_eq_some_iff {alphabet : Char → Bool} {line rest : Line} {name : String} :
    run alphabet line = some (name, rest) ↔
      Over alphabet name ∧ line = name.toList ++ rest ∧ Stops alphabet rest := by
  constructor
  · intro h
    obtain ⟨htake, hdrop, -⟩ := run_eq_some h
    obtain ⟨-, hline, hstops⟩ := span_iff.1 ⟨htake.symm, hdrop.symm⟩
    exact ⟨over_of_run h, hline, hstops⟩
  · rintro ⟨hname, hline, hstops⟩
    obtain ⟨htake, hdrop⟩ := span_iff.2 ⟨hname.chars, hline, hstops⟩
    unfold run
    rw [htake, hdrop]
    split
    next hnil => exact absurd (String.toList_eq_nil_iff.1 hnil) hname.ne_empty
    next => rw [String.ofList_toList]

/-! ## Spaces and quotes -/

theorem skipSpaces_eq_iff {line rest : Line} :
    skipSpaces line = rest ↔ ∃ n, line = spaces n ++ rest ∧ Stops (· == ' ') rest := by
  constructor
  · intro h
    obtain ⟨hspaces, hline, hstops⟩ := span_iff.1 ⟨rfl, h⟩
    have hrun : line.takeWhile (· == ' ') = spaces (line.takeWhile (· == ' ')).length :=
      List.eq_replicate_of_mem fun c hc => by simpa using hspaces c hc
    exact ⟨_, hrun ▸ hline, hstops⟩
  · rintro ⟨n, hline, hstops⟩
    have hspaces : ∀ c ∈ spaces n, (c == ' ') = true := by
      intro c hc
      rw [List.eq_of_mem_replicate hc]
      rfl
    exact (span_iff.2 ⟨hspaces, hline, hstops⟩).2

theorem afterSpaces_eq_some_iff {line rest : Line} :
    afterSpaces line = some rest ↔ ∃ n, 0 < n ∧ line = spaces n ++ rest ∧ Stops (· == ' ') rest := by
  constructor
  · intro h
    unfold afterSpaces at h
    split at h
    next tail =>
      obtain ⟨n, htail, hstops⟩ := skipSpaces_eq_iff.1 (Option.some.inj h)
      exact ⟨n + 1, Nat.succ_pos n, congrArg (' ' :: ·) htail, hstops⟩
    next => cases h
  · rintro ⟨n, hn, rfl, hstops⟩
    obtain ⟨m, rfl⟩ := Nat.exists_eq_add_of_lt hn
    have hskip := skipSpaces_eq_iff.2 ⟨0 + m, rfl, hstops⟩
    exact congrArg some hskip

theorem afterMargin_eq_some_iff {line rest : Line} :
    afterMargin line = some rest ↔ line = spaces 7 ++ rest :=
  after_eq_some

theorem spaces_add (m n : Nat) : spaces (m + n) = spaces m ++ spaces n :=
  List.replicate_add m n ' '

theorem afterIndent_eq_some_iff {line rest : Line} :
    afterIndent line = some rest ↔ ∃ n, 8 ≤ n ∧ line = spaces n ++ rest ∧ Stops (· == ' ') rest := by
  simp only [afterIndent, Option.bind_eq_bind, Option.bind_eq_some_iff, afterMargin_eq_some_iff,
    afterSpaces_eq_some_iff]
  constructor
  · rintro ⟨_, rfl, n, hn, rfl, hstops⟩
    exact ⟨7 + n, by omega, by rw [spaces_add, List.append_assoc], hstops⟩
  · rintro ⟨n, hn, rfl, hstops⟩
    obtain ⟨m, rfl⟩ := Nat.exists_eq_add_of_le hn
    refine ⟨spaces (1 + m) ++ rest, ?_, 1 + m, by omega, rfl, hstops⟩
    rw [← List.append_assoc, ← spaces_add, ← Nat.add_assoc]

theorem afterQuote_eq_some_iff {line rest : Line} :
    afterQuote line = some rest ↔ ∃ q, isQuote q = true ∧ line = q :: rest := by
  cases line with
  | nil => simp [afterQuote]
  | cons c tail =>
    rw [afterQuote]
    split
    next hc => simp [hc]
    next hc => simp [hc]

/-- One quote is skipped, if one stands there. -/
theorem skipQuote_eq_iff {line rest : Line} (h : Stops isQuote rest) :
    skipQuote line = rest ↔
      ∃ quote : Option Char, (∀ q ∈ quote, isQuote q = true) ∧ line = quote.toList ++ rest := by
  constructor
  · rintro rfl
    unfold skipQuote
    cases hquote : afterQuote line with
    | none => exact ⟨none, by simp, rfl⟩
    | some tail =>
      obtain ⟨q, hq, rfl⟩ := afterQuote_eq_some_iff.1 hquote
      exact ⟨some q, by simpa using hq, rfl⟩
  · rintro ⟨quote, hquote, rfl⟩
    cases quote with
    | none =>
      rcases h with rfl | ⟨c, tail, rfl, hc⟩
      · rfl
      · simp [skipQuote, afterQuote, hc]
    | some q => simp [skipQuote, afterQuote, hquote q rfl]

theorem sectionName_eq_some_iff {line rest : Line} {name : SectionName} :
    sectionName line = some (name, rest) ↔
      Over isDigit name.number ∧ Over isNameChar name.title ∧ Stops isNameChar rest ∧
        line = name.number.toList ++ ("-".toList ++ (name.title.toList ++ rest)) := by
  simp only [sectionName, Option.bind_eq_bind, Option.bind_eq_some_iff, Prod.exists,
    run_eq_some_iff, after_eq_some, Option.pure_def, Option.some.injEq, Prod.mk.injEq]
  constructor
  · rintro ⟨number, _, ⟨hnumber, rfl, -⟩, _, rfl, title, _, ⟨htitle, rfl, hstops⟩, rfl, rfl⟩
    exact ⟨hnumber, htitle, hstops, rfl⟩
  · rintro ⟨hnumber, htitle, hstops, rfl⟩
    exact ⟨_, _, ⟨hnumber, rfl, stops_cons rfl _⟩, _, rfl, _, _, ⟨htitle, rfl, hstops⟩, rfl, rfl⟩

/-! ## Recognisers -/

theorem programId_eq_some_iff {line : Line} {name : String} :
    programId line = some name ↔ ProgramIdText name line := by
  simp only [programId, ProgramIdText, Option.bind_eq_bind, Option.bind_eq_some_iff, Prod.exists,
    afterMargin_eq_some_iff, after_eq_some, afterSpaces_eq_some_iff, run_eq_some_iff,
    Option.pure_def, Option.some.injEq, List.append_assoc]
  constructor
  · rintro ⟨_, rfl, _, rfl, _, ⟨gap, hgap, rfl, -⟩, _, _, ⟨hname, rfl, -⟩, rest, rfl, rfl⟩
    exact ⟨gap, rest, hgap, hname, rfl⟩
  · rintro ⟨gap, rest, hgap, hname, rfl⟩
    exact ⟨_, rfl, _, rfl, _, ⟨gap, hgap, rfl, hname.stops_spaces rfl _⟩, _, _,
      ⟨hname, rfl, stops_cons rfl rest⟩, rest, rfl, rfl⟩

theorem sectionBegin_eq_some_iff {line : Line} {name : SectionName} :
    sectionBegin line = some name ↔ SectionBeginText name line := by
  simp only [sectionBegin, SectionBeginText, Option.bind_eq_bind, Option.bind_eq_some_iff,
    Prod.exists, afterMargin_eq_some_iff, sectionName_eq_some_iff, afterSpaces_eq_some_iff,
    after_eq_some, Option.pure_def, Option.some.injEq, List.append_assoc]
  constructor
  · rintro ⟨_, rfl, _, _, ⟨hnumber, htitle, -, rfl⟩, _, ⟨gap, hgap, rfl, -⟩, rest, rfl, rfl⟩
    exact ⟨gap, rest, hgap, hnumber, htitle, rfl⟩
  · rintro ⟨gap, rest, hgap, hnumber, htitle, rfl⟩
    obtain ⟨more, rfl⟩ := Nat.exists_eq_add_of_lt hgap
    exact ⟨_, rfl, name, _, ⟨hnumber, htitle, stops_cons rfl _, rfl⟩, _,
      ⟨_, hgap, rfl, stops_cons rfl _⟩, rest, rfl, rfl⟩

theorem sectionExit_eq_some_iff {line : Line} {number : String} :
    sectionExit line = some number ↔ SectionExitText number line := by
  simp only [sectionExit, SectionExitText, Option.bind_eq_bind, Option.bind_eq_some_iff,
    Prod.exists, afterMargin_eq_some_iff, run_eq_some_iff, afterSpaces_eq_some_iff,
    after_eq_some, Option.pure_def, Option.some.injEq, List.append_assoc]
  constructor
  · rintro ⟨_, rfl, _, _, ⟨hnumber, rfl, -⟩, _, rfl, _, ⟨gap, hgap, rfl, -⟩, rest, rfl, rfl⟩
    exact ⟨gap, rest, hgap, hnumber, rfl⟩
  · rintro ⟨gap, rest, hgap, hnumber, rfl⟩
    exact ⟨_, rfl, _, _, ⟨hnumber, rfl, stops_cons rfl _⟩, _, rfl, _,
      ⟨gap, hgap, rfl, stops_cons rfl _⟩, rest, rfl, rfl⟩

theorem assignment_eq_some_iff {line : Line} {move : String × String} :
    assignment line = some move ↔ AssignmentText move line := by
  simp only [assignment, AssignmentText, Option.bind_eq_bind, Option.bind_eq_some_iff,
    Prod.exists, afterIndent_eq_some_iff, after_eq_some, afterSpaces_eq_some_iff,
    afterQuote_eq_some_iff, run_eq_some_iff, Option.pure_def, Option.some.injEq,
    List.append_assoc]
  constructor
  · rintro ⟨_, ⟨indent, hindent, rfl, -⟩, _, rfl, _, ⟨gap, hgap, rfl, -⟩, _, ⟨q, hq, rfl⟩, _, _,
      ⟨hvalue, rfl, -⟩, _, ⟨q', hq', rfl⟩, _, ⟨gap', hgap', rfl, -⟩, _, rfl, _,
      ⟨gap'', hgap'', rfl, -⟩, _, rest, ⟨hfield, rfl, hstops⟩, rfl⟩
    exact ⟨indent, gap, q, q', gap', gap'', rest, hindent, hgap, hq, hvalue, hq', hgap', hgap'',
      hfield, hstops, rfl⟩
  · rintro ⟨indent, gap, q, q', gap', gap'', rest, hindent, hgap, hq, hvalue, hq', hgap', hgap'',
      hfield, hstops, rfl⟩
    exact ⟨_, ⟨indent, hindent, rfl, stops_cons rfl _⟩, _, rfl, _,
      ⟨gap, hgap, rfl, stops_quote hq rfl rfl _⟩, _, ⟨q, hq, rfl⟩, _, _,
      ⟨hvalue, rfl, stops_quote hq' rfl rfl _⟩, _, ⟨q', hq', rfl⟩, _,
      ⟨gap', hgap', rfl, stops_cons rfl _⟩, _, rfl, _,
      ⟨gap'', hgap'', rfl, hfield.stops_spaces rfl rest⟩, _, rest, ⟨hfield, rfl, hstops⟩, rfl⟩

theorem performTarget_eq_some_iff {line : Line} {name : SectionName} :
    performTarget line = some name ↔ PerformText name line := by
  simp only [performTarget, PerformText, Option.bind_eq_bind, Option.bind_eq_some_iff,
    Prod.exists, afterIndent_eq_some_iff, after_eq_some, afterSpaces_eq_some_iff,
    sectionName_eq_some_iff, Option.pure_def, Option.some.injEq, List.append_assoc]
  constructor
  · rintro ⟨_, ⟨indent, hindent, rfl, -⟩, _, rfl, _, ⟨gap, hgap, rfl, -⟩, _, rest,
      ⟨hnumber, htitle, hstops, rfl⟩, rfl⟩
    exact ⟨indent, gap, rest, hindent, hgap, hnumber, htitle, hstops, rfl⟩
  · rintro ⟨indent, gap, rest, hindent, hgap, hnumber, htitle, hstops, rfl⟩
    exact ⟨_, ⟨indent, hindent, rfl, stops_cons rfl _⟩, _, rfl, _,
      ⟨gap, hgap, rfl, hnumber.stops_spaces rfl _⟩, name, rest,
      ⟨hnumber, htitle, hstops, rfl⟩, rfl⟩

theorem callTarget_eq_some_iff {line : Line} {target : String} :
    callTarget line = some target ↔ CallText target line := by
  simp only [callTarget, CallText, Option.bind_eq_bind, Option.bind_eq_some_iff,
    Prod.exists, afterIndent_eq_some_iff, after_eq_some, afterSpaces_eq_some_iff,
    run_eq_some_iff, Option.pure_def, Option.some.injEq, List.append_assoc]
  constructor
  · rintro ⟨_, ⟨indent, hindent, rfl, -⟩, _, rfl, line, ⟨gap, hgap, rfl, -⟩, _, rest,
      ⟨htarget, hline, hstops⟩, rfl⟩
    obtain ⟨quote, hquote, rfl⟩ := (skipQuote_eq_iff (htarget.stops_quotes rest)).1 hline
    exact ⟨indent, gap, quote, rest, hindent, hgap, hquote, htarget, hstops, rfl⟩
  · rintro ⟨indent, gap, quote, rest, hindent, hgap, hquote, htarget, hstops, rfl⟩
    have hskip := (skipQuote_eq_iff (htarget.stops_quotes rest)).2 ⟨quote, hquote, rfl⟩
    refine ⟨_, ⟨indent, hindent, rfl, stops_cons rfl _⟩, _, rfl, _,
      ⟨gap, hgap, rfl, ?_⟩, _, rest, ⟨htarget, hskip, hstops⟩, rfl⟩
    cases quote with
    | none => exact htarget.stops_spaces rfl rest
    | some q => exact stops_quote (hquote q rfl) rfl rfl _

/-- The form captures exactly what its text holds, and no line has the text of two captures. -/
structure Recognises {α : Type} (form : Line → Option α) (Text : α → Line → Prop) : Prop where
  captures_iff : ∀ line a, form line = some a ↔ Text a line
  unique : ∀ line a b, Text a line → Text b line → a = b

theorem recognises_of_iff {α : Type} {form : Line → Option α} {Text : α → Line → Prop}
    (h : ∀ line a, form line = some a ↔ Text a line) : Recognises form Text where
  captures_iff := h
  unique line a b ha hb := Option.some.inj (((h line a).2 ha).symm.trans ((h line b).2 hb))

/-- **The recognisers accept exactly their forms.** On every line, each of them captures what the
text of its form holds and nothing else, and the text leaves no choice of what that is. -/
theorem recognisers_accept_their_forms :
    Recognises programId ProgramIdText ∧ Recognises sectionBegin SectionBeginText ∧
    Recognises sectionExit SectionExitText ∧ Recognises assignment AssignmentText ∧
    Recognises performTarget PerformText ∧ Recognises callTarget CallText :=
  ⟨recognises_of_iff fun _ _ => programId_eq_some_iff,
    recognises_of_iff fun _ _ => sectionBegin_eq_some_iff,
    recognises_of_iff fun _ _ => sectionExit_eq_some_iff,
    recognises_of_iff fun _ _ => assignment_eq_some_iff,
    recognises_of_iff fun _ _ => performTarget_eq_some_iff,
    recognises_of_iff fun _ _ => callTarget_eq_some_iff⟩

/-- A hyphen after the first one belongs to the title. -/
example : performTarget "        PERFORM 20-1-A-THRU".toList = some ⟨"20", "1-A-THRU"⟩ := by
  decide

end Statement
end CobolCalls
