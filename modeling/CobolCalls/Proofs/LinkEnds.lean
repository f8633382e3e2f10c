import CobolCalls.Proofs.Clauses
import CobolCalls.Proofs.ErrorLines
import CobolCalls.Proofs.Padding

/-
  What closes a link block. It is the first line from the beginning of the block on that has
  END-EXEC, and the keyword counts where no word character is directly beside it
  (`hasEndExec_iff`). A hyphen is no word character, but names have hyphens. So a name closes the
  block as well if it has the keyword between hyphens: WS-END-EXEC does, END-EXECUTE does not.

  Which block a line stands in is said by where the reader is when it comes to the line
  (`ComesTo`). From the beginning of a block the reader stays in it up to the first line with the
  keyword (`linkLine_iff`), and what it links after that it links in another block
  (`exists_begin_of_links`).
-/

namespace CobolCalls

open Statement

/-! ## Words that stand clear -/

/-- The word stands in the line, with no character of the alphabet directly before or behind it. -/
def StandsClear (alphabet : Char → Bool) (word : String) (line : Line) : Prop :=
  ∃ left right, line = left ++ word.toList ++ right ∧ left.getLast?.any alphabet = false ∧
    right.head?.any alphabet = false

section Beside

variable {alphabet : Char → Bool} {d : Char} (hd : alphabet d = false)

include hd

theorem any_head?_append_cons (text more : Line) :
    (text ++ d :: more).head?.any alphabet = text.head?.any alphabet := by
  cases text <;> simp [hd]

theorem any_getLast?_append_cons (more text : Line) :
    (more ++ d :: text).getLast?.any alphabet = text.getLast?.any alphabet := by
  rw [List.getLast?_append_cons]
  cases text with
  | nil => simp [hd]
  | cons c rest => rw [List.getLast?_cons_cons]

end Beside

/-- A word without the character `d` stands before it or behind it. -/
theorem side_of_not_mem {front word back left right : Line} {d : Char} (hd : d ∉ word)
    (h : front ++ word ++ back = left ++ d :: right) :
    (∃ more, left = front ++ word ++ more ∧ back = more ++ d :: right) ∨
      ∃ more, front = left ++ d :: more ∧ right = more ++ word ++ back := by
  rcases List.append_eq_append_iff.1 h with hbefore | ⟨tail, hword, htail⟩
  · exact .inl hbefore
  · cases tail with
    | nil => exact .inl ⟨[], by simpa using hword.symm, htail.symm⟩
    | cons e tail =>
      obtain ⟨rfl, rfl⟩ := List.cons.inj htail
      rcases List.append_eq_append_iff.1 hword with ⟨part, -, rfl⟩ | ⟨more, rfl, hmore⟩
      · simp at hd
      · cases more with
        | nil =>
          rw [← List.nil_append word, ← hmore] at hd
          simp at hd
        | cons c more =>
          obtain ⟨rfl, rfl⟩ := List.cons.inj hmore
          exact .inr ⟨more, rfl, rfl⟩

namespace StandsClear

variable {alphabet other : Char → Bool} {word : String} {line : Line}

theorem occurs (h : StandsClear alphabet word line) : word.toList <:+: line := by
  obtain ⟨left, right, hline, -, -⟩ := h
  exact ⟨left, right, hline.symm⟩

/-- Of the alphabet only the characters of the line count. -/
theorem mono (h : StandsClear alphabet word line)
    (hsub : ∀ c ∈ line, other c = true → alphabet c = true) : StandsClear other word line := by
  obtain ⟨left, right, rfl, hleft, hright⟩ := h
  have clear {beside : Option Char} (hbeside : beside.any alphabet = false)
      (hmem : ∀ c, beside = some c → c ∈ left ++ word.toList ++ right) :
      beside.any other = false := by
    rw [Option.any_eq_false] at hbeside ⊢
    intro c hc
    by_contra hother
    have hin := hsub c (hmem c hc) (by simpa using hother)
    rw [hbeside c hc] at hin
    cases hin
  refine ⟨left, right, rfl, clear hleft fun c hc => ?_, clear hright fun c hc => ?_⟩
  · simp [List.mem_of_getLast? hc]
  · simp [List.mem_of_head? hc]

theorem iff_of_eq (h : ∀ c ∈ line, alphabet c = other c) :
    StandsClear alphabet word line ↔ StandsClear other word line :=
  ⟨fun hs => hs.mono fun c hc => (h c hc).trans, fun hs => hs.mono fun c hc => (h c hc).symm.trans⟩

/-- A character that is neither in the word nor in the alphabet parts the line. -/
theorem append_cons_iff {left right : Line} {d : Char} (hword : d ∉ word.toList)
    (hd : alphabet d = false) :
    StandsClear alphabet word (left ++ d :: right) ↔
      StandsClear alphabet word left ∨ StandsClear alphabet word right := by
  constructor
  · rintro ⟨front, back, heq, hfront, hback⟩
    rcases side_of_not_mem hword heq.symm with ⟨more, rfl, rfl⟩ | ⟨more, rfl, rfl⟩
    · rw [any_head?_append_cons hd] at hback
      exact .inl ⟨front, more, rfl, hfront, hback⟩
    · rw [any_getLast?_append_cons hd] at hfront
      exact .inr ⟨more, back, rfl, hfront, hback⟩
  · rintro (⟨front, back, rfl, hfront, hback⟩ | ⟨front, back, rfl, hfront, hback⟩)
    · refine ⟨front, back ++ d :: right, by simp, hfront, ?_⟩
      rwa [any_head?_append_cons hd]
    · refine ⟨left ++ d :: front, back, by simp, ?_, hback⟩
      rwa [any_getLast?_append_cons hd]

/-- A word that stands clear of all characters is the whole line. -/
theorem all_iff : StandsClear (fun _ => true) word line ↔ line = word.toList := by
  constructor
  · rintro ⟨left, right, rfl, hleft, hright⟩
    rw [Option.any_true, Option.isSome_eq_false_iff, Option.isNone_iff_eq_none] at hleft hright
    rw [List.getLast?_eq_none_iff.1 hleft, List.head?_eq_none_iff.1 hright, List.append_nil]
    rfl
  · rintro rfl
    exact ⟨[], [], by simp, rfl, rfl⟩

end StandsClear

/-! ## END-EXEC -/

namespace Text

theorem le_of_mem_wordRanges : ∀ range ∈ wordRanges, 0x30 ≤ range.1 := by
  decide +kernel

/-- Digits are the first of the word characters. -/
theorem isWordChar_eq_false_of_lt {c : Char} (h : c.toNat < 0x30) : isWordChar c = false := by
  unfold isWordChar
  rw [List.any_eq_false]
  intro range hrange
  have := le_of_mem_wordRanges range hrange
  simp only [Bool.and_eq_true, decide_eq_true_eq, not_and]
  omega

theorem isWordChar_of_mem_range {c : Char} (range : Nat × Nat) (h : range ∈ wordRanges)
    (hfirst : range.1 ≤ c.toNat) (hlast : c.toNat ≤ range.2) : isWordChar c = true :=
  List.any_eq_true.2 ⟨range, h, by simp [hfirst, hlast]⟩

end Text

namespace Statement

/-- Of the characters of operands only the hyphen is no word character. -/
theorem isWordChar_of_isOperandChar {c : Char} (h : isOperandChar c = true) :
    Text.isWordChar c = (c != '-') := by
  by_cases hc : c = '-'
  · rw [hc, Text.isWordChar_eq_false_of_lt (by decide)]
    rfl
  · have hword : Text.isWordChar c = true := by
      simp only [isOperandChar, isNameChar, isUpper, isDigit, Bool.or_eq_true, Bool.and_eq_true,
        decide_eq_true_eq, beq_iff_eq, Char.le_def, UInt32.le_iff_toNat_le] at h
      rcases h with ((⟨hfirst, hlast⟩ | ⟨hfirst, hlast⟩) | hyphen) | rfl
      · exact Text.isWordChar_of_mem_range (0x41, 0x5A) (.tail _ (.head _)) hfirst hlast
      · exact Text.isWordChar_of_mem_range (0x30, 0x39) (.head _) hfirst hlast
      · exact absurd hyphen hc
      · rfl
    rw [hword, (bne_iff_ne ..).2 hc]

theorem wordEnds_eq (rest : Line) : wordEnds rest = !rest.head?.any Text.isWordChar := by
  cases rest <;> rfl

/-- The search with the character to the left: it counts as the end of what stands before. -/
theorem endExecAfter_iff {before : Option Char} {line : Line} :
    endExecAfter before line = true ↔ ∃ left right, line = left ++ "END-EXEC".toList ++ right ∧
      (before.toList ++ left).getLast?.any Text.isWordChar = false ∧
      right.head?.any Text.isWordChar = false := by
  induction line generalizing before with
  | nil =>
    constructor
    · intro h
      cases h
    · rintro ⟨left, right, heq, -, -⟩
      simp at heq
  | cons c rest ih =>
    rw [endExecAfter, Bool.or_eq_true, Bool.and_eq_true, Option.any_eq_true, ih]
    simp only [after_eq_some, wordEnds_eq, Bool.not_eq_true']
    constructor
    · rintro (⟨hbefore, right, heq, hright⟩ | ⟨left, right, rfl, hleft, hright⟩)
      · refine ⟨[], right, heq, ?_, hright⟩
        cases before with
        | none => rfl
        | some b => exact hbefore
      · refine ⟨c :: left, right, rfl, ?_, hright⟩
        rw [List.getLast?_append_cons]
        exact hleft
    · rintro ⟨left, right, heq, hleft, hright⟩
      cases left with
      | nil =>
        refine .inl ⟨?_, right, heq, hright⟩
        cases before with
        | none => rfl
        | some b => exact hleft
      | cons d left =>
        obtain ⟨rfl, rfl⟩ := List.cons.inj heq
        rw [List.getLast?_append_cons] at hleft
        exact .inr ⟨left, right, rfl, hleft, hright⟩

/-- END-EXEC counts where no word character is directly beside it. -/
theorem hasEndExec_iff {line : Line} :
    hasEndExec line = true ↔ StandsClear Text.isWordChar "END-EXEC" line :=
  endExecAfter_iff

/-- In an operand a word stands clear of word characters between hyphens. -/
theorem standsClear_operand_iff {name : String} (h : Over isOperandChar name) {word : String} :
    StandsClear Text.isWordChar word name.toList ↔ StandsClear (· != '-') word name.toList :=
  StandsClear.iff_of_eq fun c hc => isWordChar_of_isOperandChar (h.chars c hc)

/-- A whole word in an operand is all of it. -/
theorem standsClear_operand_iff_eq {name : String} (h : Over isOperandChar name) {word : String} :
    StandsClear isOperandChar word name.toList ↔ name = word := by
  have hall : StandsClear isOperandChar word name.toList ↔
      StandsClear (fun _ => true) word name.toList := StandsClear.iff_of_eq h.chars
  rw [hall, StandsClear.all_iff, String.toList_inj]

/-- END-EXEC is searched in an operand alone, if the line has it nowhere else. -/
theorem standsClear_parenthesised_iff {alphabet : Char → Bool} (hopen : alphabet '(' = false)
    (hclose : alphabet ')' = false) {left right : Line} (hleft : ¬ "END-EXEC".toList <:+: left)
    (hright : ¬ "END-EXEC".toList <:+: right) (operand : Line) :
    StandsClear alphabet "END-EXEC" (left ++ '(' :: (operand ++ ')' :: right)) ↔
      StandsClear alphabet "END-EXEC" operand := by
  rw [StandsClear.append_cons_iff (by decide) hopen, StandsClear.append_cons_iff (by decide) hclose,
    or_iff_right (mt StandsClear.occurs hleft), or_iff_left (mt StandsClear.occurs hright)]

/-- Where END-EXEC counts it is a whole word, or a hyphen joins it with more. -/
theorem standsClear_operandChar_or_hyphen {line : Line} {word : String}
    (h : StandsClear Text.isWordChar word line) :
    StandsClear isOperandChar word line ∨ ∃ left right, line = left ++ word.toList ++ right ∧
      (left.getLast? = some '-' ∨ right.head? = some '-') := by
  obtain ⟨left, right, hline, hleft, hright⟩ := h
  have clear {beside : Option Char} (hbeside : beside.any Text.isWordChar = false) :
      beside.any isOperandChar = false ∨ beside = some '-' := by
    cases beside with
    | none => exact .inl rfl
    | some c =>
      cases hc : isOperandChar c with
      | false => exact .inl hc
      | true =>
        rw [Option.any_some, isWordChar_of_isOperandChar hc, bne_eq_false_iff_eq] at hbeside
        exact .inr (congrArg some hbeside)
  rcases clear hleft with hleft | hleft
  · rcases clear hright with hright | hright
    · exact .inl ⟨left, right, hline, hleft, hright⟩
    · exact .inr ⟨left, right, hline, .inr hright⟩
  · exact .inr ⟨left, right, hline, .inl hleft⟩

theorem hasEndExec_eq_false {line : Line} (h : ¬ "END-EXEC".toList <:+: line) :
    hasEndExec line = false :=
  Bool.eq_false_iff.2 fun hend => h (hasEndExec_iff.1 hend).occurs

/-- PROGRAM behind a character of a name is the keyword of no clause. -/
theorem not_names_behind_operandChar {left right : Line} {c : Char} (hc : isOperandChar c = true)
    (target : String) : ¬ Names (left ++ c :: right) (left.length + 1) target := by
  intro h
  obtain ⟨d, hd, hblank⟩ := h.bounded
  rw [List.getElem?_append_right (Nat.le_refl _), Nat.sub_self] at hd
  cases hd
  rw [inked_isOperandChar c hc] at hblank
  cases hblank

end Statement

/-! ## Lines of link blocks -/

namespace Block

/-- The link block that a line is read in, as its section and the number of its first line: the
block that is open, or else the one that the line begins. -/
def link? (n : Nat) (line : Line) : Block → Option (OpenSection × Nat)
  | outside _ => none
  | inSection s => if isLinkBegin line then some (s, n) else none
  | inLink s k => some (s, k)

variable {block next : Block} {n k : Nat} {line : Line} {s : OpenSection}

theorem step_of_link? (h : block.link? n line = some (s, k)) :
    block.step n line = .ok (stepLink line s k) := by
  cases block with
  | outside program => cases h
  | inSection s' =>
    rw [link?] at h
    split at h
    next hbegin =>
      cases h
      exact stepSection_link hbegin n s
    next => cases h
  | inLink s' k' =>
    cases h
    rfl

/-- A line links a program in a link block only. -/
theorem exists_link?_of_links {p : Procedure} {target : String}
    (h : block.step n line = .ok (some (.links p target), next)) :
    ∃ s k, block.link? n line = some (s, k) := by
  cases block with
  | outside program =>
    obtain ⟨-, he, -⟩ | ⟨_, _, -, -, he, -⟩ := stepOutside_cases h
    · obtain ⟨_, -, he⟩ := Option.map_eq_some_iff.1 he.symm
      cases he
    · cases he
  | inSection s =>
    obtain ⟨-, he, -⟩ | ⟨hbegin, -⟩ | ⟨-, -, he, -⟩ := stepSection_cases h
    · cases he
    · exact ⟨s, n, if_pos hbegin⟩
    · obtain ⟨_, -, he⟩ | ⟨_, -, he⟩ | ⟨_, -, he⟩ := Event.ofPlain_cases he.symm <;> cases he
  | inLink s k => exact ⟨s, k, rfl⟩

theorem stepLink_closes_iff : (stepLink line s k).2 = inSection s ↔ hasEndExec line = true := by
  rw [stepLink]
  split <;> simp [*]

theorem stepLink_unended (h : hasEndExec line = false) :
    stepLink line s k = ((linkProgram line).map (.links s.procedure), inLink s k) := by
  rw [stepLink, if_neg (by simp [h])]

end Block

/-- Lines without END-EXEC do not leave a link block. -/
theorem reads_unended {code : List (Line × Nat)} (h : ∀ l ∈ code, hasEndExec l.1 = false)
    (s : OpenSection) (k : Nat) : ∃ events, Reads (.inLink s k) code events (.inLink s k) := by
  induction code with
  | nil => exact ⟨[], .done⟩
  | cons l rest ih =>
    obtain ⟨events, hreads⟩ := ih fun m hm => h m (List.mem_cons_of_mem _ hm)
    have hstep := Block.stepLink_unended (s := s) (k := k) (h l List.mem_cons_self)
    exact ⟨_, .line (congrArg Except.ok hstep) hreads⟩

/-- The reader comes to line `n` inside the block. -/
def ComesTo (source : String) (n : Nat) (line : Line) (block : Block) : Prop :=
  ∃ before rest events, numberedCode source = before ++ (line, n) :: rest ∧
    Reads (.outside none) before events block

/-- A link block begins at line `k`. -/
def BeginsLink (source : String) (k : Nat) : Prop :=
  ∃ line s, ComesTo source k line (.inSection s) ∧ isLinkBegin line = true

/-- Line `n` is read in the link block that begins at line `k`. -/
def LinkLine (source : String) (k n : Nat) (line : Line) : Prop :=
  ∃ block s, ComesTo source n line block ∧ block.link? n line = some (s, k)

/-- Line `n` is read in the link block that begins at line `k`, and leads back to its section. -/
def ClosedAt (source : String) (k n : Nat) (line : Line) : Prop :=
  ∃ block s event, ComesTo source n line block ∧ block.link? n line = some (s, k) ∧
    block.step n line = .ok (event, .inSection s)

section Source

variable {source : String} {k n : Nat} {line : Line} {block : Block}

theorem ComesTo.recalls (h : ComesTo source n line block) :
    ∃ before rest, numberedCode source = before ++ (line, n) :: rest ∧ Recalls before block := by
  obtain ⟨before, rest, events, hcode, hreads⟩ := h
  have hascending := ascending_codeFrom 1 (Text.lines source)
  rw [← numberedCode, hcode] at hascending
  have hstart : Recalls [] (.outside none) := fun l hl => by cases hl
  exact ⟨before, rest, hcode,
    hreads.recalls hstart (hascending.sublist (List.sublist_append_left before _))⟩

/-- What a source says, a line of it says where the reader comes to it. -/
theorem comesTo_of_mem_events {e : Event} (h : (n, e) ∈ (Outline.ofSource source).events) :
    ∃ line block next, ComesTo source n line block ∧ block.step n line = .ok (some e, next) := by
  rcases reads_or_stops (.outside none) (codeFrom 1 (Text.lines source)) with
    ⟨events, after, hreads⟩ | ⟨before, l, m, rest, events, middle, fault, hcode, hreads, he⟩
  · rw [Outline.ofSource, Outline.ofLinesFrom_of_reads hreads] at h
    obtain ⟨before, line, rest, said, block, next, hcode, hbefore, hstep⟩ := hreads.exists_step h
    exact ⟨line, block, next, ⟨before, rest, said, hcode, hbefore⟩, hstep⟩
  · rw [Outline.ofSource, Outline.ofLinesFrom_of_stops hcode hreads he] at h
    obtain ⟨before', line, rest', said, block, next, rfl, hbefore, hstep⟩ := hreads.exists_step h
    refine ⟨line, block, next, ⟨before', rest' ++ (l, m) :: rest, said, ?_, hbefore⟩, hstep⟩
    rw [numberedCode, hcode]
    simp

/-- Since the beginning of the block no line has had END-EXEC. -/
theorem LinkLine.unended (h : LinkLine source k n line) :
    (line, n) ∈ numberedCode source ∧ k ≤ n ∧
      (∃ first, (first, k) ∈ numberedCode source ∧ isLinkBegin first = true) ∧
      ∀ l ∈ numberedCode source, k ≤ l.2 → l.2 < n → hasEndExec l.1 = false := by
  obtain ⟨block, s, hcomes, hlink⟩ := h
  obtain ⟨before, rest, hcode, hrecalls⟩ := hcomes.recalls
  have hmem : (line, n) ∈ numberedCode source := by simp [hcode]
  cases block with
  | outside program => cases hlink
  | inSection s' =>
    rw [Block.link?] at hlink
    split at hlink
    next hbegin =>
      cases hlink
      refine ⟨hmem, Nat.le_refl _, ⟨line, hmem, hbegin⟩, fun l _ hk hn => ?_⟩
      exact absurd hn (Nat.not_lt.2 hk)
    next => cases hlink
  | inLink s' k' =>
    cases hlink
    obtain ⟨-, hlinking⟩ := hrecalls
    obtain ⟨first, hfirst, hbegin⟩ := hlinking.begins
    obtain ⟨hfirst, hlt⟩ := (mem_before_iff hcode).1 hfirst
    refine ⟨hmem, Nat.le_of_lt hlt, ⟨first, hfirst, hbegin⟩, fun l hl hk hn => ?_⟩
    exact hlinking.unended l ((mem_before_iff hcode).2 ⟨hl, hn⟩) hk

/-- The lines of a block are those from its beginning on up to the first with END-EXEC. -/
theorem linkLine_iff (h : BeginsLink source k) :
    LinkLine source k n line ↔ (line, n) ∈ numberedCode source ∧ k ≤ n ∧
      ∀ l ∈ numberedCode source, k ≤ l.2 → l.2 < n → hasEndExec l.1 = false := by
  constructor
  · intro hline
    obtain ⟨hmem, hle, -, hunended⟩ := hline.unended
    exact ⟨hmem, hle, hunended⟩
  · rintro ⟨hmem, hle, hunended⟩
    obtain ⟨first, s, ⟨before, rest, events, hcode, hreads⟩, hbegin⟩ := h
    have hlink : (Block.inSection s).link? k first = some (s, k) := if_pos hbegin
    -- the line is not before the beginning, so it is that or follows it
    have hsince : (line, n) ∈ (first, k) :: rest := by
      rw [hcode] at hmem
      refine (List.mem_append.1 hmem).resolve_left fun hbefore => ?_
      exact absurd ((mem_before_iff hcode).1 hbefore).2 (Nat.not_lt.2 hle)
    rcases List.mem_cons.1 hsince with heq | hrest
    · cases heq
      exact ⟨.inSection s, s, ⟨before, rest, events, hcode, hreads⟩, hlink⟩
    · obtain ⟨inner, later, rfl⟩ := List.append_of_mem hrest
      have hcode' : numberedCode source =
          (before ++ (first, k) :: inner) ++ (line, n) :: later := by simp [hcode]
      have hopen : ∀ l ∈ (first, k) :: inner, hasEndExec l.1 = false := fun l hl => by
        have hl' := (mem_before_iff hcode').1 (List.mem_append_right before hl)
        have hafter : l ∈ (first, k) :: (inner ++ (line, n) :: later) := by
          rw [← List.cons_append]
          exact List.mem_append_left _ hl
        exact hunended l hl'.1 ((number_parts hcode).2 l hafter) hl'.2
      obtain ⟨inside, hinside⟩ :=
        reads_unended (fun l hl => hopen l (List.mem_cons_of_mem _ hl)) s k
      have hstep := Block.step_of_link? hlink
      rw [Block.stepLink_unended (hopen (first, k) List.mem_cons_self)] at hstep
      exact ⟨.inLink s k, s, ⟨_, later, _, hcode', hreads.append (.line hstep hinside)⟩, rfl⟩

theorem closedAt_iff :
    ClosedAt source k n line ↔ LinkLine source k n line ∧ hasEndExec line = true := by
  constructor
  · rintro ⟨block, s, event, hcomes, hlink, hstep⟩
    rw [Block.step_of_link? hlink] at hstep
    exact ⟨⟨block, s, hcomes, hlink⟩,
      Block.stepLink_closes_iff.1 (congrArg Prod.snd (Except.ok.inj hstep))⟩
  · rintro ⟨⟨block, s, hcomes, hlink⟩, hend⟩
    refine ⟨block, s, (Block.stepLink line s k).1, hcomes, hlink, ?_⟩
    rw [Block.step_of_link? hlink, ← Block.stepLink_closes_iff.2 hend]

theorem closedAt_iff_first (h : BeginsLink source k) :
    ClosedAt source k n line ↔ First (fun n line => (line, n) ∈ numberedCode source ∧ k ≤ n ∧
      StandsClear Text.isWordChar "END-EXEC" line) n line := by
  rw [closedAt_iff, linkLine_iff h]
  simp only [First, ← hasEndExec_iff, not_and, Bool.not_eq_true, Prod.forall]
  constructor
  · rintro ⟨⟨hmem, hle, hunended⟩, hend⟩
    exact ⟨⟨hmem, hle, hend⟩, fun m hm l hl hk => hunended l m hl hk hm⟩
  · rintro ⟨⟨hmem, hle, hend⟩, hbefore⟩
    exact ⟨⟨hmem, hle, fun l m hl hk hm => hbefore m hm l hl hk⟩, hend⟩

/-- Behind a line that closes a block nothing is linked before another block begins. -/
theorem exists_begin_of_links (h : ClosedAt source k n line) {m : Nat} {p : Procedure}
    {target : String} (he : (m, .links p target) ∈ (Outline.ofSource source).events) (hm : n < m) :
    ∃ l ∈ numberedCode source, n < l.2 ∧ l.2 ≤ m ∧ isLinkBegin l.1 = true := by
  obtain ⟨hline, hend⟩ := closedAt_iff.1 h
  obtain ⟨hmem, -⟩ := hline.unended
  obtain ⟨line', block, next, hcomes, hstep⟩ := comesTo_of_mem_events he
  obtain ⟨s, j, hlink⟩ := Block.exists_link?_of_links hstep
  have hline' : LinkLine source j m line' := ⟨block, s, hcomes, hlink⟩
  obtain ⟨-, hle, ⟨first, hfirst, hbegin⟩, hunended⟩ := hline'.unended
  refine ⟨(first, j), hfirst, ?_, hle, hbegin⟩
  -- a block that began before would have been closed
  by_contra hlt
  have hopen := hunended (line, n) hmem (Nat.not_lt.1 hlt) hm
  rw [hend] at hopen
  cases hopen

end Source

/-- **A link block is closed where END-EXEC stands clear of word characters.** The line that closes
it is the first from its beginning on with such an END-EXEC. This is a whole word, or a hyphen joins
it with more of a name: an operand in parentheses closes the block if it has END-EXEC between
hyphens, longer than the keyword as it may be. What the source links behind that line is linked in
another block. PROGRAM, in contrast, is no keyword behind a character of a name. -/
theorem links_closed_by_clear_word {source : String} {k : Nat} (h : BeginsLink source k) :
    (∀ n line, ClosedAt source k n line ↔
      First (fun n line => (line, n) ∈ numberedCode source ∧ k ≤ n ∧
        StandsClear Text.isWordChar "END-EXEC" line) n line) ∧
    (∀ n line, ClosedAt source k n line → StandsClear isOperandChar "END-EXEC" line ∨
      ∃ left right, line = left ++ "END-EXEC".toList ++ right ∧
        (left.getLast? = some '-' ∨ right.head? = some '-')) ∧
    (∀ n line left name right, LinkLine source k n line → Over isOperandChar name →
      line = left ++ '(' :: (name.toList ++ ')' :: right) → ¬ "END-EXEC".toList <:+: left →
      ¬ "END-EXEC".toList <:+: right →
      (ClosedAt source k n line ↔ StandsClear (· != '-') "END-EXEC" name.toList) ∧
      (StandsClear isOperandChar "END-EXEC" line ↔ name = "END-EXEC")) ∧
    (∀ n line, ClosedAt source k n line → ∀ m p target,
      (m, .links p target) ∈ (Outline.ofSource source).events → n < m →
      ∃ l ∈ numberedCode source, n < l.2 ∧ l.2 ≤ m ∧ isLinkBegin l.1 = true) ∧
    (∀ left c right target, isOperandChar c = true →
      ¬ Names (left ++ c :: right) (left.length + 1) target) := by
  refine ⟨fun n line => closedAt_iff_first h, ?_, ?_, ?_, ?_⟩
  · intro n line hclosed
    exact standsClear_operandChar_or_hyphen (hasEndExec_iff.1 (closedAt_iff.1 hclosed).2)
  · rintro n line left name right hline hname rfl hleft hright
    rw [closedAt_iff, and_iff_right hline, hasEndExec_iff,
      standsClear_parenthesised_iff (Text.isWordChar_eq_false_of_lt (by decide))
        (Text.isWordChar_eq_false_of_lt (by decide)) hleft hright,
      standsClear_parenthesised_iff (by decide) (by decide) hleft hright]
    exact ⟨standsClear_operand_iff hname, standsClear_operand_iff_eq hname⟩
  · intro n line hclosed m p target he hm
    exact exists_begin_of_links hclosed he hm
  · intro left c right target hc
    exact not_names_behind_operandChar hc target

/-- A link block with an operand that has END-EXEC behind a hyphen, and then a PROGRAM clause. -/
def hyphenedLines : List Line :=
  ["       PROGRAM-ID. P.".toList, "       1-A SECTION.".toList, "        EXEC CICS LINK".toList,
    "        COMMAREA(WS-END-EXEC)".toList, "        PROGRAM('ONL1')".toList,
    "        END-EXEC".toList, "       1-99-FIM. EXIT.".toList]

/-- Their section, while it is open. -/
def hyphenedSection : OpenSection := ⟨⟨"P", ⟨"1", "A"⟩⟩, 2, ∅⟩

theorem numberedCode_hyphenedLines :
    numberedCode (Text.ofLines hyphenedLines) = hyphenedLines.zipIdx 1 := by
  rw [numberedCode, Text.lines_ofLines (by decide)]
  rfl

theorem reads_hyphened_headings : Reads (.outside none)
    [("       PROGRAM-ID. P.".toList, 1), ("       1-A SECTION.".toList, 2)]
    [(1, .program "P"), (2, .opens hyphenedSection.procedure)] (.inSection hyphenedSection) := by
  have hprogram : (Block.outside none).step 1 "       PROGRAM-ID. P.".toList =
      .ok (some (.program "P"), .outside (some "P")) := rfl
  have hheading : (Block.outside (some "P")).step 2 "       1-A SECTION.".toList =
      .ok (some (.opens hyphenedSection.procedure), .inSection hyphenedSection) := rfl
  exact .line hprogram (.line hheading .done)

theorem step_hyphened_link :
    (Block.inSection hyphenedSection).step 3 "        EXEC CICS LINK".toList =
      .ok (none, .inLink hyphenedSection 3) := by
  have hlink : (Block.inSection hyphenedSection).link? 3 "        EXEC CICS LINK".toList =
      some (hyphenedSection, 3) := rfl
  rw [Block.step_of_link? hlink, Block.stepLink_unended (hasEndExec_eq_false (by decide))]
  rfl

theorem linkLine_hyphened : BeginsLink (Text.ofLines hyphenedLines) 3 ∧
    LinkLine (Text.ofLines hyphenedLines) 3 4 "        COMMAREA(WS-END-EXEC)".toList :=
  ⟨⟨_, hyphenedSection, ⟨_, _, _, numberedCode_hyphenedLines, reads_hyphened_headings⟩, rfl⟩,
    .inLink hyphenedSection 3, hyphenedSection, ⟨_, _, _, numberedCode_hyphenedLines,
      reads_hyphened_headings.append (.single step_hyphened_link)⟩, rfl⟩

theorem over_hyphened : Over isOperandChar "WS-END-EXEC" :=
  ⟨by decide, List.all_eq_true.1 (by decide)⟩

/-- Here the operand closes the block, and since no other block begins nothing is linked later. -/
theorem hyphenedLines_closed_by_clear_word :
    BeginsLink (Text.ofLines hyphenedLines) 3 ∧
    ClosedAt (Text.ofLines hyphenedLines) 3 4 "        COMMAREA(WS-END-EXEC)".toList ∧
    ∀ m p target, (m, .links p target) ∈ (Outline.ofSource (Text.ofLines hyphenedLines)).events →
      m ≤ 4 := by
  obtain ⟨hbegins, hline⟩ := linkLine_hyphened
  obtain ⟨-, -, hoperand, hlater, -⟩ := links_closed_by_clear_word hbegins
  obtain ⟨hcloses, -⟩ := hoperand 4 _ "        COMMAREA".toList "WS-END-EXEC" [] hline over_hyphened
    rfl (by decide) (by decide)
  have hclosed := hcloses.2 ⟨"WS-".toList, [], by decide⟩
  refine ⟨hbegins, hclosed, fun m p target he => Nat.le_of_not_lt fun hm => ?_⟩
  obtain ⟨l, hl, hlt, -, hbegin⟩ := hlater 4 _ hclosed m p target he hm
  have hnone : ∀ l ∈ hyphenedLines.zipIdx 1, 4 < l.2 → isLinkBegin l.1 = false := by
    decide
  rw [numberedCode_hyphenedLines] at hl
  rw [hnone l hl hlt] at hbegin
  cases hbegin

theorem hasEndExec_hyphened : hasEndExec "        COMMAREA(WS-END-EXEC)".toList = true := by
  have hoperand : StandsClear Text.isWordChar "END-EXEC"
      ("        COMMAREA".toList ++ '(' :: ("WS-END-EXEC".toList ++ ')' :: [])) ↔
      StandsClear Text.isWordChar "END-EXEC" "WS-END-EXEC".toList :=
    standsClear_parenthesised_iff (Text.isWordChar_eq_false_of_lt (by decide))
      (Text.isWordChar_eq_false_of_lt (by decide)) (by decide) (by decide) _
  have hname := hoperand.trans (standsClear_operand_iff over_hyphened)
  exact hasEndExec_iff.2 (hname.2 ⟨"WS-".toList, [], by decide⟩)

theorem outline_hyphenedLines : Outline.ofSource (Text.ofLines hyphenedLines) =
    ⟨[(1, .program "P"), (2, .opens hyphenedSection.procedure),
      (7, .closes hyphenedSection.procedure ∅)], none⟩ := by
  have hoperand : (Block.inLink hyphenedSection 3).step 4 "        COMMAREA(WS-END-EXEC)".toList =
      .ok (none, .inSection hyphenedSection) := by
    have hnone : linkProgram "        COMMAREA(WS-END-EXEC)".toList = none := rfl
    rw [Block.step, Block.stepLink, hnone, if_pos hasEndExec_hyphened]
    rfl
  have hclause : (Block.inSection hyphenedSection).step 5 "        PROGRAM('ONL1')".toList =
      .ok (none, .inSection hyphenedSection) := rfl
  have hkeyword : (Block.inSection hyphenedSection).step 6 "        END-EXEC".toList =
      .ok (none, .inSection hyphenedSection) := rfl
  have hexit : (Block.inSection hyphenedSection).step 7 "       1-99-FIM. EXIT.".toList =
      .ok (some (.closes hyphenedSection.procedure ∅), .outside (some "P")) := rfl
  have hreads : Reads (.outside none) (hyphenedLines.zipIdx 1) _ _ :=
    reads_hyphened_headings.append (.line step_hyphened_link (.line hoperand
      (.line hclause (.line hkeyword (.line hexit .done)))))
  rw [← numberedCode_hyphenedLines, numberedCode] at hreads
  exact Outline.ofLinesFrom_of_reads hreads

/-- **A link block need not be closed by the keyword.** Here a longer name closes it, in which
END-EXEC is no whole word. The PROGRAM clause on the next line is read in the section, and the call
graph lacks its edge. -/
theorem hyphened_name_closes_link :
    BeginsLink (Text.ofLines hyphenedLines) 3 ∧
    ClosedAt (Text.ofLines hyphenedLines) 3 4 "        COMMAREA(WS-END-EXEC)".toList ∧
    ¬ StandsClear isOperandChar "END-EXEC" "        COMMAREA(WS-END-EXEC)".toList ∧
    linkProgram "        PROGRAM('ONL1')".toList = some "ONL1" ∧
    ∃ g, CallGraph.ofSource {} (Text.ofLines hyphenedLines) = .ok g ∧ g.edges.toList = [] := by
  obtain ⟨hbegins, hline⟩ := linkLine_hyphened
  have hoperand : StandsClear isOperandChar "END-EXEC"
      ("        COMMAREA".toList ++ '(' :: ("WS-END-EXEC".toList ++ ')' :: [])) ↔
      StandsClear isOperandChar "END-EXEC" "WS-END-EXEC".toList :=
    standsClear_parenthesised_iff rfl rfl (by decide) (by decide) _
  have hwhole := hoperand.trans (standsClear_operand_iff_eq over_hyphened)
  obtain ⟨g, hg⟩ := CallGraph.exists_ofSource_eq_ok {}
    (congrArg Outline.fault outline_hyphenedLines)
  have hedges := (CallGraph.ofSource_eq_ok hg).2.edges_eq
  rw [outline_hyphenedLines] at hedges
  exact ⟨hbegins, closedAt_iff.2 ⟨hline, hasEndExec_hyphened⟩, fun h => absurd (hwhole.1 h)
    (by decide), rfl, g, hg, hedges⟩

end CobolCalls
