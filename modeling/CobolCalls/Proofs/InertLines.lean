import CobolCalls.Proofs.LineEnds
import Mathlib.Order.Monotone.Defs

/-
  Inert lines: comments, whatever they hold, and lines that no recogniser knows. They may be put
  in or taken out anywhere, inside sections and open link blocks too. The graph stays the same,
  and an error stays the same but for its line numbers, which follow the lines.

  Where each line goes is a strictly increasing function on positions. A block remembers line
  numbers, so the two readings are inside blocks that differ in them (`Block.renumber`). A line
  that both texts have does the same in both blocks, an inert one does nothing, and the outline
  of the longer text is that of the shorter one, renumbered (`Outline.ofLinesFrom_inserted`).
-/

namespace CobolCalls

open Statement

/-! ## Inert lines -/

/-- No recogniser that the scanner asks succeeds on the line. -/
structure Unrecognised (line : Line) : Prop where
  programId_eq : programId line = none
  sectionBegin_eq : sectionBegin line = none
  sectionExit_eq : sectionExit line = none
  assignment_eq : assignment line = none
  performTarget_eq : performTarget line = none
  callTarget_eq : callTarget line = none
  isLinkBegin_eq : isLinkBegin line = false
  linkProgram_eq : linkProgram line = none
  hasEndExec_eq : hasEndExec line = false

def Inert (line : Line) : Prop := isComment line = true ∨ Unrecognised line

/-- An unrecognised line leaves every block as it is. -/
theorem Unrecognised.step {line : Line} (h : Unrecognised line) (n : Nat) (block : Block) :
    block.step n line = .ok (none, block) := by
  cases block with
  | outside program =>
    have hstep := Block.stepOutside_outside h.sectionBegin_eq n program
    rw [h.programId_eq] at hstep
    exact hstep
  | inSection s =>
    have hevent : Event.ofPlain s.procedure line = none := by
      simp [Event.ofPlain, h.performTarget_eq, h.callTarget_eq, h.sectionBegin_eq]
    have hnote : s.note line = s := by
      simp [OpenSection.note, h.assignment_eq]
    have hstep := Block.stepSection_plain h.sectionExit_eq h.isLinkBegin_eq n s
    rw [hevent, hnote] at hstep
    exact hstep
  | inLink s beginLine =>
    simp [Block.step, Block.stepLink, h.linkProgram_eq, h.hasEndExec_eq]

theorem Outline.ofLinesFrom_cons_inert {line : Line} (h : Inert line) (n : Nat) (block : Block)
    (rest : List Line) : ofLinesFrom n block (line :: rest) = ofLinesFrom (n + 1) block rest := by
  rw [ofLinesFrom]
  cases hc : isComment line with
  | true => rfl
  | false =>
    have hunrecognised : Unrecognised line := by
      refine h.resolve_left ?_
      rw [hc]
      exact Bool.false_ne_true
    rw [hunrecognised.step]
    rfl

/-! ## Renumbering -/

def OpenSection.renumber (f : Nat → Nat) (s : OpenSection) : OpenSection :=
  { s with beginLine := f s.beginLine }

def Block.renumber (f : Nat → Nat) : Block → Block
  | outside program => outside program
  | inSection s => inSection (s.renumber f)
  | inLink s beginLine => inLink (s.renumber f) (f beginLine)

def Fault.renumber (f : Nat → Nat) : Fault → Fault
  | mismatchedEnd beginLine endLine expected found =>
    mismatchedEnd (f beginLine) (f endLine) expected found
  | beforeProgram line found => beforeProgram (f line) found
  | unterminatedSection beginLine procedure => unterminatedSection (f beginLine) procedure
  | unterminatedLink beginLine => unterminatedLink (f beginLine)

def SourceError.renumber (f : Nat → Nat) : SourceError → SourceError
  | mismatchedEnd beginLine endLine expected found =>
    mismatchedEnd (f beginLine) (f endLine) expected found
  | beforeProgram line procedure => beforeProgram (f line) procedure
  | unterminatedSection beginLine procedure => unterminatedSection (f beginLine) procedure
  | unterminatedLink beginLine => unterminatedLink (f beginLine)

def Outline.renumber (f : Nat → Nat) (outline : Outline) : Outline where
  events := outline.events.map fun e => (f e.1, e.2)
  fault := outline.fault.map (Fault.renumber f)

theorem OpenSection.note_renumber (f : Nat → Nat) (s : OpenSection) (line : Line) :
    (s.renumber f).note line = (s.note line).renumber f := by
  unfold note
  split <;> rfl

namespace Block

variable {f : Nat → Nat} {block next : Block} {n : Nat} {line : Line}

theorem fault?_renumber (f : Nat → Nat) (block : Block) :
    (block.renumber f).fault? = block.fault?.map (Fault.renumber f) := by
  cases block <;> rfl

theorem stepLink_renumber (f : Nat → Nat) (line : Line) (s : OpenSection) (beginLine : Nat) :
    stepLink line (s.renumber f) (f beginLine) =
      ((stepLink line s beginLine).1, (stepLink line s beginLine).2.renumber f) := by
  unfold stepLink
  cases hasEndExec line <;> rfl

/-- A line says the same in a renumbered block, and leaves the renumbered block behind. -/
theorem step_renumber_of_ok {event : Option Event} (h : block.step n line = .ok (event, next)) :
    (block.renumber f).step (f n) line = .ok (event, next.renumber f) := by
  cases block with
  | outside program =>
    obtain ⟨hb, rfl, rfl⟩ | ⟨name, p, hb, rfl, rfl, rfl⟩ := stepOutside_cases h
    · exact stepOutside_outside hb (f n) program
    · exact stepOutside_section hb (f n) p
  | inSection s =>
    obtain ⟨hexit, rfl, rfl⟩ | ⟨hlink, hnext⟩ | ⟨hexit, hlink, rfl, rfl⟩ := stepSection_cases h
    · exact stepSection_exit (s := s.renumber f) hexit (f n)
    · have hstep := stepSection_link hlink (f n) (s.renumber f)
      rw [stepLink_renumber, hnext] at hstep
      exact hstep
    · have hstep := stepSection_plain hexit hlink (f n) (s.renumber f)
      rw [OpenSection.note_renumber] at hstep
      exact hstep
  | inLink s beginLine =>
    have hnext : stepLink line s beginLine = (event, next) := Except.ok.inj h
    have hstep := stepLink_renumber f line s beginLine
    rw [hnext] at hstep
    exact congrArg Except.ok hstep

/-- A line that is a fault is the same fault in a renumbered block, with the new numbers. -/
theorem step_renumber_of_error {fault : Fault} (h : block.step n line = .error fault) :
    (block.renumber f).step (f n) line = .error (fault.renumber f) := by
  obtain ⟨name, rfl, hb, rfl⟩ | ⟨s, number, rfl, hexit, hne, rfl⟩ := step_error_cases h
  · exact stepOutside_error hb (f n)
  · exact stepSection_mismatch (s := s.renumber f) hexit hne (f n)

end Block

theorem Fault.error_renumber (o : Options) (f : Nat → Nat) (fault : Fault) :
    (fault.renumber f).error o = (fault.error o).renumber f := by
  cases fault <;> rfl

theorem CallGraph.ofOutline_renumber (o : Options) (f : Nat → Nat) (outline : Outline) :
    ofOutline o (outline.renumber f) = (ofOutline o outline).mapError (SourceError.renumber f) := by
  obtain ⟨events, fault⟩ := outline
  cases fault with
  | none =>
    unfold ofOutline Outline.renumber
    rw [List.foldl_map]
    rfl
  | some fault => exact congrArg Except.error (fault.error_renumber o f)

/-! ## Inserted lines -/

/-- The second list is the first one with inert lines put in: the line at position `i` has gone to
position `place i`, and what stands at no such position is inert. -/
structure Inserts (lines inserted : List Line) (place : Nat → Nat) : Prop where
  ascending : StrictMono place
  kept : ∀ i, inserted[place i]? = lines[i]?
  inert : ∀ j line, inserted[j]? = some line → (∀ i, place i ≠ j) → Inert line

namespace Inserts

variable {lines inserted : List Line} {line : Line} {place : Nat → Nat}

theorem eq_nil (h : Inserts lines [] place) : lines = [] := by
  have hfirst := h.kept 0
  rw [List.getElem?_nil] at hfirst
  exact List.head?_eq_none_iff.1 (List.head?_eq_getElem? ▸ hfirst.symm)

/-- The first line is one of the old lines. -/
theorem of_cons_kept (h : Inserts lines (line :: inserted) place) (hfirst : place 0 = 0) :
    ∃ rest, lines = line :: rest ∧ Inserts rest inserted fun i => place (i + 1) - 1 := by
  have hline := h.kept 0
  rw [hfirst, List.getElem?_cons_zero] at hline
  cases lines with
  | nil => cases hline
  | cons first rest =>
    obtain rfl : line = first := Option.some.inj hline
    have hpos (i : Nat) : 0 < place (i + 1) := by
      have := h.ascending (show 0 < i + 1 by omega)
      omega
    refine ⟨rest, rfl, ?_, ?_, ?_⟩
    · intro i j hij
      have := h.ascending (show i + 1 < j + 1 by omega)
      have := hpos i
      dsimp only
      omega
    · intro i
      have hkept := h.kept (i + 1)
      rw [← Nat.sub_add_cancel (hpos i), List.getElem?_cons_succ, List.getElem?_cons_succ] at hkept
      exact hkept
    · intro j other hother hnew
      refine h.inert (j + 1) other hother ?_
      intro i hi
      cases i with
      | zero => omega
      | succ i =>
        refine hnew i ?_
        omega

/-- The first line was put in. -/
theorem of_cons_inert (h : Inserts lines (line :: inserted) place) (hfirst : place 0 ≠ 0) :
    Inert line ∧ Inserts lines inserted fun i => place i - 1 := by
  have hpos (i : Nat) : 0 < place i := by
    have := h.ascending.monotone (Nat.zero_le i)
    omega
  refine ⟨h.inert 0 line rfl fun i => (hpos i).ne', ?_, ?_, ?_⟩
  · intro i j hij
    have := h.ascending hij
    have := hpos i
    dsimp only
    omega
  · intro i
    have hkept := h.kept i
    rw [← Nat.sub_add_cancel (hpos i), List.getElem?_cons_succ] at hkept
    exact hkept
  · intro j other hother hnew
    refine h.inert (j + 1) other hother ?_
    intro i hi
    refine hnew i ?_
    omega

end Inserts

/-- With inert lines put in, the outline is the same with new line numbers. -/
theorem Outline.ofLinesFrom_inserted {lines inserted : List Line} {place f : Nat → Nat} {n m : Nat}
    (h : Inserts lines inserted place) (hf : ∀ i, f (n + i) = m + place i) (block : Block) :
    ofLinesFrom m (block.renumber f) inserted = (ofLinesFrom n block lines).renumber f := by
  induction inserted generalizing lines place n m block with
  | nil =>
    rw [h.eq_nil, ofLinesFrom, ofLinesFrom, Block.fault?_renumber]
    rfl
  | cons line inserted ih =>
    by_cases hfirst : place 0 = 0
    · obtain ⟨rest, rfl, hrest⟩ := h.of_cons_kept hfirst
      have hn : f n = m := by
        have := hf 0
        rw [hfirst] at this
        exact this
      have hf' (i : Nat) : f (n + 1 + i) = m + 1 + (place (i + 1) - 1) := by
        have := h.ascending (show 0 < i + 1 by omega)
        rw [Nat.add_right_comm, Nat.add_assoc, hf (i + 1)]
        omega
      have hnext := fun next => ih hrest hf' next
      rw [ofLinesFrom, ofLinesFrom, ← hn]
      rw [← hn] at hnext
      cases isComment line with
      | true => exact hnext block
      | false =>
        cases hstep : block.step n line with
        | error fault =>
          rw [Block.step_renumber_of_error hstep]
          rfl
        | ok result =>
          obtain ⟨event, next⟩ := result
          rw [Block.step_renumber_of_ok hstep]
          cases event <;> simp [hnext, renumber]
    · obtain ⟨hinert, hrest⟩ := h.of_cons_inert hfirst
      have hf' (i : Nat) : f (n + i) = m + 1 + (place i - 1) := by
        have := h.ascending.monotone (Nat.zero_le i)
        rw [hf i]
        omega
      rw [ofLinesFrom_cons_inert hinert]
      exact ih hrest hf' block

/-! ## Texts of lines -/

namespace Text

/-- The text that consists of these lines, a line feed between each two. -/
def ofLines (lines : List Line) : String := "\n".intercalate (lines.map String.ofList)

theorem split_of_not_mem {separator : Char} {piece : List Char} (h : separator ∉ piece) :
    split separator piece = [piece] := by
  induction piece with
  | nil => rfl
  | cons c piece ih =>
    rw [List.mem_cons, not_or] at h
    exact split_cons_of_ne (Ne.symm h.1) (ih h.2)

theorem split_append_separator {separator : Char} {piece : List Char} (h : separator ∉ piece)
    (rest : List Char) :
    split separator (piece ++ separator :: rest) = piece :: split separator rest := by
  induction piece with
  | nil => exact split_cons_self separator rest
  | cons c piece ih =>
    rw [List.mem_cons, not_or] at h
    exact split_cons_of_ne (Ne.symm h.1) (ih h.2)

theorem split_ofLines {line : Line} {rest : List Line} (h : ∀ l ∈ line :: rest, '\n' ∉ l) :
    split '\n' (ofLines (line :: rest)).toList = line :: rest := by
  unfold ofLines
  rw [String.toList_intercalate, List.map_map]
  have hid : (String.toList ∘ String.ofList : Line → Line) = id := by
    funext l
    exact String.toList_ofList
  rw [hid, List.map_id]
  induction rest generalizing line with
  | nil =>
    rw [List.intercalate_singleton]
    exact split_of_not_mem (h line List.mem_cons_self)
  | cons next rest ih =>
    have hnext := ih fun l hl => h l (List.mem_cons_of_mem line hl)
    have hfirst := split_append_separator (h line List.mem_cons_self)
    rw [List.intercalate_cons_cons, List.append_assoc]
    exact (hfirst _).trans (congrArg (line :: ·) hnext)

theorem lines_ofLines {ls : List Line} (h : ∀ line ∈ ls, '\n' ∉ line) :
    lines (ofLines ls) = linesOf ls := by
  cases ls with
  | nil => rfl
  | cons line rest => rw [lines_eq_linesOf, split_ofLines h]

end Text

/-- Reading a text takes from its lines at most blanks at their ends, and a last empty line. -/
theorem exists_blanks_linesOf (ls : List Line) :
    ∃ blanks, (∀ line ∈ blanks, Blank line) ∧
      List.Forall₂ Alike (Text.linesOf ls ++ blanks) ls := by
  induction ls with
  | nil => exact ⟨[], by simp, .nil⟩
  | cons line rest ih =>
    cases rest with
    | nil =>
      by_cases hempty : line = []
      · subst hempty
        exact ⟨[[]], by simp [blank_nil], .cons (.refl []) .nil⟩
      · have hlast : Text.linesOf [line] = [line] := by simp [Text.linesOf, hempty]
        rw [hlast]
        exact ⟨[], by simp, .cons (.refl line) .nil⟩
    | cons next rest =>
      obtain ⟨blanks, hblanks, halike⟩ := ih
      obtain ⟨pad, hpad, hline⟩ := exists_blank_closeLine line
      have hink : SameInk (Text.closeLine line.reverse) line := by
        have := sameInk_append (Text.closeLine line.reverse) hpad
        rw [← hline] at this
        exact this
      exact ⟨blanks, hblanks, .cons hink.alike halike⟩

theorem Outline.ofSource_ofLines {ls : List Line} (h : ∀ line ∈ ls, '\n' ∉ line) :
    ofSource (Text.ofLines ls) = ofLinesFrom 1 (.outside none) ls := by
  obtain ⟨blanks, hblanks, halike⟩ := exists_blanks_linesOf ls
  rw [ofSource, Text.lines_ofLines h, ← ofLinesFrom_append_blank hblanks]
  exact ofLinesFrom_alike halike 1 _

namespace CallGraph

/-- **Inert lines may stand anywhere.** If inert lines are put in among the lines of a text, in
whatever block, its call graph is the same, and so is its error, but that every line number is now
the new number of the same line. Lines are numbered from one. -/
theorem ofSource_ignores_inert_lines (o : Options) {lines inserted : List Line}
    {place : Nat → Nat} (hlines : ∀ line ∈ lines, '\n' ∉ line)
    (hinserted : ∀ line ∈ inserted, '\n' ∉ line) (h : Inserts lines inserted place) :
    ofSource o (Text.ofLines inserted) =
      (ofSource o (Text.ofLines lines)).mapError
        (SourceError.renumber fun n => place (n - 1) + 1) := by
  have hnumber (i : Nat) : place (1 + i - 1) + 1 = 1 + place i := by
    rw [Nat.add_sub_cancel_left, Nat.add_comm]
  have houtline := Outline.ofLinesFrom_inserted (f := fun n => place (n - 1) + 1) h hnumber
    (.outside none)
  rw [ofSource, ofSource, Outline.ofSource_ofLines hinserted, Outline.ofSource_ofLines hlines,
    ← ofOutline_renumber]
  exact congrArg (ofOutline o) houtline

/-- A section with a link block, both left open. -/
def unendedLines : List Line :=
  ["       PROGRAM-ID. P.".toList, "       1-A SECTION.".toList, "        EXEC CICS LINK".toList]

/-- The same with an exit and an END-EXEC in comments, and an empty line. -/
def commentedLines : List Line :=
  ["       PROGRAM-ID. P.".toList, "      *1-99-FIM. EXIT.".toList, "       1-A SECTION.".toList,
    "        EXEC CICS LINK".toList, "      /    END-EXEC".toList, []]

/-- Where the lines have gone. -/
def commentedPlace (i : Nat) : Nat := if i = 0 then 0 else if i < 3 then i + 1 else i + 3

theorem unrecognised_nil : Unrecognised [] := ⟨rfl, rfl, rfl, rfl, rfl, rfl, rfl, rfl, rfl⟩

theorem inserts_commentedLines : Inserts unendedLines commentedLines commentedPlace where
  ascending := by
    intro i j hij
    unfold commentedPlace
    split_ifs <;> omega
  kept i := by
    have hcases : i = 0 ∨ i = 1 ∨ i = 2 ∨ 3 ≤ i := by omega
    rcases hcases with rfl | rfl | rfl | hi
    · simp [commentedPlace, commentedLines, unendedLines]
    · simp [commentedPlace, commentedLines, unendedLines]
    · simp [commentedPlace, commentedLines, unendedLines]
    · have hplace : 6 ≤ commentedPlace i := by
        unfold commentedPlace
        split_ifs <;> omega
      rw [List.getElem?_eq_none hplace, List.getElem?_eq_none hi]
  inert j line hline hnew := by
    have hcases : j = 0 ∨ j = 1 ∨ j = 2 ∨ j = 3 ∨ j = 4 ∨ j = 5 ∨ 6 ≤ j := by omega
    rcases hcases with rfl | rfl | rfl | rfl | rfl | rfl | hj
    · exact absurd rfl (hnew 0)
    · rw [← Option.some.inj hline]
      exact .inl (by decide)
    · exact absurd rfl (hnew 1)
    · exact absurd rfl (hnew 2)
    · rw [← Option.some.inj hline]
      exact .inl (by decide)
    · rw [← Option.some.inj hline]
      exact .inr unrecognised_nil
    · rw [List.getElem?_eq_none hj] at hline
      cases hline

theorem ofSource_commentedLines :
    Inserts unendedLines commentedLines commentedPlace ∧
      ofSource {} (Text.ofLines unendedLines) = .error (.unterminatedLink 3) ∧
      ofSource {} (Text.ofLines commentedLines) = .error (.unterminatedLink 4) := by
  have hlines : ∀ line ∈ unendedLines, '\n' ∉ line := by decide +kernel
  have hinserted : ∀ line ∈ commentedLines, '\n' ∉ line := by decide +kernel
  have hunended : ofSource {} (Text.ofLines unendedLines) = .error (.unterminatedLink 3) := by
    have houtline : Outline.ofLinesFrom 1 (.outside none) unendedLines =
        ⟨[(1, .program "P"), (2, .opens ⟨"P", ⟨"1", "A"⟩⟩)], some (.unterminatedLink 3)⟩ := by
      decide +kernel
    rw [ofSource, Outline.ofSource_ofLines hlines, houtline]
    rfl
  have hcommented := ofSource_ignores_inert_lines {} hlines hinserted inserts_commentedLines
  rw [hunended] at hcommented
  exact ⟨inserts_commentedLines, hunended, hcommented⟩

end CallGraph
end CobolCalls
