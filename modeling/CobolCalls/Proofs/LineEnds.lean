import CobolCalls.Fields
import CobolCalls.CallGraph.Source
import CobolCalls.Proofs.Padding
import CobolCalls.Proofs.Reading
import CobolCalls.Text.Split
import Mathlib.Data.List.Forall2

/-
  What ends a line never matters: blanks put after the lines of a text, carriage returns before
  its line feeds included, change neither its call graph nor its declared fields.

  A text is taken apart at its line feeds (`Text.lines_eq_linesOf`), for there the padding is put.
  Of a padded piece the line may lose another carriage return than of the bare one, so the two
  lines need not extend each other; but with blanks after both they are the same (`SameInk`), and
  no recogniser looks at those. Padding after the last line feed makes a line where there was
  none, and a blank line changes nothing in any block.
-/

namespace CobolCalls

open Statement

/-! ## Lines and pieces -/

namespace Text

theorem exists_split (separator : Char) (text : List Char) :
    ∃ first others, split separator text = first :: others := by
  cases text with
  | nil => exact ⟨[], [], rfl⟩
  | cons c rest =>
    unfold split
    split
    · exact ⟨[], split separator rest, rfl⟩
    · split
      · exact ⟨[c], [], rfl⟩
      · exact ⟨_, _, rfl⟩

theorem split_cons_self (separator : Char) (rest : List Char) :
    split separator (separator :: rest) = [] :: split separator rest := by
  rw [split, if_pos (beq_self_eq_true separator)]

theorem split_cons_of_ne {separator c : Char} (h : c ≠ separator) {rest first : List Char}
    {others : List (List Char)} (hrest : split separator rest = first :: others) :
    split separator (c :: rest) = (c :: first) :: others := by
  rw [split, if_neg (by simpa using h), hrest]

theorem linesAfter_cons {c : Char} (h : c ≠ '\n') (before rest : List Char) :
    linesAfter before (c :: rest) = linesAfter (c :: before) rest := by
  rw [linesAfter]
  exact h

/-- The lines of a text that consists of these pieces, a line feed between each two. -/
def linesOf : List (List Char) → List Line
  | [] => []
  | [last] => if last.isEmpty then [] else [last]
  | piece :: next :: rest => closeLine piece.reverse :: linesOf (next :: rest)

theorem linesAfter_eq_linesOf (before : List Char) {text first : List Char}
    {others : List (List Char)} (h : split '\n' text = first :: others) :
    linesAfter before text = linesOf ((before.reverse ++ first) :: others) := by
  induction text generalizing before first others with
  | nil =>
    cases h
    simp [linesAfter, linesOf]
  | cons c rest ih =>
    obtain ⟨next, more, hrest⟩ := exists_split '\n' rest
    by_cases hc : c = '\n'
    · subst hc
      rw [split_cons_self, hrest] at h
      obtain ⟨rfl, rfl⟩ := List.cons.inj h
      have hlines := ih [] hrest
      rw [List.reverse_nil, List.nil_append] at hlines
      rw [linesAfter, linesOf, hlines, List.append_nil, List.reverse_reverse]
    · rw [split_cons_of_ne hc hrest] at h
      obtain ⟨rfl, rfl⟩ := List.cons.inj h
      rw [linesAfter_cons hc, ih (c :: before) hrest, List.reverse_cons, List.append_assoc,
        List.singleton_append]

theorem lines_eq_linesOf (text : String) : lines text = linesOf (split '\n' text.toList) := by
  obtain ⟨first, others, h⟩ := exists_split '\n' text.toList
  rw [lines, linesAfter_eq_linesOf [] h, h]
  rfl

theorem closeLine_cases (before : List Char) :
    before.reverse = closeLine before ∨ before.reverse = closeLine before ++ ['\r'] := by
  cases before with
  | nil => exact .inl rfl
  | cons c before =>
    by_cases hc : c = '\r'
    · subst hc
      exact .inr List.reverse_cons
    · left
      rw [closeLine]
      exact fun rest heq => hc (List.cons.inj heq).1

end Text

/-! ## Lines that are read alike -/

/-- No block tells the two lines apart. -/
structure Alike (line line' : Line) : Prop where
  isComment_eq : isComment line = isComment line'
  step_eq : ∀ (n : Nat) (block : Block), block.step n line = block.step n line'

theorem Alike.refl (line : Line) : Alike line line := ⟨rfl, fun _ _ => rfl⟩

/-- Blanks at the end of a line are never looked at. -/
theorem alike_append_blank (line : Line) {pad : Line} (hp : Blank pad) :
    Alike (line ++ pad) line where
  isComment_eq := isComment_padded line hp
  step_eq n block := by
    have hbegin := tight_sectionBegin.padded line hp
    have hlink (s : OpenSection) (beginLine : Nat) :
        Block.stepLink (line ++ pad) s beginLine = Block.stepLink line s beginLine := by
      rw [Block.stepLink, Block.stepLink, linkProgram_padded line hp, hasEndExec_padded line hp]
    cases block with
    | outside program =>
      simp only [Block.step, Block.stepOutside, hbegin, tight_programId.padded line hp]
    | inSection s =>
      simp only [Block.step, Block.stepSection, hbegin, hlink, tight_sectionExit.padded line hp,
        tight_assignment.padded line hp, tight_performTarget.padded line hp,
        tight_callTarget.padded line hp, isLinkBegin_padded line hp]
    | inLink s beginLine => exact congrArg Except.ok (hlink s beginLine)

theorem Outline.ofLinesFrom_alike {lines lines' : List Line} (h : List.Forall₂ Alike lines lines')
    (n : Nat) (block : Block) : ofLinesFrom n block lines = ofLinesFrom n block lines' := by
  induction h generalizing n block with
  | nil => rfl
  | cons hline _ ih =>
    rw [ofLinesFrom, ofLinesFrom, hline.isComment_eq, hline.step_eq, ih]
    simp only [ih]

/-! ## Lines that differ in blanks -/

/-- The two lines are the same once blanks are put after each. -/
def SameInk (line line' : Line) : Prop := ∃ a b, Blank a ∧ Blank b ∧ line ++ a = line' ++ b

theorem SameInk.eq_of_ignoresPadding {α : Type} {form : Line → α} (h : IgnoresPadding form)
    {line line' : Line} (hs : SameInk line line') : form line = form line' := by
  obtain ⟨a, b, ha, hb, heq⟩ := hs
  calc form line = form (line ++ a) := (h line ha).symm
    _ = form (line' ++ b) := by rw [heq]
    _ = form line' := h line' hb

theorem SameInk.alike {line line' : Line} (h : SameInk line line') : Alike line line' where
  isComment_eq := h.eq_of_ignoresPadding isComment_padded
  step_eq n block := by
    have hstep : IgnoresPadding fun line => block.step n line :=
      fun line _ hp => (alike_append_blank line hp).step_eq n block
    exact h.eq_of_ignoresPadding hstep

theorem blank_nil : Blank [] := fun _ hc => absurd hc List.not_mem_nil

theorem blank_append {line pad : Line} (h : Blank line) (hp : Blank pad) : Blank (line ++ pad) :=
  fun c hc => (List.mem_append.1 hc).elim (h c) (hp c)

theorem sameInk_append (line : Line) {pad : Line} (hp : Blank pad) : SameInk line (line ++ pad) :=
  ⟨pad, [], hp, blank_nil, (List.append_nil _).symm⟩

/-- Closing a line takes blanks from it at most. -/
theorem exists_blank_closeLine (piece : List Char) :
    ∃ pad, Blank pad ∧ piece = Text.closeLine piece.reverse ++ pad := by
  have hcases := Text.closeLine_cases piece.reverse
  rw [List.reverse_reverse] at hcases
  rcases hcases with h | h
  · exact ⟨[], blank_nil, by rw [List.append_nil]; exact h⟩
  · exact ⟨['\r'], by simp [Blank, Text.isBlank], h⟩

theorem sameInk_closeLine (piece : List Char) {pad : Line} (hp : Blank pad) :
    SameInk (Text.closeLine piece.reverse) (Text.closeLine (piece ++ pad).reverse) := by
  obtain ⟨a, ha, heq⟩ := exists_blank_closeLine piece
  obtain ⟨b, hb, heq'⟩ := exists_blank_closeLine (piece ++ pad)
  refine ⟨a ++ pad, b, blank_append ha hp, hb, ?_⟩
  rw [← List.append_assoc, ← heq, ← heq']

/-- The piece with blanks after it. -/
def PadsPiece (piece padded : List Char) : Prop := ∃ pad, Blank pad ∧ padded = piece ++ pad

/-- Padding changes the blanks at the end of lines, and it may add a blank line in the end. -/
theorem linesOf_padded {pieces padded : List (List Char)}
    (h : List.Forall₂ PadsPiece pieces padded) :
    ∃ lines blanks, Text.linesOf padded = lines ++ blanks ∧
      List.Forall₂ SameInk (Text.linesOf pieces) lines ∧ ∀ line ∈ blanks, Blank line := by
  induction h with
  | nil => exact ⟨[], [], rfl, .nil, by simp⟩
  | @cons piece _ rest rest' hpiece hrest ih =>
    obtain ⟨pad, hp, rfl⟩ := hpiece
    cases hrest with
    | nil =>
      by_cases hempty : piece = []
      · -- an empty last piece is no line, but its padding is one
        subst hempty
        refine ⟨[], Text.linesOf [pad], rfl, .nil, fun line hline => ?_⟩
        unfold Text.linesOf at hline
        split at hline
        · cases hline
        · rw [List.mem_singleton.1 hline]
          exact hp
      · have hlast : Text.linesOf [piece] = [piece] := by simp [Text.linesOf, hempty]
        have hlast' : Text.linesOf [piece ++ pad] = [piece ++ pad] := by simp [Text.linesOf, hempty]
        rw [hlast, hlast']
        exact ⟨[piece ++ pad], [], rfl, .cons (sameInk_append piece hp) .nil, by simp⟩
    | cons _ _ =>
      obtain ⟨lines, blanks, hlines, hink, hblanks⟩ := ih
      refine ⟨_ :: lines, blanks, ?_, .cons (sameInk_closeLine piece hp) hink, hblanks⟩
      rw [Text.linesOf, hlines, List.cons_append]

/-! ## Blank lines -/

theorem step_nil (n : Nat) (block : Block) : block.step n [] = .ok (none, block) := by
  cases block with
  | outside program => exact Block.stepOutside_outside tight_sectionBegin.empty n program
  | inSection s => exact Block.stepSection_plain tight_sectionExit.empty rfl n s
  | inLink s beginLine => rfl

theorem alike_nil_of_blank {line : Line} (h : Blank line) : Alike line [] :=
  alike_append_blank [] h

theorem Outline.ofLinesFrom_blank {blanks : List Line} (h : ∀ line ∈ blanks, Blank line) (n : Nat)
    (block : Block) : ofLinesFrom n block blanks = ⟨[], block.fault?⟩ := by
  induction blanks generalizing n with
  | nil => rfl
  | cons line rest ih =>
    have hline := alike_nil_of_blank (h line List.mem_cons_self)
    have hrest := ih (fun l hl => h l (List.mem_cons_of_mem line hl)) (n + 1)
    have hcomment : isComment [] = false := rfl
    rw [ofLinesFrom, hline.isComment_eq, hcomment, hline.step_eq, step_nil]
    simp [hrest]

/-- Blank lines at the end say nothing and close nothing. -/
theorem Outline.ofLinesFrom_append_blank {blanks : List Line} (h : ∀ line ∈ blanks, Blank line)
    (lines : List Line) (n : Nat) (block : Block) :
    ofLinesFrom n block (lines ++ blanks) = ofLinesFrom n block lines := by
  induction lines generalizing n block with
  | nil => exact ofLinesFrom_blank h n block
  | cons line rest ih =>
    rw [List.cons_append, ofLinesFrom, ofLinesFrom, ih]
    simp only [ih]

/-! ## Padded texts -/

/-- Between line feeds, the second text has the lines of the first with blanks after them. -/
def Pads (source padded : String) : Prop :=
  List.Forall₂ PadsPiece (Text.split '\n' source.toList) (Text.split '\n' padded.toList)

theorem exists_lines_of_pads {source padded : String} (h : Pads source padded) :
    ∃ lines blanks, Text.lines padded = lines ++ blanks ∧
      List.Forall₂ SameInk (Text.lines source) lines ∧ ∀ line ∈ blanks, Blank line := by
  rw [Text.lines_eq_linesOf, Text.lines_eq_linesOf]
  exact linesOf_padded h

theorem Outline.ofSource_padded {source padded : String} (h : Pads source padded) :
    ofSource padded = ofSource source := by
  obtain ⟨lines, blanks, hlines, hink, hblanks⟩ := exists_lines_of_pads h
  calc ofSource padded = ofLinesFrom 1 (.outside none) (lines ++ blanks) := by rw [ofSource, hlines]
    _ = ofLinesFrom 1 (.outside none) lines := ofLinesFrom_append_blank hblanks lines 1 _
    _ = ofSource source := (ofLinesFrom_alike (hink.imp fun _ _ hs => hs.alike) 1 _).symm

namespace Fields

/-- What lines declare, in their order. -/
def declarations (lines : List Line) : List (String × String) :=
  (lines.filter fun line => !isComment line).filterMap fieldDeclaration

theorem declarations_cons (line : Line) (rest : List Line) :
    declarations (line :: rest) =
      (if isComment line then none else fieldDeclaration line).toList ++ declarations rest := by
  unfold declarations
  cases hc : isComment line with
  | true => simp [hc]
  | false => cases hd : fieldDeclaration line <;> simp [hc, hd]

theorem declarations_sameInk {lines lines' : List Line} (h : List.Forall₂ SameInk lines lines') :
    declarations lines = declarations lines' := by
  induction h with
  | nil => rfl
  | cons hline _ ih =>
    rw [declarations_cons, declarations_cons, ih, hline.eq_of_ignoresPadding isComment_padded,
      hline.eq_of_ignoresPadding tight_fieldDeclaration.padded]

theorem declarations_append_blank {blanks : List Line} (h : ∀ line ∈ blanks, Blank line)
    (lines : List Line) : declarations (lines ++ blanks) = declarations lines := by
  have hnone : declarations blanks = [] := by
    unfold declarations
    rw [List.filterMap_eq_nil_iff]
    intro line hline
    exact tight_fieldDeclaration.blank (h line (List.mem_of_mem_filter hline))
  unfold declarations at hnone ⊢
  rw [List.filter_append, List.filterMap_append, hnone, List.append_nil]

theorem ofSource_padded {source padded : String} (h : Pads source padded) :
    ofSource padded = ofSource source := by
  obtain ⟨lines, blanks, hlines, hink, hblanks⟩ := exists_lines_of_pads h
  have hsame : declarations (Text.lines padded) = declarations (Text.lines source) := by
    rw [hlines, declarations_append_blank hblanks, declarations_sameInk hink]
  exact congrArg Dict.ofList hsame

end Fields

namespace CallGraph

/-- **What ends a line never matters.** Blanks after the lines of a source, whether they fill up
its columns or turn line feeds into pairs with a carriage return, change neither its call graph
or its error, line numbers included, nor its declared fields. -/
theorem ofSource_ignores_line_ends (o : Options) {source padded : String}
    (h : Pads source padded) :
    ofSource o padded = ofSource o source ∧ Fields.ofSource padded = Fields.ofSource source :=
  ⟨congrArg (ofOutline o) (Outline.ofSource_padded h), Fields.ofSource_padded h⟩

/-- A declared field, and a section left open. -/
def bareSource : String :=
  "        01 F PIC X VALUE 'A'.\r\n       PROGRAM-ID. P.\n       1-A SECTION.\n        CALL F\n"

/-- The same lines with tabs, spaces, carriage returns and an ideographic space after them, and a
line of blanks. -/
def paddedSource : String :=
  "        01 F PIC X VALUE 'A'.\r\t\r\n       PROGRAM-ID. P. \n       1-A SECTION.\r\n" ++
    "        CALL F\u3000\n \r"

theorem pads_bareSource : Pads bareSource paddedSource := by
  have hbare : Text.split '\n' bareSource.toList =
      ["        01 F PIC X VALUE 'A'.\r".toList, "       PROGRAM-ID. P.".toList,
        "       1-A SECTION.".toList, "        CALL F".toList, []] := by decide
  have hpadded : Text.split '\n' paddedSource.toList =
      ["        01 F PIC X VALUE 'A'.\r".toList ++ ['\t', '\r'],
        "       PROGRAM-ID. P.".toList ++ [' '], "       1-A SECTION.".toList ++ ['\r'],
        "        CALL F".toList ++ ['\u3000'], [] ++ [' ', '\r']] := by decide
  rw [Pads, hbare, hpadded]
  refine .cons ⟨_, ?_, rfl⟩ (.cons ⟨_, ?_, rfl⟩ (.cons ⟨_, ?_, rfl⟩ (.cons ⟨_, ?_, rfl⟩
    (.cons ⟨_, ?_, rfl⟩ .nil))))
  all_goals simp [Blank, Text.isBlank]

theorem ofSource_paddedSource :
    Pads bareSource paddedSource ∧ ofSource {} paddedSource = ofSource {} bareSource ∧
      Fields.ofSource paddedSource = Fields.ofSource bareSource :=
  ⟨pads_bareSource, ofSource_ignores_line_ends {} pads_bareSource⟩

end CallGraph
end CobolCalls
