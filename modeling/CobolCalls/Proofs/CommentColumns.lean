import CobolCalls.Proofs.RawLines
import CobolCalls.Proofs.TreeOrder

/-
  Which raw lines of a file are passed over as comments. A comment is told by column seven of its
  line, but columns are counted in the decoded line, and an ill-formed part of one or two bytes is
  three bytes wide there. So a mark counts if what stands before it is six bytes wide once decoded
  (`isComment_decodeLine_iff`), wherever it stands in the raw line.

  Where decoding keeps the length this is the raw line's own column seven, in UTF-8 for one. Of six
  first bytes that get another length this is never so: some line that begins with them is taken for
  a comment and is none, or the other way round (`columnSeven_decides_iff`).
-/

namespace CobolCalls

open Statement

/-! ## Offsets -/

namespace Text

open Utf8

/-- The character at an offset is the one behind a text of just as many bytes. -/
theorem charAtByte?_eq_some_iff {n : Nat} {line : Line} {c : Char} :
    charAtByte? n line = some c ↔
      ∃ before after, line = before ++ c :: after ∧ width before = n := by
  induction line generalizing n with
  | nil =>
    constructor
    · intro h
      cases n <;> cases h
    · intro h
      obtain ⟨before, after, heq, -⟩ := h
      simp at heq
  | cons d rest ih =>
    have hpos := d.utf8Size_pos
    cases n with
    | zero =>
      constructor
      · intro h
        cases h
        exact ⟨[], rest, rfl, rfl⟩
      · intro h
        obtain ⟨before, after, heq, hwidth⟩ := h
        cases before with
        | nil =>
          cases heq
          rfl
        | cons e before =>
          cases heq
          rw [width] at hwidth
          omega
    | succ n =>
      rw [charAtByte?]
      constructor
      · intro h
        split at h
        next hle =>
          obtain ⟨before, after, rfl, hwidth⟩ := ih.1 h
          refine ⟨d :: before, after, rfl, ?_⟩
          rw [width]
          omega
        next => cases h
      · intro h
        obtain ⟨before, after, heq, hwidth⟩ := h
        cases before with
        | nil => cases hwidth
        | cons e before =>
          cases heq
          rw [width] at hwidth
          rw [if_pos (by omega)]
          exact ih.2 ⟨before, after, rfl, by omega⟩

theorem utf8ByteSize_ofList (text : List Char) :
    (String.ofList text).utf8ByteSize = width text := by
  induction text with
  | nil => rfl
  | cons c rest ih =>
    have happend : String.ofList (c :: rest) = String.singleton c ++ String.ofList rest := by
      rw [String.singleton_eq_ofList, ← String.ofList_append]
      rfl
    rw [happend, String.utf8ByteSize_append, String.utf8ByteSize_singleton, ih, width]

theorem utf8ByteSize_eq_width (text : String) : text.utf8ByteSize = width text.toList := by
  rw [← utf8ByteSize_ofList, String.ofList_toList]

theorem utf8ByteSize_decode (raw : List UInt8) :
    (decode raw.toByteArray).utf8ByteSize = width (chars raw) := by
  rw [utf8ByteSize_eq_width, toList_decode_toByteArray]

/-- The text has as many bytes as what it is decoded from. -/
def KeepsLength (raw : List UInt8) : Prop := (decode raw.toByteArray).utf8ByteSize = raw.length

theorem keepsLength_iff {raw : List UInt8} : KeepsLength raw ↔ width (chars raw) = raw.length := by
  rw [KeepsLength, utf8ByteSize_decode]

theorem keepsLength_utf8 (text : String) : KeepsLength text.toUTF8.toList := by
  have hbytes : text.toUTF8.data.toList = text.toList.flatMap String.utf8EncodeChar :=
    Path.bytes_eq text
  have hlength : text.toUTF8.data.toList.length = text.utf8ByteSize := String.size_toByteArray
  rw [keepsLength_iff, toList_eq_data, hlength, utf8ByteSize_eq_width, hbytes,
    chars_flatMap_utf8EncodeChar]

/-- What stands before a byte of ASCII keeps its length, too. Nothing behind the byte can make up
for it, since no text is narrower than its bytes. -/
theorem KeepsLength.before_ascii {front back : List UInt8} {b : UInt8} (hb : b.toNat < 0x80)
    (h : KeepsLength (front ++ b :: back)) : width (chars front) = front.length := by
  have hfront := length_le_width_chars front
  have hback := length_le_width_chars back
  have hpos := (Char.ofNat b.toNat).utf8Size_pos
  rw [keepsLength_iff, chars_append_ascii front hb, width_append, width, List.length_append,
    List.length_cons] at h
  omega

end Text

/-! ## Marks of comments -/

/-- An asterisk or a slash. -/
def MarksComment (b : UInt8) : Prop := b = 0x2A ∨ b = 0x2F

/-- The raw line has its mark in column seven, which is at offset six. -/
def MarkedInColumnSeven (raw : List UInt8) : Prop := ∃ b, raw[6]? = some b ∧ MarksComment b

theorem MarksComment.ascii {b : UInt8} (h : MarksComment b) : b.toNat < 0x80 := by
  rcases h with rfl | rfl <;> decide

namespace Statement

open Text Text.Utf8

theorem isComment_iff {line : Line} :
    isComment line = true ↔ ∃ before c after, line = before ++ c :: after ∧
      (c = '*' ∨ c = '/') ∧ width before = 6 := by
  unfold isComment
  constructor
  · intro h
    split at h
    next c hc =>
      obtain ⟨before, after, hline, hwidth⟩ := charAtByte?_eq_some_iff.1 hc
      exact ⟨before, c, after, hline, by simpa using h, hwidth⟩
    next => cases h
  · intro h
    obtain ⟨before, c, after, hline, hc, hwidth⟩ := h
    rw [charAtByte?_eq_some_iff.2 ⟨before, after, hline, hwidth⟩]
    simpa using hc

/-- A mark counts behind bytes that are six wide once decoded. -/
theorem isComment_decodeLine_iff {raw : List UInt8} :
    isComment (decodeLine raw) = true ↔ ∃ front b back, raw = front ++ b :: back ∧
      MarksComment b ∧ width (chars front) = 6 := by
  rw [decodeLine_eq_chars, isComment_iff]
  constructor
  · intro h
    obtain ⟨before, c, after, hchars, hc, hwidth⟩ := h
    have hascii : c.toNat < 0x80 := by
      rcases hc with rfl | rfl <;> decide
    obtain ⟨front, b, back, hraw, hb, rfl, -⟩ := exists_of_chars_eq hascii hchars
    refine ⟨front, b, back, hraw, ?_, hwidth⟩
    rcases hc with rfl | rfl
    · exact .inl (UInt8.toNat_inj.1 hb)
    · exact .inr (UInt8.toNat_inj.1 hb)
  · rintro ⟨front, b, back, rfl, hb, hwidth⟩
    refine ⟨chars front, _, chars back, chars_append_ascii front hb.ascii back, ?_, hwidth⟩
    rcases hb with rfl | rfl
    · exact .inl rfl
    · exact .inr rfl

theorem markedInColumnSeven_iff {raw : List UInt8} :
    MarkedInColumnSeven raw ↔ ∃ front b back, raw = front ++ b :: back ∧ MarksComment b ∧
      front.length = 6 := by
  constructor
  · intro h
    obtain ⟨b, hget, hb⟩ := h
    obtain ⟨hlt, hget⟩ := List.getElem?_eq_some_iff.1 hget
    refine ⟨raw.take 6, b, raw.drop 7, ?_, hb, List.length_take_of_le (Nat.le_of_lt hlt)⟩
    rw [← hget, List.getElem_cons_drop, List.take_append_drop]
  · rintro ⟨front, b, back, rfl, hb, hlength⟩
    refine ⟨b, ?_, hb⟩
    rw [List.getElem?_append_right (Nat.le_of_eq hlength), hlength]
    rfl

theorem isComment_iff_of_keepsLength {raw : List UInt8} (h : KeepsLength raw) :
    isComment (decodeLine raw) = true ↔ MarkedInColumnSeven raw := by
  rw [isComment_decodeLine_iff, markedInColumnSeven_iff]
  constructor
  · rintro ⟨front, b, back, rfl, hb, hwidth⟩
    exact ⟨front, b, back, rfl, hb, (h.before_ascii hb.ascii).symm.trans hwidth⟩
  · rintro ⟨front, b, back, rfl, hb, hlength⟩
    exact ⟨front, b, back, rfl, hb, (h.before_ascii hb.ascii).trans hlength⟩

/-! ### Six columns -/

section Columns

variable {columns : List UInt8} (hcolumns : columns.length = 6)

include hcolumns

theorem markedInColumnSeven_append_iff {rest : List UInt8} :
    MarkedInColumnSeven (columns ++ rest) ↔ ∃ b back, rest = b :: back ∧ MarksComment b := by
  unfold MarkedInColumnSeven
  rw [List.getElem?_append_right (Nat.le_of_eq hcolumns), hcolumns]
  cases rest with
  | nil => simp
  | cons b back => simp

/-- The mark stands among the six columns already, or else right behind them. -/
theorem isComment_append_iff {rest : List UInt8} :
    isComment (decodeLine (columns ++ rest)) = true ↔
      (∃ front b back, columns = front ++ b :: back ∧ MarksComment b ∧ width (chars front) = 6) ∨
      width (chars columns) = 6 ∧ ∃ b back, rest = b :: back ∧ MarksComment b := by
  rw [isComment_decodeLine_iff]
  constructor
  · intro h
    obtain ⟨front, b, back, heq, hb, hwidth⟩ := h
    -- no mark further to the right, for a text is never narrower than its bytes
    have hlength := length_le_width_chars front
    rcases List.append_eq_append_iff.1 heq with ⟨more, rfl, hrest⟩ | ⟨more, rfl, hrest⟩
    · have hnil : more = [] := by
        apply List.eq_nil_of_length_eq_zero
        rw [List.length_append] at hlength
        omega
      subst hnil
      rw [List.append_nil] at hwidth
      exact .inr ⟨hwidth, b, back, hrest, hb⟩
    · cases more with
      | nil =>
        rw [List.append_nil]
        exact .inr ⟨hwidth, b, back, hrest.symm, hb⟩
      | cons d more =>
        cases hrest
        exact .inl ⟨front, b, more, rfl, hb, hwidth⟩
  · rintro (⟨front, b, back, rfl, hb, hwidth⟩ | ⟨hwidth, b, back, rfl, hb⟩)
    · exact ⟨front, b, back ++ rest, by simp, hb, hwidth⟩
    · exact ⟨columns, b, back, rfl, hb, hwidth⟩

/-- Column seven of the raw line decides for all lines that begin with these six bytes, exactly if
decoding keeps their length. -/
theorem columnSeven_decides_iff :
    (∀ rest, isComment (decodeLine (columns ++ rest)) = true ↔
      MarkedInColumnSeven (columns ++ rest)) ↔ KeepsLength columns := by
  rw [keepsLength_iff, hcolumns]
  constructor
  · intro h
    have hmarked : MarkedInColumnSeven (columns ++ [0x2A]) :=
      (markedInColumnSeven_append_iff hcolumns).2 ⟨0x2A, [], rfl, .inl rfl⟩
    rcases (isComment_append_iff hcolumns).1 ((h [0x2A]).2 hmarked) with hinside | ⟨hwidth, -⟩
    · -- then a blank in column seven makes a comment, too
      have hblank := (h [0x20]).1 ((isComment_append_iff hcolumns).2 (.inl hinside))
      obtain ⟨b, back, heq, hb⟩ := (markedInColumnSeven_append_iff hcolumns).1 hblank
      cases heq
      rcases hb with hb | hb <;> cases hb
    · exact hwidth
  · intro hwidth rest
    rw [isComment_append_iff hcolumns, markedInColumnSeven_append_iff hcolumns]
    constructor
    · rintro (⟨front, b, back, rfl, hb, hfront⟩ | ⟨-, hmark⟩)
      · have hkeeps : KeepsLength (front ++ b :: back) :=
          keepsLength_iff.2 (hwidth.trans hcolumns.symm)
        have hlength := hkeeps.before_ascii hb.ascii
        rw [List.length_append, List.length_cons] at hcolumns
        omega
      · exact hmark
    · intro hmark
      exact .inr ⟨hwidth, hmark⟩

end Columns

theorem isComment_iff_of_keepsLength_take {raw : List UInt8} (h : KeepsLength (raw.take 6)) :
    isComment (decodeLine raw) = true ↔ MarkedInColumnSeven raw := by
  by_cases hlength : 6 ≤ raw.length
  · have hdecides := (columnSeven_decides_iff (List.length_take_of_le hlength)).2 h (raw.drop 6)
    rwa [List.take_append_drop] at hdecides
  · rw [List.take_of_length_le (Nat.le_of_not_le hlength)] at h
    exact isComment_iff_of_keepsLength h

end Statement

/-! ## Lines passed over -/

/-- Line `i` of the source, counted from zero, is passed over as a comment. -/
def PassesOver (source : String) (i : Nat) : Prop :=
  ∃ line, (Text.lines source)[i]? = some line ∧ isComment line = true

theorem passesOver_decode_iff {bytes : ByteArray} {i : Nat} {raw : List UInt8}
    (h : (Text.rawLines bytes.toList)[i]? = some raw) :
    PassesOver (Text.Utf8.decode bytes) i ↔ isComment (Text.decodeLine raw) = true := by
  unfold PassesOver
  rw [Text.lines_decode, List.getElem?_map, h, Option.map_some]
  simp

section Emptied

variable {lines : List Line} {i : Nat} {line : Line} (hline : lines[i]? = some line)
  (hcomment : isComment line = true)

include hline hcomment

/-- A comment is read as an empty line is. -/
theorem Outline.ofLinesFrom_set_comment (n : Nat) (block : Block) :
    ofLinesFrom n block (lines.set i []) = ofLinesFrom n block lines := by
  induction lines generalizing i n block with
  | nil => rfl
  | cons first rest ih =>
    cases i with
    | zero =>
      cases hline
      rw [List.set_cons_zero, ofLinesFrom_cons_inert (.inr CallGraph.unrecognised_nil),
        ofLinesFrom_cons_inert (.inl hcomment)]
    | succ i =>
      rw [List.set_cons_succ, ofLinesFrom, ofLinesFrom]
      simp only [ih hline]

theorem Fields.ofLines_set_comment : ofLines (lines.set i []) = ofLines lines := by
  have hdeclarations : declarations (lines.set i []) = declarations lines := by
    induction lines generalizing i with
    | nil => rfl
    | cons first rest ih =>
      cases i with
      | zero =>
        cases hline
        rw [List.set_cons_zero, declarations_cons, declarations_cons, hcomment]
        rfl
      | succ i => rw [List.set_cons_succ, declarations_cons, declarations_cons, ih hline]
  exact congrArg Dict.ofList hdeclarations

end Emptied

theorem FileAnalysis.ofText_eq_of_emptied {bytes bytes' : ByteArray} {i : Nat}
    (h : PassesOver (Text.Utf8.decode bytes) i)
    (hraw : Text.rawLines bytes'.toList = (Text.rawLines bytes.toList).set i []) (c : Config)
    (path : String) :
    ofText c path (Text.Utf8.decode bytes') = ofText c path (Text.Utf8.decode bytes) := by
  obtain ⟨line, hline, hcomment⟩ := h
  have hlines : Text.lines (Text.Utf8.decode bytes') =
      (Text.lines (Text.Utf8.decode bytes)).set i [] := by
    rw [Text.lines_decode, Text.lines_decode, hraw, List.map_set, Text.decodeLine_eq_chars]
    rfl
  have houtline : Outline.ofSource (Text.Utf8.decode bytes') =
      Outline.ofSource (Text.Utf8.decode bytes) := by
    rw [Outline.ofSource, hlines, Outline.ofLinesFrom_set_comment hline hcomment, Outline.ofSource]
  have hfields : Fields.ofSource (Text.Utf8.decode bytes') =
      Fields.ofSource (Text.Utf8.decode bytes) := by
    rw [Fields.ofSource, hlines, Fields.ofLines_set_comment hline hcomment, Fields.ofSource]
  have hoptions : c.optionsFor (Text.Utf8.decode bytes') =
      c.optionsFor (Text.Utf8.decode bytes) := by
    rw [Config.optionsFor, hfields, Config.optionsFor]
  simp only [ofText, houtline, hoptions, hlines, List.length_set]

/-- **Comments are told by column seven of the decoded line.** A raw line is passed over if it has a
mark behind bytes that are six wide once decoded. That is its own column seven if decoding keeps the
length of the line, as it does in UTF-8, or of its first six bytes; and six bytes whose length it
does not keep are also those of a line whose column seven misleads. A line that is passed over has
no effect: the file is analysed as one with an empty line in its place. -/
theorem comments_told_by_decoded_columns {bytes : ByteArray} {i : Nat} {raw : List UInt8}
    (h : (Text.rawLines bytes.toList)[i]? = some raw) :
    (PassesOver (Text.Utf8.decode bytes) i ↔ ∃ front b back, raw = front ++ b :: back ∧
      MarksComment b ∧ (Text.Utf8.decode front.toByteArray).utf8ByteSize = 6) ∧
    (Text.KeepsLength raw ∨ Text.KeepsLength (raw.take 6) →
      (PassesOver (Text.Utf8.decode bytes) i ↔ MarkedInColumnSeven raw)) ∧
    (∀ text : String, raw = text.toUTF8.toList → Text.KeepsLength raw) ∧
    (∀ columns : List UInt8, columns.length = 6 → ¬ Text.KeepsLength columns →
      ∃ rest, ¬ (isComment (Text.decodeLine (columns ++ rest)) = true ↔
        MarkedInColumnSeven (columns ++ rest))) ∧
    (PassesOver (Text.Utf8.decode bytes) i → ∀ bytes' : ByteArray,
      Text.rawLines bytes'.toList = (Text.rawLines bytes.toList).set i [] → ∀ c path,
      FileAnalysis.ofText c path (Text.Utf8.decode bytes') =
        FileAnalysis.ofText c path (Text.Utf8.decode bytes)) := by
  rw [passesOver_decode_iff h]
  refine ⟨?_, ?_, ?_, ?_, ?_⟩
  · simp only [isComment_decodeLine_iff, Text.utf8ByteSize_decode]
  · intro hkeeps
    rcases hkeeps with hkeeps | hkeeps
    · exact isComment_iff_of_keepsLength hkeeps
    · exact isComment_iff_of_keepsLength_take hkeeps
  · intro text heq
    rw [heq]
    exact Text.keepsLength_utf8 text
  · intro columns hcolumns hwidth
    refine Classical.not_forall.1 fun hdecides => hwidth ?_
    exact (columnSeven_decides_iff hcolumns).1 hdecides
  · intro hcomment bytes' hraw c path
    exact FileAnalysis.ofText_eq_of_emptied ((passesOver_decode_iff h).2 hcomment) hraw c path

/-- A link block in which the line numbers of two lines begin with a byte that is not UTF-8. The
first of them has its mark in column seven, the second in column five. -/
def foreignLines : List (List UInt8) :=
  ["       PROGRAM-ID. P.".toUTF8.toList, "       1-A SECTION.".toUTF8.toList,
    "        EXEC CICS LINK".toUTF8.toList, 0xE9 :: "00040* PROGRAM('OLD')".toUTF8.toList,
    0xE9 :: "005* END-EXEC".toUTF8.toList, " PROGRAM('NEW')".toUTF8.toList,
    "END-EXEC".toUTF8.toList, "       1-99-FIM. EXIT.".toUTF8.toList]

/-- The bytes of a file with these raw lines, a line feed between each two. -/
def joined (raw : List (List UInt8)) : ByteArray := ([0x0A].intercalate raw).toByteArray

theorem rawLines_foreignLines : Text.rawLines (joined foreignLines).toList = foreignLines := by
  unfold joined
  rw [Text.Utf8.toList_toByteArray]
  decide +kernel

/-- The second of the two lines is passed over, behind four bytes that are six wide, and might as
well be empty. -/
theorem foreignLines_told_by_decoded_columns :
    (Text.rawLines (joined foreignLines).toList)[4]? =
      some (0xE9 :: "005* END-EXEC".toUTF8.toList) ∧
    PassesOver (Text.Utf8.decode (joined foreignLines)) 4 ∧
    ∀ c path, FileAnalysis.ofText c path (Text.Utf8.decode (joined (foreignLines.set 4 []))) =
      FileAnalysis.ofText c path (Text.Utf8.decode (joined foreignLines)) := by
  have hraw : (Text.rawLines (joined foreignLines).toList)[4]? =
      some (0xE9 :: "005* END-EXEC".toUTF8.toList) := by
    rw [rawLines_foreignLines]
    rfl
  have hset : Text.rawLines (joined (foreignLines.set 4 [])).toList =
      (Text.rawLines (joined foreignLines).toList).set 4 [] := by
    rw [rawLines_foreignLines]
    unfold joined
    rw [Text.Utf8.toList_toByteArray]
    decide +kernel
  obtain ⟨hpasses, -, -, -, hempty⟩ := comments_told_by_decoded_columns hraw
  have hover := hpasses.2 ⟨[0xE9, 0x30, 0x30, 0x35], 0x2A, " END-EXEC".toUTF8.toList,
    by decide +kernel, .inl rfl, by decide +kernel⟩
  exact ⟨hraw, hover, hempty hover _ hset⟩

theorem outline_foreignLines : Outline.ofSource (Text.Utf8.decode (joined foreignLines)) =
    ⟨[(1, .program "P"), (2, .opens ⟨"P", ⟨"1", "A"⟩⟩), (4, .links ⟨"P", ⟨"1", "A"⟩⟩ "OLD"),
      (6, .links ⟨"P", ⟨"1", "A"⟩⟩ "NEW"), (8, .closes ⟨"P", ⟨"1", "A"⟩⟩ ∅)], none⟩ := by
  have hlines : foreignLines.map Text.decodeLine =
      ["       PROGRAM-ID. P.".toList, "       1-A SECTION.".toList,
        "        EXEC CICS LINK".toList, "\uFFFD00040* PROGRAM('OLD')".toList,
        "\uFFFD005* END-EXEC".toList, " PROGRAM('NEW')".toList, "END-EXEC".toList,
        "       1-99-FIM. EXIT.".toList] := by decide +kernel
  rw [Outline.ofSource, Text.lines_decode, rawLines_foreignLines, hlines]
  decide +kernel

/-- **Column seven of a raw line does not tell comments.** Here the line that has its mark there is
not passed over, and its PROGRAM clause is linked; the line that has none is, and its END-EXEC ends
nothing, so that the next clause is linked as well. -/
theorem raw_column_seven_misleads :
    Text.rawLines (joined foreignLines).toList = foreignLines ∧
    (∃ raw, foreignLines[3]? = some raw ∧ MarkedInColumnSeven raw) ∧
    ¬ PassesOver (Text.Utf8.decode (joined foreignLines)) 3 ∧
    (∃ raw, foreignLines[4]? = some raw ∧ ¬ MarkedInColumnSeven raw) ∧
    PassesOver (Text.Utf8.decode (joined foreignLines)) 4 ∧
    ∀ e ∈ [(4, .links ⟨"P", ⟨"1", "A"⟩⟩ "OLD"), (6, .links ⟨"P", ⟨"1", "A"⟩⟩ "NEW")],
      e ∈ (Outline.ofSource (Text.Utf8.decode (joined foreignLines))).events := by
  have hmarked : foreignLines[3]? = some (0xE9 :: "00040* PROGRAM('OLD')".toUTF8.toList) := rfl
  have hunmarked : foreignLines[4]? = some (0xE9 :: "005* END-EXEC".toUTF8.toList) := rfl
  have hletter : (0xE9 :: "005* END-EXEC".toUTF8.toList)[6]? = some 0x45 := by decide +kernel
  refine ⟨rawLines_foreignLines, ⟨_, hmarked, 0x2A, by decide +kernel, .inl rfl⟩, ?_,
    ⟨_, hunmarked, ?_⟩, ?_, ?_⟩
  · rw [← rawLines_foreignLines] at hmarked
    rw [passesOver_decode_iff hmarked]
    decide +kernel
  · intro h
    obtain ⟨b, hb, hmark⟩ := h
    cases hletter.symm.trans hb
    rcases hmark with hmark | hmark <;> cases hmark
  · rw [← rawLines_foreignLines] at hunmarked
    rw [passesOver_decode_iff hunmarked]
    decide +kernel
  · rw [outline_foreignLines]
    simp

end CobolCalls
