import CobolCalls.Proofs.Decoding
import CobolCalls.Proofs.ErrorLines
import CobolCalls.Proofs.Failing
import CobolCalls.Proofs.Statistics

/-
  The lines of a file are those of its bytes. A file is decoded as a whole and its text is cut into
  lines; here the bytes are cut, and each raw line is decoded on its own. Both give the same lines,
  whatever is ill-formed in the bytes: a sequence that is open at the end of a line is closed by the
  line feed, and no line feed or carriage return ever comes from other bytes.

  So the number of lines and the line numbers of errors are those of the raw lines, and nothing on
  another line can change how a line is read.
-/

namespace CobolCalls

open Statement

/-! ## Raw lines -/

namespace Text

/-- A line without the carriage return right before its line feed. -/
def dropReturn (piece : List UInt8) : List UInt8 :=
  if piece.getLast? = some 0x0D then piece.dropLast else piece

/-- The raw lines of bytes that consist of these pieces, a line feed between each two. Behind the
last line feed there is a line only if there is a byte. -/
def rawLinesOf : List (List UInt8) → List (List UInt8)
  | [] => []
  | [last] => if last.isEmpty then [] else [last]
  | piece :: next :: rest => dropReturn piece :: rawLinesOf (next :: rest)

def rawLines (bytes : List UInt8) : List (List UInt8) := rawLinesOf (bytes.splitOn 0x0A)

/-- A raw line as it would be read if it were the whole file. -/
def decodeLine (raw : List UInt8) : Line := (Utf8.decode raw.toByteArray).toList

theorem decodeLine_eq_chars : decodeLine = Utf8.chars := by
  funext raw
  exact Utf8.toList_decode_toByteArray raw

open Utf8

theorem chars_eq_nil_iff {bytes : List UInt8} : chars bytes = [] ↔ bytes = [] := by
  constructor
  · intro h
    have hlength := length_le_width_chars bytes
    rw [h] at hlength
    exact List.eq_nil_of_length_eq_zero (Nat.le_zero.1 hlength)
  · intro h
    rw [h]
    rfl

theorem chars_concat_return (front : List UInt8) :
    chars (front ++ [0x0D]) = chars front ++ ['\r'] :=
  chars_append_ascii front (by decide) []

theorem lineFeed_not_mem_chars {bytes : List UInt8} (h : 0x0A ∉ bytes) : '\n' ∉ chars bytes := by
  intro hmem
  obtain ⟨b, hb, heq⟩ := ascii_of_mem_chars hmem (by decide)
  have hfeed : b = 0x0A := UInt8.toNat_inj.1 heq
  exact h (hfeed ▸ hb)

/-- The line feeds of the text are those of the bytes, and between them the bytes are decoded on
their own. -/
theorem split_chars (bytes : List UInt8) :
    split '\n' (chars bytes) = (bytes.splitOn 0x0A).map chars := by
  induction hlength : bytes.length using Nat.strongRecOn generalizing bytes with
  | _ length ih =>
    by_cases h : 0x0A ∈ bytes
    · obtain ⟨front, back, rfl, hfront⟩ := List.eq_append_cons_of_mem h
      have hshorter : back.length < length := by
        rw [← hlength, List.length_append, List.length_cons]
        omega
      have hpiece : ∀ b ∈ front, (b == 0x0A) = false := by
        intro b hb
        exact beq_eq_false_iff_ne.2 fun heq => hfront (heq ▸ hb)
      have hbytes : (front ++ 0x0A :: back).splitOn 0x0A = front :: back.splitOn 0x0A :=
        List.splitOnP_append_cons_of_forall_mem hpiece 0x0A rfl back
      have htext : chars (front ++ 0x0A :: back) = chars front ++ '\n' :: chars back :=
        chars_append_ascii front (by decide) back
      rw [htext, hbytes, split_append_separator (lineFeed_not_mem_chars hfront),
        ih _ hshorter back rfl, List.map_cons]
    · rw [split_of_not_mem (lineFeed_not_mem_chars h), List.splitOn_eq_singleton h]
      rfl

theorem closeLine_chars (piece : List UInt8) :
    closeLine (chars piece).reverse = chars (dropReturn piece) := by
  unfold dropReturn
  split
  next hlast =>
    obtain ⟨front, rfl⟩ := List.getLast?_eq_some_iff.1 hlast
    rw [chars_concat_return, List.reverse_concat, closeLine, List.reverse_reverse,
      List.dropLast_concat]
  next hlast =>
    have hcases := closeLine_cases (chars piece).reverse
    rw [List.reverse_reverse] at hcases
    rcases hcases with heq | heq
    · exact heq.symm
    · -- the carriage return would be the last byte of the piece
      obtain ⟨front, b, back, rfl, hb, -, hback⟩ := exists_of_chars_eq (by decide) heq
      have hreturn : b = 0x0D := UInt8.toNat_inj.1 hb
      rw [chars_eq_nil_iff.1 hback, hreturn] at hlast
      exact absurd List.getLast?_concat hlast

theorem linesOf_map_chars (pieces : List (List UInt8)) :
    linesOf (pieces.map chars) = (rawLinesOf pieces).map chars := by
  induction pieces with
  | nil => rfl
  | cons piece rest ih =>
    cases rest with
    | nil =>
      by_cases hempty : piece = []
      · subst hempty
        rfl
      · have hchars : chars piece ≠ [] := fun h => hempty (chars_eq_nil_iff.1 h)
        simp [linesOf, rawLinesOf, hempty, hchars]
    | cons next rest =>
      rw [List.map_cons] at ih ⊢
      rw [List.map_cons, linesOf, ih, closeLine_chars]
      rfl

/-- Decoding the whole and cutting it into lines is cutting the bytes and decoding each line. -/
theorem lines_decode (bytes : ByteArray) :
    lines (decode bytes) = (rawLines bytes.toList).map decodeLine := by
  rw [lines_eq_linesOf, toList_decode, split_chars, linesOf_map_chars, decodeLine_eq_chars]
  rfl

/-- Bytes of ASCII stand for themselves. -/
theorem decodeLine_of_ascii {raw : List UInt8} (h : ∀ b ∈ raw, b.toNat < 0x80) :
    decodeLine raw = raw.map fun b => Char.ofNat b.toNat := by
  rw [decodeLine_eq_chars]
  induction raw with
  | nil => rfl
  | cons b rest ih =>
    obtain ⟨hb, hrest⟩ := List.forall_mem_cons.1 h
    have hfirst : chars (b :: rest) = Char.ofNat b.toNat :: chars rest :=
      chars_append_ascii [] hb rest
    rw [hfirst, ih hrest, List.map_cons]

end Text

/-! ## What is reported of a file -/

open Text in
/-- The numbers of the error are those of raw lines, counted from one, that say what they are blamed
for. -/
def SourceError.PointsInto (raw : List (List UInt8)) : SourceError → Prop
  | mismatchedEnd b e expected found =>
    b < e ∧
    (∃ header name, (header, b) ∈ raw.zipIdx 1 ∧ sectionBegin (decodeLine header) = some name ∧
      name.number = expected) ∧
    ∃ exit, (exit, e) ∈ raw.zipIdx 1 ∧ sectionExit (decodeLine exit) = some found
  | beforeProgram k id =>
    ∃ header name, (header, k) ∈ raw.zipIdx 1 ∧ sectionBegin (decodeLine header) = some name ∧
      id = name.label none
  | unterminatedSection b id =>
    ∃ header name program, (header, b) ∈ raw.zipIdx 1 ∧
      sectionBegin (decodeLine header) = some name ∧ id = name.label program
  | unterminatedLink b =>
    ∃ link, (link, b) ∈ raw.zipIdx 1 ∧ isLinkBegin (decodeLine link) = true

theorem exists_raw_of_mem_numberedCode {bytes : ByteArray} {line : Line} {n : Nat}
    (h : (line, n) ∈ numberedCode (Text.Utf8.decode bytes)) :
    ∃ raw, (raw, n) ∈ (Text.rawLines bytes.toList).zipIdx 1 ∧ Text.decodeLine raw = line := by
  have hmem := List.mem_of_mem_filter h
  rw [Text.lines_decode, List.zipIdx_map] at hmem
  obtain ⟨⟨raw, m⟩, hraw, heq⟩ := List.mem_map.1 hmem
  obtain ⟨hline, hnumber⟩ := Prod.mk.inj heq
  cases hnumber
  exact ⟨raw, hraw, hline⟩

theorem Fault.pointsInto_error {bytes : ByteArray} {fault : Fault} (o : Options)
    (h : (Outline.ofSource (Text.Utf8.decode bytes)).fault = some fault) :
    (fault.error o).PointsInto (Text.rawLines bytes.toList) := by
  cases fault with
  | mismatchedEnd b e expected found =>
    obtain ⟨⟨-, hlt, -⟩, ⟨header, name, hheader, hbegin, hnumber⟩, ⟨exit, hexit, hfound⟩, -⟩ :=
      CallGraph.mismatchedEnd_lines h
    obtain ⟨raw, hraw, rfl⟩ := exists_raw_of_mem_numberedCode hheader
    obtain ⟨raw', hraw', rfl⟩ := exists_raw_of_mem_numberedCode hexit
    exact ⟨hlt, ⟨raw, name, hraw, hbegin, hnumber⟩, raw', hraw', hfound⟩
  | beforeProgram k name =>
    obtain ⟨⟨header, hheader, hbegin⟩, -⟩ := CallGraph.fault_beforeProgram_iff.1 h
    obtain ⟨raw, hraw, rfl⟩ := exists_raw_of_mem_numberedCode hheader
    exact ⟨raw, name, hraw, hbegin, rfl⟩
  | unterminatedSection b p =>
    obtain ⟨⟨header, hheader, hbegin⟩, -⟩ := CallGraph.unterminatedSection_lines h
    obtain ⟨raw, hraw, rfl⟩ := exists_raw_of_mem_numberedCode hheader
    exact ⟨raw, p.name, _, hraw, hbegin, rfl⟩
  | unterminatedLink b =>
    obtain ⟨⟨link, hlink, hbegin⟩, -⟩ := CallGraph.unterminatedLink_lines h
    obtain ⟨raw, hraw, rfl⟩ := exists_raw_of_mem_numberedCode hlink
    exact ⟨raw, hraw, hbegin⟩

namespace FileAnalysis

/-- What may be reported of a file that can be opened and has these raw lines: their number, or an
error that points at some of them. -/
def Reported (f : SourceFile) (raw : List (List UInt8)) : Except AnalysisError FileAnalysis → Prop
  | .ok a => a.summary.path = f.path ∧ a.summary.lines = raw.length
  | .error (.source path e) => path = f.path ∧ e.PointsInto raw
  | .error _ => False

theorem reported_ofFile (c : Config) {t : FileTree} {f : SourceFile} {bytes : ByteArray}
    (h : f.content t = .ok bytes) :
    Reported f (Text.rawLines bytes.toList) (ofFile c t f).value := by
  cases hvalue : (ofFile c t f).value with
  | ok a =>
    obtain ⟨content, source, g, hcontent, rfl, -, hsummary⟩ := Yields.describes hvalue
    cases h.symm.trans hcontent
    rw [Reported, hsummary, Text.lines_decode, List.length_map]
    exact ⟨rfl, rfl⟩
  | error e =>
    obtain ⟨cause, hcause, -⟩ | ⟨content, cause, hcontent, hcause, rfl⟩ := ofFile_eq_error hvalue
    · cases h.symm.trans hcause
    · cases h.symm.trans hcontent
      obtain ⟨fault, hfault, rfl⟩ := CallGraph.exists_fault_of_error hcause
      exact ⟨rfl, fault.pointsInto_error _ hfault⟩

/-- **Decoding is local to lines.** Whatever bytes a file has, the lines of its text are its raw
lines, each decoded on its own, and from these its outline and its fields are read. What is reported
of the file are the number of its raw lines or the numbers of some. A raw line in ASCII is read as
it stands, whatever the other lines are. -/
theorem ofFile_reads_raw_lines (c : Config) {t : FileTree} {f : SourceFile} {bytes : ByteArray}
    (h : f.content t = .ok bytes) :
    Text.lines (Text.Utf8.decode bytes) = (Text.rawLines bytes.toList).map Text.decodeLine ∧
    ofFile c t f = ofText c f.path (Text.Utf8.decode bytes) ∧
    Outline.ofSource (Text.Utf8.decode bytes) = Outline.ofLinesFrom 1 (.outside none)
      ((Text.rawLines bytes.toList).map Text.decodeLine) ∧
    Fields.ofSource (Text.Utf8.decode bytes) =
      Fields.ofLines ((Text.rawLines bytes.toList).map Text.decodeLine) ∧
    Reported f (Text.rawLines bytes.toList) (ofFile c t f).value ∧
    ∀ (i : Nat) (raw : List UInt8), (Text.rawLines bytes.toList)[i]? = some raw →
      (∀ b ∈ raw, b.toNat < 0x80) →
      (Text.lines (Text.Utf8.decode bytes))[i]? = some (raw.map fun b => Char.ofNat b.toNat) := by
  have hlines := Text.lines_decode bytes
  refine ⟨hlines, ?_, ?_, ?_, reported_ofFile c h, ?_⟩
  · rw [ofFile, h]
  · rw [Outline.ofSource, hlines]
  · rw [Fields.ofSource, hlines]
  · intro i raw hraw hascii
    rw [hlines, List.getElem?_map, hraw, Option.map_some, Text.decodeLine_of_ascii hascii]

/-- A heading behind a line that breaks off inside a sequence, with a carriage return. -/
def brokenBytes : List UInt8 :=
  [0xE2, 0x82, 0x0D, 0x0A] ++ "       1-A SECTION.".toUTF8.toList

def brokenTree : FileTree where
  items := Std.TreeMap.empty.insert ["A"] (.file brokenBytes.toByteArray)
  here := []

/-- The open sequence swallows neither the end of its line nor the heading, whose number is two. -/
theorem brokenTree_reads_raw_lines :
    SourceFile.content brokenTree ⟨"A", ["A"], none⟩ = .ok brokenBytes.toByteArray ∧
    Text.rawLines brokenBytes = [[0xE2, 0x82], "       1-A SECTION.".toUTF8.toList] ∧
    Text.lines (Text.Utf8.decode brokenBytes.toByteArray) =
      [[Text.Utf8.replacement], "       1-A SECTION.".toList] ∧
    (ofFile {} brokenTree ⟨"A", ["A"], none⟩).value =
      .error (.source "A" (.beforeProgram 2 "1-A")) ∧
    SourceError.PointsInto (Text.rawLines brokenBytes) (.beforeProgram 2 "1-A") := by
  have hcontent : SourceFile.content brokenTree ⟨"A", ["A"], none⟩ =
      .ok brokenBytes.toByteArray := rfl
  have hraw : Text.rawLines brokenBytes =
      [[0xE2, 0x82], "       1-A SECTION.".toUTF8.toList] := by decide +kernel
  have hfault : (Outline.ofSource (Text.Utf8.decode brokenBytes.toByteArray)).fault =
      some (.beforeProgram 2 ⟨"1", "A"⟩) := by decide +kernel
  have hvalue : (ofFile {} brokenTree ⟨"A", ["A"], none⟩).value =
      .error (.source "A" (.beforeProgram 2 "1-A")) := by
    rw [ofFile, hcontent]
    simp only [ofText, CallGraph.ofOutline, hfault]
    rfl
  obtain ⟨hlines, -, -, -, hreported, -⟩ :=
    ofFile_reads_raw_lines {} hcontent
  rw [Text.Utf8.toList_toByteArray] at hlines hreported
  rw [hvalue] at hreported
  refine ⟨hcontent, hraw, ?_, hvalue, hreported.2⟩
  rw [hlines, hraw]
  decide +kernel

end FileAnalysis
end CobolCalls
