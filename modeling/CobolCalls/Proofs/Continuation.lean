import CobolCalls.Proofs.Closure
import CobolCalls.Proofs.Concatenation
import CobolCalls.Proofs.InertLines
import CobolCalls.Proofs.Relabelling
import CobolCalls.Proofs.Shapes

/-
  Which sources can still be completed by more lines. A source that ends inside a section, or
  inside a link block of one, lacks only the lines that close them; every other error stands at a
  line, and no line after it can undo it.

  The reader is at the end of the source inside some block. If that is a section, it was the last
  one to be opened (`Reads.lastOpened`), and the exit line with its number is recognised because
  the number was captured from a heading, so that it consists of digits (`sectionExit_exitLine`).
  A link block needs a line with END-EXEC first. An error that stands at line `k` was decided by
  the first `k` lines: the reader has stopped there, and any text with these lines stops there
  too.
-/

namespace CobolCalls

open Statement

/-! ## Lines that close -/

/-- The line that closes a section with this number. -/
def exitLine (number : String) : String := "       " ++ number ++ "-99-FIM. EXIT."

/-- A line that closes a link block. -/
def endExecLine : String := "           END-EXEC"

namespace Statement

theorem toList_exitLine (number : String) :
    (exitLine number).toList =
      "       ".toList ++ (number.toList ++ '-' :: "99-FIM. EXIT.".toList) := by
  unfold exitLine
  rw [String.toList_append, String.toList_append, List.append_assoc]
  rfl

theorem sectionExit_exitLine {number : String} (h : Over isDigit number) :
    sectionExit (exitLine number).toList = some number := by
  refine sectionExit_eq_some_iff.2 ⟨1, [], Nat.one_pos, h, ?_⟩
  rw [toList_exitLine, List.append_nil, List.append_assoc, List.append_assoc, List.append_assoc]
  rfl

theorem isComment_exitLine (number : String) : isComment (exitLine number).toList = false := by
  rw [toList_exitLine]
  rfl

theorem endExecLine_closes : isComment endExecLine.toList = false ∧
    linkProgram endExecLine.toList = none ∧ hasEndExec endExecLine.toList = true := by
  decide +kernel

end Statement

namespace Text

theorem lines_of_not_mem {text : String} (hne : text ≠ "") (h : '\n' ∉ text.toList) :
    lines text = [text.toList] := by
  have hempty : text.toList.isEmpty = false := by
    rw [List.isEmpty_eq_false_iff, ne_eq, String.toList_eq_nil_iff]
    exact hne
  rw [lines_eq_linesOf, split_of_not_mem h]
  simp [linesOf, hempty]

theorem lines_exitLine {number : String} (h : Over isDigit number) :
    lines (exitLine number) = [(exitLine number).toList] := by
  apply lines_of_not_mem
  · intro hempty
    have hchars := toList_exitLine number
    rw [hempty] at hchars
    cases hchars
  · intro hfeed
    rw [toList_exitLine] at hfeed
    rcases List.mem_append.1 hfeed with hfeed | hfeed
    · exact absurd hfeed (by decide)
    · rcases List.mem_append.1 hfeed with hfeed | hfeed
      · exact absurd (h.chars '\n' hfeed) (by decide)
      · exact absurd hfeed (by decide)

theorem lines_endExecLine (more : String) :
    lines (endExecLine ++ "\n" ++ more) = endExecLine.toList :: lines more := by
  rw [lines_join]
  rfl

end Text

/-! ## The section that is open -/

/-- The last section that the source opens. -/
def LastOpened (source : String) (p : Procedure) : Prop :=
  ∃ before n rest, (Outline.ofSource source).events = before ++ (n, .opens p) :: rest ∧
    ∀ e ∈ rest, ∀ q, e.2 ≠ .opens q

theorem Event.ofPlain_ne_opens {p q : Procedure} {line : Line} :
    ofPlain p line ≠ some (.opens q) := by
  intro h
  obtain ⟨_, -, he⟩ | ⟨_, -, he⟩ | ⟨_, -, he⟩ := ofPlain_cases h <;> cases he

/-- A section that is open after a line is opened by it, or it was open before and none is
opened. -/
theorem Block.step_opens {block next : Block} {n : Nat} {line : Line} {event : Option Event}
    {p : Procedure} (h : block.step n line = .ok (event, next)) (hp : next.procedure? = some p) :
    event = some (.opens p) ∨ block.procedure? = some p ∧ ∀ q, event ≠ some (.opens q) := by
  have hlink {s : OpenSection} {k : Nat} (hstep : stepLink line s k = (event, next)) :
      some s.procedure = some p ∧ ∀ q, event ≠ some (.opens q) := by
    have hopen := stepLink_procedure? line s k
    rw [hstep] at hopen
    refine ⟨hopen.symm.trans hp, fun q hq => ?_⟩
    obtain ⟨target, -, he⟩ := Option.map_eq_some_iff.1 ((congrArg Prod.fst hstep).trans hq)
    cases he
  cases block with
  | outside program =>
    obtain ⟨-, -, rfl⟩ | ⟨name, q, -, -, rfl, rfl⟩ := stepOutside_cases h
    · cases hp
    · cases hp
      exact .inl rfl
  | inSection s =>
    obtain ⟨-, -, rfl⟩ | ⟨-, hstep⟩ | ⟨-, -, rfl, rfl⟩ := stepSection_cases h
    · cases hp
    · exact .inr (hlink hstep)
    · have hnote : some (s.note line).procedure = some p := hp
      rw [s.note_procedure] at hnote
      exact .inr ⟨hnote, fun q => Event.ofPlain_ne_opens⟩
  | inLink s beginLine => exact .inr (hlink (Except.ok.inj h))

theorem Reads.lastOpened {block after : Block} {code : List (Line × Nat)}
    {events : List (Nat × Event)} {p : Procedure} (h : Reads block code events after)
    (hp : after.procedure? = some p) :
    (∃ before n rest, events = before ++ (n, .opens p) :: rest ∧
        ∀ e ∈ rest, ∀ q, e.2 ≠ .opens q) ∨
      block.procedure? = some p ∧ ∀ e ∈ events, ∀ q, e.2 ≠ .opens q := by
  induction h with
  | done => exact .inr ⟨hp, by simp⟩
  | @line block next after line n event rest events hstep _ ih =>
    rcases ih hp with ⟨before, k, more, rfl, hmore⟩ | ⟨hnext, hnone⟩
    · exact .inl ⟨_ ++ before, k, more, (List.append_assoc ..).symm, hmore⟩
    · rcases Block.step_opens hstep hnext with rfl | ⟨hblock, hevent⟩
      · exact .inl ⟨[], n, events, rfl, hnone⟩
      · refine .inr ⟨hblock, fun e he q hq => ?_⟩
        rcases List.mem_append.1 he with he | he
        · obtain ⟨e', he', rfl⟩ := Option.map_eq_some_iff.1 (Option.mem_toList.1 he)
          exact hevent q (he'.trans (congrArg some hq))
        · exact hnone e he q hq

/-- The number of a section that was opened outside is one that an exit can have. -/
theorem Reads.over_number {program : Option String} {after : Block} {code : List (Line × Nat)}
    {events : List (Nat × Event)} {s : OpenSection} (h : Reads (.outside program) code events after)
    (hs : after.open? = some s) : Over isDigit s.procedure.name.number := by
  have hheading : after.heading? = some (s.procedure, s.beginLine) := by
    rw [Block.heading?, hs]
    rfl
  rcases h.heading hheading with hnone | ⟨_, line, _, _, -, hbegin, -⟩
  · cases hnone
  · exact (captures_sectionBegin line _ hbegin).number

/-! ## Completing a source -/

namespace Block

/-- The text that closes all that is open inside a block. -/
def closing : Block → String
  | outside _ => ""
  | inSection s => exitLine s.procedure.name.number
  | inLink s _ => endExecLine ++ "\n" ++ exitLine s.procedure.name.number

theorem reads_exitLine {s : OpenSection} (h : Over isDigit s.procedure.name.number) (n : Nat) :
    ∃ events, Reads (inSection s) (codeFrom n [(exitLine s.procedure.name.number).toList]) events
      (outside (some s.procedure.program)) := by
  rw [codeFrom_cons_of_code (isComment_exitLine _)]
  exact ⟨_, Reads.single (stepSection_exit (sectionExit_exitLine h) n)⟩

theorem reads_closing {block : Block}
    (h : ∀ s, block.open? = some s → Over isDigit s.procedure.name.number) (n : Nat) :
    ∃ events program, Reads block (codeFrom n (Text.lines block.closing)) events
      (outside program) := by
  cases block with
  | outside program => exact ⟨[], program, .done⟩
  | inSection s =>
    have hnumber := h s rfl
    obtain ⟨events, hreads⟩ := reads_exitLine hnumber n
    refine ⟨events, some s.procedure.program, ?_⟩
    rw [closing, Text.lines_exitLine hnumber]
    exact hreads
  | inLink s beginLine =>
    have hnumber := h s rfl
    obtain ⟨hcode, hprogram, hend⟩ := endExecLine_closes
    have hstep : (inLink s beginLine).step n endExecLine.toList = .ok (none, inSection s) := by
      simp [step, stepLink, hprogram, hend]
    obtain ⟨events, hreads⟩ := reads_exitLine hnumber (n + 1)
    refine ⟨events, some s.procedure.program, ?_⟩
    rw [closing, Text.lines_endExecLine, Text.lines_exitLine hnumber, codeFrom_cons_of_code hcode]
    exact .line hstep hreads

end Block

namespace Outline

/-- What the reader meets when lines follow the source: the line feed closes the last line. -/
def fedCode (source : String) : List (Line × Nat) :=
  codeFrom 1 (Text.linesAfter [] (source.toList ++ ['\n']))

theorem code_more (source more : String) :
    ∃ n, codeFrom 1 (Text.lines (source ++ "\n" ++ more)) =
      fedCode source ++ codeFrom n (Text.lines more) := by
  rw [Text.lines_join, codeFrom_append]
  exact ⟨_, rfl⟩

theorem ofSource_of_reads {source : String} {events : List (Nat × Event)} {after : Block}
    (h : Reads (.outside none) (fedCode source) events after) :
    ofSource source = ⟨events, after.fault?⟩ := by
  rw [← ofLinesFrom_concat_feed]
  exact ofLinesFrom_of_reads h

/-- What closes the block in which a source ends completes the source. -/
theorem fault_closing {source : String} {events : List (Nat × Event)} {after : Block}
    (h : Reads (.outside none) (fedCode source) events after) :
    (ofSource (source ++ "\n" ++ after.closing)).fault = none := by
  obtain ⟨n, hcode⟩ := code_more source after.closing
  obtain ⟨events', program, hclosing⟩ := Block.reads_closing (fun _ hs => h.over_number hs) n
  rw [ofSource, fault_eq_none_iff]
  refine ⟨events ++ events', program, ?_⟩
  rw [hcode]
  exact h.append hclosing

end Outline

/-! ## Faults of a line -/

/-- The line that is the fault. A fault of the whole source has none. -/
def Fault.line? : Fault → Option Nat
  | mismatchedEnd _ endLine _ _ => some endLine
  | beforeProgram line _ => some line
  | unterminatedSection _ _ => none
  | unterminatedLink _ => none

namespace Block

theorem line?_of_step {block : Block} {n : Nat} {line : Line} {fault : Fault}
    (h : block.step n line = .error fault) : fault.line? = some n := by
  obtain ⟨_, -, -, rfl⟩ | ⟨_, _, -, -, -, rfl⟩ := step_error_cases h <;> rfl

theorem line?_of_fault? {block : Block} {fault : Fault} (h : block.fault? = some fault) :
    fault.line? = none := by
  cases block <;> cases h <;> rfl

end Block

namespace Outline

/-- The lines up to the fault decide all that is read. -/
theorem ofLinesFrom_of_take {lines lines' : List Line} {fault : Fault} {k : Nat}
    (hfault : (ofLinesFrom 1 (.outside none) lines).fault = some fault)
    (hline : fault.line? = some k) (hk : k ≤ lines.length → lines'.take k = lines.take k) :
    k ≤ lines.length ∧
      ofLinesFrom 1 (.outside none) lines' = ofLinesFrom 1 (.outside none) lines := by
  rcases reads_or_stops (.outside none) (codeFrom 1 lines) with
    ⟨events, after, hreads⟩ | ⟨before, line, n, rest, events, middle, f, hcode, hreads, hstep⟩
  · -- at the end of the lines only open blocks are a fault
    rw [ofLinesFrom_of_reads hreads] at hfault
    rw [Block.line?_of_fault? hfault] at hline
    cases hline
  · have hlines := ofLinesFrom_of_stops hcode hreads hstep
    rw [hlines] at hfault
    cases hfault
    obtain rfl : n = k := Option.some.inj ((Block.line?_of_step hstep).symm.trans hline)
    have hmem : (line, n) ∈ codeFrom 1 lines := by
      rw [hcode]
      exact List.mem_append_right before List.mem_cons_self
    have hcomment : isComment line = false := by simpa using (List.mem_filter.1 hmem).2
    obtain ⟨pre, post, rfl, rfl, rfl⟩ := exists_lines_of_codeFrom hcode
    have hlength : 1 + pre.length ≤ (pre ++ line :: post).length := by
      rw [List.length_append, List.length_cons]
      omega
    have htake : (pre ++ line :: post).take (1 + pre.length) = pre ++ [line] := by
      rw [Nat.add_comm, List.take_length_add_append]
      rfl
    have hsplit : lines' = pre ++ line :: lines'.drop (1 + pre.length) := by
      have hparts := List.take_append_drop (1 + pre.length) lines'
      rw [hk hlength, htake, List.append_assoc, List.singleton_append] at hparts
      exact hparts.symm
    have hcode' : codeFrom 1 lines' =
        codeFrom 1 pre ++ (line, 1 + pre.length) ::
          codeFrom (1 + pre.length + 1) (lines'.drop (1 + pre.length)) := by
      rw [hsplit, codeFrom_append, codeFrom_cons_of_code hcomment, ← hsplit]
    exact ⟨hlength, (ofLinesFrom_of_stops hcode' hreads hstep).trans hlines.symm⟩

theorem ofSource_of_take {source other : String} {fault : Fault} {k : Nat}
    (hfault : (ofSource source).fault = some fault) (hline : fault.line? = some k)
    (hk : (Text.lines other).take k = (Text.lines source).take k) :
    ofSource other = ofSource source :=
  (ofLinesFrom_of_take hfault hline fun _ => hk).2

/-- No line that follows undoes the fault of a line. -/
theorem ofSource_more {source : String} {fault : Fault} {k : Nat}
    (hfault : (ofSource source).fault = some fault) (hline : fault.line? = some k)
    (more : String) : ofSource (source ++ "\n" ++ more) = ofSource source := by
  rw [← ofLinesFrom_concat_feed source] at hfault ⊢
  rw [ofSource, Text.lines_join]
  refine (ofLinesFrom_of_take hfault hline fun hk => ?_).2
  exact List.take_append_of_le_length hk

end Outline

/-! ## Viable sources -/

namespace CallGraph

theorem ofSource_eq_error {o : Options} {source : String} {fault : Fault}
    (h : (Outline.ofSource source).fault = some fault) :
    ofSource o source = .error (fault.error o) := by
  unfold ofSource ofOutline
  rw [h]

/-- What makes an error one of a line. -/
theorem line?_of_error {o : Options} {fault : Fault}
    (h : (∃ b n x y, fault.error o = .mismatchedEnd b n x y) ∨
      ∃ n id, fault.error o = .beforeProgram n id) :
    fault.line? = some (fault.error o).line := by
  cases fault with
  | mismatchedEnd | beforeProgram => rfl
  | unterminatedSection | unterminatedLink =>
    rcases h with ⟨_, _, _, _, h⟩ | ⟨_, _, h⟩ <;> cases h

/-- A source ends inside a block, or it has a fault at a line. -/
theorem exists_reads_or_line (source : String) :
    (∃ events after, Reads (.outside none) (Outline.fedCode source) events after) ∨
      ∃ fault k, (Outline.ofSource source).fault = some fault ∧ fault.line? = some k := by
  rcases reads_or_stops (.outside none) (Outline.fedCode source) with
    h | ⟨before, line, n, rest, events, middle, fault, hcode, hreads, hstep⟩
  · exact .inl h
  · have houtline := Outline.ofLinesFrom_of_stops hcode hreads hstep
    rw [Outline.ofLinesFrom_concat_feed] at houtline
    exact .inr ⟨fault, n, congrArg Outline.fault houtline, Block.line?_of_step hstep⟩

/-- What an error of an open block says of the block. -/
theorem exists_closing {source : String} {fault : Fault}
    (hfault : (Outline.ofSource source).fault = some fault) (hline : fault.line? = none) :
    ∃ after : Block, after.fault? = some fault ∧
      (∀ s, after.open? = some s → LastOpened source s.procedure) ∧
      (Outline.ofSource (source ++ "\n" ++ after.closing)).fault = none := by
  rcases exists_reads_or_line source with ⟨events, after, hreads⟩ | ⟨fault', k, hfault', hline'⟩
  · have houtline := Outline.ofSource_of_reads hreads
    rw [houtline] at hfault
    refine ⟨after, hfault, fun s hs => ?_, Outline.fault_closing hreads⟩
    have hopen : after.procedure? = some s.procedure := by
      rw [Block.procedure?, hs]
      rfl
    unfold LastOpened
    rw [houtline]
    rcases hreads.lastOpened hopen with h | ⟨hnone, -⟩
    · exact h
    · cases hnone
  · obtain rfl := Option.some.inj (hfault.symm.trans hfault')
    rw [hline] at hline'
    cases hline'

theorem exists_of_unterminatedSection {o : Options} {source id : String} {n : Nat}
    (h : ofSource o source = .error (.unterminatedSection n id)) :
    ∃ p, LastOpened source p ∧ id = o.label p ∧
      ∃ g, ofSource o (source ++ "\n" ++ exitLine p.name.number) = .ok g := by
  obtain ⟨fault, hfault, herror⟩ := exists_fault_of_error h
  cases fault with
  | unterminatedSection k p =>
    obtain ⟨after, hafter, hlast, hclosed⟩ := exists_closing hfault rfl
    cases after with
    | inSection s =>
      cases hafter
      cases herror
      exact ⟨s.procedure, hlast s rfl, rfl, exists_ofSource_eq_ok o hclosed⟩
    | outside program => cases hafter
    | inLink s beginLine => cases hafter
  | mismatchedEnd | beforeProgram | unterminatedLink => cases herror

theorem exists_of_unterminatedLink {o : Options} {source : String} {n : Nat}
    (h : ofSource o source = .error (.unterminatedLink n)) :
    ∃ p, LastOpened source p ∧
      ∃ g, ofSource o
        (source ++ "\n" ++ (endExecLine ++ "\n" ++ exitLine p.name.number)) = .ok g := by
  obtain ⟨fault, hfault, herror⟩ := exists_fault_of_error h
  cases fault with
  | unterminatedLink k =>
    obtain ⟨after, hafter, hlast, hclosed⟩ := exists_closing hfault rfl
    cases after with
    | inLink s beginLine => exact ⟨s.procedure, hlast s rfl, exists_ofSource_eq_ok o hclosed⟩
    | outside program => cases hafter
    | inSection s => cases hafter
  | mismatchedEnd | beforeProgram | unterminatedSection => cases herror

theorem exists_more_of_ok {o : Options} {source : String} {g : CallGraph}
    (h : ofSource o source = .ok g) : ∃ more g, ofSource o (source ++ "\n" ++ more) = .ok g := by
  have hfault := (ofSource_eq_ok h).1
  rw [← Outline.ofLinesFrom_concat_feed] at hfault
  obtain ⟨events, program, hreads⟩ := Outline.fault_eq_none_iff.1 hfault
  exact ⟨(Block.outside program).closing, exists_ofSource_eq_ok o (Outline.fault_closing hreads)⟩

/-- Only an error at a line stands in the way of completing a source. -/
theorem ends_of_more {o : Options} {source more : String} {g : CallGraph}
    (h : ofSource o (source ++ "\n" ++ more) = .ok g) :
    (∃ g, ofSource o source = .ok g) ∨
      (∃ n id, ofSource o source = .error (.unterminatedSection n id)) ∨
      ∃ n, ofSource o source = .error (.unterminatedLink n) := by
  rcases exists_reads_or_line source with ⟨events, after, hreads⟩ | ⟨fault, k, hfault, hline⟩
  · have houtline := congrArg Outline.fault (Outline.ofSource_of_reads hreads)
    cases after with
    | outside program => exact .inl (exists_ofSource_eq_ok o houtline)
    | inSection s => exact .inr (.inl ⟨_, _, ofSource_eq_error houtline⟩)
    | inLink s beginLine => exact .inr (.inr ⟨_, ofSource_eq_error houtline⟩)
  · rw [ofSource, Outline.ofSource_more hfault hline] at h
    have herror := ofSource_eq_error (o := o) hfault
    rw [ofSource, h] at herror
    cases herror

theorem error_stays {o : Options} {source : String} {e : SourceError}
    (h : ofSource o source = .error e)
    (hat : (∃ b n x y, e = .mismatchedEnd b n x y) ∨ ∃ n id, e = .beforeProgram n id) :
    (∀ other, (Text.lines other).take e.line = (Text.lines source).take e.line →
        ofSource o other = .error e) ∧
      ∀ more, ofSource o (source ++ "\n" ++ more) = .error e := by
  obtain ⟨fault, hfault, rfl⟩ := exists_fault_of_error h
  have hline := line?_of_error hat
  refine ⟨fun other hsame => ?_, fun more => ?_⟩
  · rw [ofSource, Outline.ofSource_of_take hfault hline hsame]
    exact h
  · rw [ofSource, Outline.ofSource_more hfault hline]
    exact h

/-- **Viable sources.** More lines can complete a source exactly when it is complete or ends
inside a block. The exit line of the section opened last completes it, behind an END-EXEC where a
link block is open. If the error of a source stands at a line, every text that has the same lines
up to there has the same error, and so has the source with any lines after it. -/
theorem viable_sources (o : Options) (source : String) :
    ((∃ more g, ofSource o (source ++ "\n" ++ more) = .ok g) ↔
      (∃ g, ofSource o source = .ok g) ∨
        (∃ n id, ofSource o source = .error (.unterminatedSection n id)) ∨
        ∃ n, ofSource o source = .error (.unterminatedLink n)) ∧
    (∀ n id, ofSource o source = .error (.unterminatedSection n id) →
      ∃ p, LastOpened source p ∧ id = o.label p ∧
        ∃ g, ofSource o (source ++ "\n" ++ exitLine p.name.number) = .ok g) ∧
    (∀ n, ofSource o source = .error (.unterminatedLink n) →
      ∃ p, LastOpened source p ∧
        ∃ g, ofSource o (source ++ "\n" ++ (endExecLine ++ "\n" ++ exitLine p.name.number)) =
          .ok g) ∧
    ∀ e, ofSource o source = .error e →
      ((∃ b n x y, e = .mismatchedEnd b n x y) ∨ ∃ n id, e = .beforeProgram n id) →
      (∀ other, (Text.lines other).take e.line = (Text.lines source).take e.line →
        ofSource o other = .error e) ∧
      ∀ more, ofSource o (source ++ "\n" ++ more) = .error e := by
  refine ⟨⟨?_, ?_⟩, ?_, ?_, ?_⟩
  · rintro ⟨more, g, hg⟩
    exact ends_of_more hg
  · rintro (⟨g, hg⟩ | ⟨n, id, herror⟩ | ⟨n, herror⟩)
    · exact exists_more_of_ok hg
    · obtain ⟨p, -, -, hg⟩ := exists_of_unterminatedSection herror
      exact ⟨exitLine p.name.number, hg⟩
    · obtain ⟨p, -, hg⟩ := exists_of_unterminatedLink herror
      exact ⟨endExecLine ++ "\n" ++ exitLine p.name.number, hg⟩
  · intro n id herror
    exact exists_of_unterminatedSection herror
  · intro n herror
    exact exists_of_unterminatedLink herror
  · intro e herror hat
    exact error_stays herror hat

/-- A section closed with the number of another. -/
def crossedLines : List Line :=
  ["       PROGRAM-ID. P.".toList, "       1-A SECTION.".toList, "       2-99-FIM. EXIT.".toList]

theorem outline_unendedLines : Outline.ofSource (Text.ofLines unendedLines) =
    ⟨[(1, .program "P"), (2, .opens ⟨"P", ⟨"1", "A"⟩⟩)], some (.unterminatedLink 3)⟩ := by
  rw [Outline.ofSource_ofLines (by decide +kernel)]
  decide +kernel

theorem ofSource_crossedLines :
    ofSource {} (Text.ofLines crossedLines) = .error (.mismatchedEnd 2 3 "1" "2") := by
  rw [ofSource, Outline.ofSource_ofLines (by decide)]
  rfl

/-- An open link block can be completed, but a wrong number stays wrong with the right one after
it. -/
theorem viable_unended_crossed :
    (∃ g, ofSource {} (Text.ofLines unendedLines ++ "\n" ++
        (endExecLine ++ "\n" ++ exitLine "1")) = .ok g) ∧
      ofSource {} (Text.ofLines crossedLines ++ "\n" ++ exitLine "1") =
        .error (.mismatchedEnd 2 3 "1" "2") := by
  obtain ⟨-, -, hlink, -⟩ := viable_sources {} (Text.ofLines unendedLines)
  obtain ⟨-, -, -, hstays⟩ := viable_sources {} (Text.ofLines crossedLines)
  constructor
  · have hfault := congrArg Outline.fault outline_unendedLines
    obtain ⟨p, ⟨before, n, rest, hevents, -⟩, hg⟩ := hlink 3 (ofSource_eq_error hfault)
    have hmem : (n, Event.opens p) ∈ (Outline.ofSource (Text.ofLines unendedLines)).events := by
      rw [hevents]
      exact List.mem_append_right before List.mem_cons_self
    rw [outline_unendedLines] at hmem
    obtain ⟨-, rfl⟩ : n = 2 ∧ p = ⟨"P", ⟨"1", "A"⟩⟩ := by simpa using hmem
    exact hg
  · exact (hstays _ ofSource_crossedLines (.inl ⟨2, 3, "1", "2", rfl⟩)).2 (exitLine "1")

end CallGraph
end CobolCalls
