import CobolCalls.CallGraph.Source
import CobolCalls.Fields
import CobolCalls.Proofs.Reading
import CobolCalls.Proofs.Shapes

/-
  No line has two forms. How the text of a line begins tells the only form that it can have
  (`Form.of?`): right after the margin a letter or a section's name, and further in a keyword or a
  digit. A section's heading and its exit begin alike; they part where the name ends, at a space or
  at a full stop. And every form needs the whole margin, so a comment has none.

  Hence the reader may try the recognisers in any order, inside a section and outside, and a field
  is declared by the same lines whether comments are passed over first or not.
-/

namespace CobolCalls

open Statement

/-! ## Forms -/

/-- The forms that are read from the beginning of a line. -/
inductive Form where
  | program | heading | exit | move | perform | call | link | field
  /-- A PROGRAM clause that opens the line's text. -/
  | clause
deriving DecidableEq

namespace Form

/-- The recogniser of the form succeeds on the line. -/
def fits : Form → Line → Bool
  | program, line => (programId line).isSome
  | heading, line => (sectionBegin line).isSome
  | exit, line => (sectionExit line).isSome
  | move, line => (assignment line).isSome
  | perform, line => (performTarget line).isSome
  | call, line => (callTarget line).isSome
  | link, line => isLinkBegin line
  | field, line => (fieldDeclaration line).isSome
  | clause, line => (openingProgram line).isSome

/-- The only form that a line can have in which this follows a section's name. -/
def ofEnd? : Line → Option Form
  | '.' :: _ => some exit
  | ' ' :: _ => some heading
  | _ => none

/-- The only form that a text right after the margin can have. -/
def ofHeading? : Line → Option Form
  | 'P' :: _ => some program
  | text => sectionName text >>= fun read => ofEnd? read.2

/-- The only form that a text can have which is indented further. -/
def ofStatement? : Line → Option Form
  | 'M' :: _ => some move
  | 'P' :: 'E' :: _ => some perform
  | 'P' :: 'R' :: _ => some clause
  | 'C' :: _ => some call
  | 'E' :: _ => some link
  | c :: _ => if isDigit c then some field else none
  | [] => none

/-- The only form that a line can have. -/
def of? (line : Line) : Option Form :=
  match afterIndent line with
  | some text => ofStatement? text
  | none => afterMargin line >>= ofHeading?

theorem of?_of_indented {word : String} {line : Line} (h : Indented word line) :
    ∃ rest, of? line = ofStatement? (word.toList ++ rest) := by
  obtain ⟨rest, hrest⟩ := h
  refine ⟨rest, ?_⟩
  rw [of?, hrest]

/-- A text that starts with no space is not indented. -/
theorem of?_of_margin {line rest : Line} {c : Char} (h : afterMargin line = some (c :: rest))
    (hc : c ≠ ' ') : of? line = ofHeading? (c :: rest) := by
  have hnone : afterIndent line = none := by
    rw [Option.eq_none_iff_forall_ne_some]
    intro text htext
    have hindented : Indented "" line := ⟨text, htext⟩
    exact not_heads_of_indented hindented hc ⟨rest, h⟩
  rw [of?, hnone, h]
  rfl

theorem ofStatement?_digit {c : Char} (h : isDigit c = true) (rest : Line) :
    ofStatement? (c :: rest) = some field := by
  unfold ofStatement?
  split <;> simp_all [isDigit]

theorem of?_of_sectionName {line text rest : Line} {name : SectionName}
    (hmargin : afterMargin line = some text) (hname : sectionName text = some (name, rest)) :
    of? line = ofEnd? rest := by
  obtain ⟨_, hrun, -⟩ := Option.bind_eq_some_iff.1 hname
  obtain ⟨c, tail, rfl, hc⟩ := run_head hrun
  have hspace : c ≠ ' ' := by
    rintro rfl
    exact absurd hc (by decide)
  rw [of?_of_margin hmargin hspace]
  unfold ofHeading?
  split
  next heq =>
    obtain ⟨rfl, -⟩ := List.cons.inj heq
    exact absurd hc (by decide)
  next =>
    rw [hname]
    rfl

theorem of?_of_sectionBegin {line : Line} {name : SectionName}
    (h : sectionBegin line = some name) : of? line = some heading := by
  obtain ⟨text, hmargin, h⟩ := Option.bind_eq_some_iff.1 h
  obtain ⟨⟨_, rest⟩, hname, h⟩ := Option.bind_eq_some_iff.1 h
  obtain ⟨_, hspaces, -⟩ := Option.bind_eq_some_iff.1 h
  obtain ⟨n, hn, rfl, -⟩ := afterSpaces_eq_some_iff.1 hspaces
  obtain ⟨m, rfl⟩ := Nat.exists_eq_add_of_lt hn
  exact of?_of_sectionName hmargin hname

/-- The exit of a section reads like a name with the title `99-FIM` and a full stop. -/
theorem of?_of_sectionExit {line : Line} {number : String}
    (h : sectionExit line = some number) : of? line = some exit := by
  obtain ⟨text, hmargin, h⟩ := Option.bind_eq_some_iff.1 h
  obtain ⟨⟨digits, _⟩, hrun, h⟩ := Option.bind_eq_some_iff.1 h
  obtain ⟨rest, hafter, -⟩ := Option.bind_eq_some_iff.1 h
  obtain ⟨hdigits, rfl, -⟩ := run_eq_some_iff.1 hrun
  obtain rfl := after_eq_some.1 hafter
  have htitle : Over isNameChar "99-FIM" := ⟨by decide, List.all_eq_true.1 (by decide)⟩
  have hword : "-99-FIM.".toList = "-".toList ++ ("99-FIM".toList ++ ['.']) := by decide
  have hname : sectionName (digits.toList ++ ("-99-FIM.".toList ++ rest)) =
      some (⟨digits, "99-FIM"⟩, '.' :: rest) :=
    sectionName_eq_some_iff.2 ⟨hdigits, htitle, stops_cons rfl rest, by simp [hword]⟩
  exact of?_of_sectionName hmargin hname

/-- A line that has a form shows it. -/
theorem of?_of_fits {f : Form} {line : Line} (h : f.fits line = true) : of? line = some f := by
  cases f with
  | program =>
    obtain ⟨name, hname⟩ := Option.isSome_iff_exists.1 h
    obtain ⟨rest, hrest⟩ := programId_heads hname
    exact of?_of_margin hrest (by decide)
  | heading =>
    obtain ⟨name, hname⟩ := Option.isSome_iff_exists.1 h
    exact of?_of_sectionBegin hname
  | exit =>
    obtain ⟨number, hnumber⟩ := Option.isSome_iff_exists.1 h
    exact of?_of_sectionExit hnumber
  | move =>
    obtain ⟨move, hmove⟩ := Option.isSome_iff_exists.1 h
    obtain ⟨rest, hrest⟩ := of?_of_indented (assignment_indented hmove)
    exact hrest
  | perform =>
    obtain ⟨target, htarget⟩ := Option.isSome_iff_exists.1 h
    obtain ⟨rest, hrest⟩ := of?_of_indented (performTarget_indented htarget)
    exact hrest
  | call =>
    obtain ⟨target, htarget⟩ := Option.isSome_iff_exists.1 h
    obtain ⟨rest, hrest⟩ := of?_of_indented (callTarget_indented htarget)
    exact hrest
  | link =>
    obtain ⟨rest, hrest⟩ := of?_of_indented (isLinkBegin_indented h)
    exact hrest
  | field =>
    obtain ⟨declared, hdeclared⟩ := Option.isSome_iff_exists.1 h
    obtain ⟨text, htext, hdeclared⟩ := Option.bind_eq_some_iff.1 hdeclared
    obtain ⟨_, hrun, -⟩ := Option.bind_eq_some_iff.1 hdeclared
    obtain ⟨c, rest, rfl, hc⟩ := run_head hrun
    rw [of?, htext]
    exact ofStatement?_digit hc rest
  | clause =>
    obtain ⟨target, htarget⟩ := Option.isSome_iff_exists.1 h
    obtain ⟨rest, hrest⟩ := of?_of_indented (indented_of_bind htarget)
    exact hrest

theorem fits_unique {f g : Form} {line : Line} (hf : f.fits line = true)
    (hg : g.fits line = true) : f = g :=
  Option.some.inj ((of?_of_fits hf).symm.trans (of?_of_fits hg))

/-- Column seven belongs to the margin. -/
theorem isComment_of_fits {f : Form} {line : Line} (h : f.fits line = true) :
    isComment line = false := by
  have hof := of?_of_fits h
  cases hmargin : afterMargin line with
  | some text =>
    obtain rfl := afterMargin_eq_some_iff.1 hmargin
    rfl
  | none =>
    rw [of?, afterIndent, hmargin] at hof
    cases hof

/-! ## Orders -/

/-- The forms that count outside, in the order in which the reader tries them. -/
def outside : List Form := [program, heading]

/-- The forms that count inside a section, in the order in which the reader tries them. -/
def inside : List Form := [exit, move, perform, call, link, heading]

/-- What a line of the form does outside. -/
def tryOutside (n : Nat) (line : Line) (known : Option String) :
    Form → Option (Except Fault (Option Event × Block))
  | program => (programId line).map fun name => .ok (some (.program name), .outside (some name))
  | heading => (sectionBegin line).map fun name =>
    match known with
    | some p => .ok (some (.opens ⟨p, name⟩), .inSection ⟨⟨p, name⟩, n, ∅⟩)
    | none => .error (.beforeProgram n name)
  | _ => none

/-- What a line of the form does inside a section. -/
def tryInside (n : Nat) (line : Line) (s : OpenSection) :
    Form → Option (Except Fault (Option Event × Block))
  | exit => (sectionExit line).map fun number =>
    if number = s.procedure.name.number then
      .ok (some (.closes s.procedure s.fields), .outside (some s.procedure.program))
    else .error (.mismatchedEnd s.beginLine n s.procedure.name.number number)
  | move => (assignment line).map fun move => .ok (none, .inSection (s.assign move.1 move.2))
  | perform => (performTarget line).map fun target =>
    .ok (some (.performs s.procedure target), .inSection s)
  | call => (callTarget line).map fun target =>
    .ok (some (.calls s.procedure target), .inSection s)
  | link => if isLinkBegin line then some (.ok (Block.stepLink line s n)) else none
  | heading => (sectionBegin line).map fun found =>
    .ok (some (.strays s.procedure found), .inSection s)
  | _ => none

theorem fits_of_tryOutside {n : Nat} {line : Line} {known : Option String} {f : Form}
    (h : (tryOutside n line known f).isSome = true) : f.fits line = true := by
  cases f <;> simp_all [tryOutside, fits]

theorem fits_of_tryInside {n : Nat} {line : Line} {s : OpenSection} {f : Form}
    (h : (tryInside n line s f).isSome = true) : f.fits line = true := by
  cases f <;> simp_all [tryInside, fits]

end Form

/-- The order of the tries does not matter if no two of them succeed. -/
theorem findSome?_of_perm {α β : Type} {f : α → Option β} {xs ys : List α} (h : xs.Perm ys)
    (alone : ∀ a b, (f a).isSome = true → (f b).isSome = true → a = b) :
    xs.findSome? f = ys.findSome? f := by
  induction h with
  | nil => rfl
  | cons a _ ih => rw [List.findSome?_cons, List.findSome?_cons, ih]
  | swap a b rest =>
    simp only [List.findSome?_cons]
    cases ha : f a with
    | none => rfl
    | some x =>
      cases hb : f b with
      | none => rfl
      | some y =>
        obtain rfl := alone a b (by rw [ha]; rfl) (by rw [hb]; rfl)
        exact hb.symm.trans ha
  | trans _ _ ih ih' => exact ih.trans ih'

namespace Block

/-- One line, with the recognisers tried in the given orders. -/
def stepIn (outer inner : List Form) (n : Nat) (line : Line) :
    Block → Except Fault (Option Event × Block)
  | outside known => (outer.findSome? (Form.tryOutside n line known)).getD (.ok (none, outside known))
  | inSection s => (inner.findSome? (Form.tryInside n line s)).getD (.ok (none, inSection s))
  | inLink s beginLine => .ok (stepLink line s beginLine)

theorem stepIn_outside_inside : stepIn Form.outside Form.inside = step := by
  funext n line block
  cases block with
  | outside known =>
    cases hp : programId line with
    | some name => simp [stepIn, step, stepOutside, Form.outside, Form.tryOutside, hp]
    | none =>
      cases hb : sectionBegin line <;> cases known <;>
        simp [stepIn, step, stepOutside, Form.outside, Form.tryOutside, hp, hb]
  | inSection s =>
    simp only [stepIn, step, stepSection, Form.inside, List.findSome?_cons, Form.tryInside]
    cases sectionExit line with
    | some number => rfl
    | none =>
      cases assignment line with
      | some move => rfl
      | none =>
        cases performTarget line with
        | some target => rfl
        | none =>
          cases callTarget line with
          | some target => rfl
          | none =>
            cases isLinkBegin line with
            | true => rfl
            | false =>
              cases sectionBegin line with
              | some found => rfl
              | none => rfl
  | inLink s beginLine => rfl

theorem stepIn_of_perm {outer inner : List Form} (houter : outer.Perm Form.outside)
    (hinner : inner.Perm Form.inside) : stepIn outer inner = step := by
  rw [← stepIn_outside_inside]
  funext n line block
  cases block with
  | outside known =>
    have htry := findSome?_of_perm (f := Form.tryOutside n line known) houter fun a b ha hb =>
      Form.fits_unique (Form.fits_of_tryOutside ha) (Form.fits_of_tryOutside hb)
    rw [stepIn, stepIn, htry]
  | inSection s =>
    have htry := findSome?_of_perm (f := Form.tryInside n line s) hinner fun a b ha hb =>
      Form.fits_unique (Form.fits_of_tryInside ha) (Form.fits_of_tryInside hb)
    rw [stepIn, stepIn, htry]
  | inLink s beginLine => rfl

end Block

/-! ## Reading in any order -/

/-- The outline of lines of which each does what the given step says. -/
def Outline.ofLinesWith (step : Nat → Line → Block → Except Fault (Option Event × Block)) (n : Nat)
    (block : Block) : List Line → Outline
  | [] => ⟨[], block.fault?⟩
  | line :: rest =>
    if isComment line then ofLinesWith step (n + 1) block rest
    else
      match step n line block with
      | .error fault => ⟨[], some fault⟩
      | .ok (event, block) =>
        let outline := ofLinesWith step (n + 1) block rest
        { outline with events := (event.map (n, ·)).toList ++ outline.events }

theorem Outline.ofLinesWith_step (n : Nat) (block : Block) (lines : List Line) :
    ofLinesWith Block.step n block lines = ofLinesFrom n block lines := by
  induction lines generalizing n block with
  | nil => rfl
  | cons line rest ih =>
    rw [ofLinesWith, ofLinesFrom, ih]
    by_cases hcomment : isComment line = true
    · rw [if_pos hcomment, if_pos hcomment]
    · rw [if_neg hcomment, if_neg hcomment]
      cases block.step n line with
      | error fault => rfl
      | ok result =>
        obtain ⟨event, next⟩ := result
        exact congrArg (fun outline : Outline =>
          { outline with events := (event.map (n, ·)).toList ++ outline.events }) (ih (n + 1) next)

/-- The call graph of a source that is read with the recognisers tried in the given orders. -/
def CallGraph.ofSourceIn (outer inner : List Form) (o : Options) (source : String) :
    Except SourceError CallGraph :=
  ofOutline o (.ofLinesWith (Block.stepIn outer inner) 1 (.outside none) (Text.lines source))

theorem CallGraph.ofSourceIn_of_perm {outer inner : List Form} (houter : outer.Perm Form.outside)
    (hinner : inner.Perm Form.inside) (o : Options) (source : String) :
    ofSourceIn outer inner o source = ofSource o source := by
  rw [ofSourceIn, Block.stepIn_of_perm houter hinner, Outline.ofLinesWith_step]
  rfl

/-- A comment declares no field, so passing over comments first takes nothing away. -/
theorem Fields.ofLines_eq (lines : List Line) :
    ofLines lines = Dict.ofList (lines.filterMap fieldDeclaration) := by
  have hdeclared (line : Line) :
      (if !isComment line then fieldDeclaration line else none) = fieldDeclaration line := by
    cases hfield : fieldDeclaration line with
    | none => simp
    | some declared =>
      have hfits : Form.field.fits line = true := Option.isSome_iff_exists.2 ⟨declared, hfield⟩
      simp [Form.isComment_of_fits hfits]
  rw [ofLines, List.filterMap_filter]
  simp only [hdeclared]

namespace Form

/-- **No line has two forms**, and a comment has none. Hence the recognisers may be tried in any
order: a line does the same in every block, and a source has the same call graph or the same
error. And the fields of a source are those that its lines declare, comments or not. -/
theorem forms_exclude_each_other :
    (∀ (line : Line) (f g : Form), f.fits line = true → g.fits line = true → f = g) ∧
    (∀ (line : Line) (f : Form), f.fits line = true → isComment line = false) ∧
    (∀ outer inner : List Form, outer.Perm outside → inner.Perm inside →
      (∀ (n : Nat) (line : Line) (block : Block),
        block.stepIn outer inner n line = block.step n line) ∧
      ∀ (o : Options) (source : String),
        CallGraph.ofSourceIn outer inner o source = CallGraph.ofSource o source) ∧
    (∀ source : String,
      Fields.ofSource source = Dict.ofList ((Text.lines source).filterMap fieldDeclaration)) := by
  refine ⟨?_, ?_, ?_, ?_⟩
  · intro line f g hf hg
    exact fits_unique hf hg
  · intro line f hf
    exact isComment_of_fits hf
  · intro outer inner houter hinner
    refine ⟨fun n line block => ?_, CallGraph.ofSourceIn_of_perm houter hinner⟩
    rw [Block.stepIn_of_perm houter hinner]
  · intro source
    exact Fields.ofLines_eq (Text.lines source)

/-- A heading with the title of an exit. -/
def exitTitled : Line := "       1-99-FIM SECTION.".toList

/-- It is a heading and no exit, also if headings are tried first. -/
theorem exitTitled_excludes_others :
    heading.fits exitTitled = true ∧ (∀ g : Form, g.fits exitTitled = true → heading = g) ∧
      isComment exitTitled = false ∧
      ∀ (o : Options) (source : String),
        CallGraph.ofSourceIn outside.reverse inside.reverse o source =
          CallGraph.ofSource o source := by
  obtain ⟨hunique, hcomment, horder, -⟩ := forms_exclude_each_other
  have hfits : heading.fits exitTitled = true := by decide +kernel
  refine ⟨hfits, fun g hg => hunique exitTitled heading g hfits hg,
    hcomment exitTitled heading hfits, ?_⟩
  exact (horder _ _ (List.reverse_perm outside) (List.reverse_perm inside)).2

end Form
end CobolCalls
