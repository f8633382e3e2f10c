import CobolCalls.Proofs.Insertion
import CobolCalls.Proofs.Reading

/-
  The block grammar of a source. Its lines, comments left out, split into lines outside and
  sections; a section's body splits into plain lines and link blocks. A split carries the proofs
  that each part is what it is called, so there are no others.

  A source has a call graph exactly when it has a split, it has at most one, and the edges of the
  graph are those that the split shows. `reads_of_parts` reads a split as the source is read,
  block by block, and gives the events of the source as what its parts say; `completes_of_reads`
  goes the other way, by what each block still needs.
-/

namespace CobolCalls

open Statement

/-! ## Splits -/

/-- The lines from the beginning of a link up to and including the first with END-EXEC, which may
be the beginning itself. -/
structure LinkBlock where
  lines : List Line
  begins : lines.head?.any isLinkBegin = true
  ends : lines.getLast?.any hasEndExec = true
  unended : ∀ line ∈ lines.dropLast, hasEndExec line = false

inductive BodyItem where
  /-- A line that neither ends the section nor begins a link. -/
  | plain (line : Line) (noExit : sectionExit line = none) (noLink : isLinkBegin line = false)
  | link (block : LinkBlock)

/-- A section from its heading to its exit. -/
structure SectionBlock where
  name : SectionName
  header : Line
  body : List BodyItem
  exit : Line
  opens : sectionBegin header = some name
  closes : sectionExit exit = some name.number

inductive Part where
  | outside (line : Line) (noSection : sectionBegin line = none)
  | procedure (block : SectionBlock)

def BodyItem.lines : BodyItem → List Line
  | plain line _ _ => [line]
  | link block => block.lines

def SectionBlock.lines (s : SectionBlock) : List Line :=
  s.header :: (s.body.flatMap BodyItem.lines ++ [s.exit])

def Part.lines : Part → List Line
  | outside line _ => [line]
  | procedure block => block.lines

/-- The program that a part names for what follows. -/
def Part.program? : Part → Option String
  | outside line _ => programId line
  | procedure _ => none

/-- Parts of which no section stands before the first line outside that names a program. -/
structure Split where
  parts : List Part
  headed : ∀ before block after, parts = before ++ .procedure block :: after →
    ∃ part ∈ before, part.program?.isSome

def Split.lines (s : Split) : List Line := s.parts.flatMap Part.lines

/-! ## Edges of a split -/

/-- The id of a section that stands after the heading of `program`. -/
def Options.idIn (o : Options) (program : Option String) (name : SectionName) : String :=
  name.label (if o.namespaced then program else none)

/-- The edges of a body item in the section with id `source`. -/
def BodyItem.edges (o : Options) (program : Option String) (source : String) :
    BodyItem → List Edge
  | plain line _ _ =>
    (performTarget line).toList.map (fun target => ⟨source, o.idIn program target, .perform⟩) ++
      (callTarget line).toList.map (fun target => ⟨source, o.resolve target, .call⟩)
  | link block =>
    (block.lines.filterMap linkProgram).map fun target => ⟨source, o.resolve target, .remoteLink⟩

def Part.edges (o : Options) (program : Option String) : Part → List Edge
  | outside _ _ => []
  | procedure block => block.body.flatMap (BodyItem.edges o program (o.idIn program block.name))

/-- The edges of parts that follow the heading of `program`. -/
def edgesFrom (o : Options) (program : Option String) : List Part → List Edge
  | [] => []
  | part :: rest => part.edges o program ++ edgesFrom o (part.program? <|> program) rest

/-- The edges that a split shows, in the order of the lines. -/
def Split.edges (o : Options) (s : Split) : List Edge := edgesFrom o none s.parts

/-! ## Reading a split -/

/-- The last program named, if not by the parts then before them. -/
def programAfter (program : Option String) : List Part → Option String
  | [] => program
  | part :: rest => programAfter (part.program? <|> program) rest

/-- Every section stands after a program heading. -/
def HeadedFrom : Option String → List Part → Prop
  | _, [] => True
  | program, .outside line _ :: rest => HeadedFrom (programId line <|> program) rest
  | program, .procedure _ :: rest => program.isSome ∧ HeadedFrom program rest

theorem named_cons_iff (program : Option String) (part : Part) (before : List Part) :
    (program.isSome ∨ ∃ q ∈ part :: before, q.program?.isSome) ↔
      (part.program? <|> program).isSome ∨ ∃ q ∈ before, q.program?.isSome := by
  cases h : part.program? <;> simp [h]

theorem headedFrom_iff {program : Option String} {parts : List Part} :
    HeadedFrom program parts ↔ ∀ before block after, parts = before ++ .procedure block :: after →
      program.isSome ∨ ∃ part ∈ before, part.program?.isSome := by
  induction parts generalizing program with
  | nil => simp [HeadedFrom]
  | cons part rest ih =>
    -- a section among the parts is the first of them or one of the rest
    have hcons : (∀ before block after, part :: rest = before ++ .procedure block :: after →
        program.isSome ∨ ∃ q ∈ before, q.program?.isSome) ↔
        (∀ block, part = .procedure block → program.isSome) ∧
          HeadedFrom (part.program? <|> program) rest := by
      rw [ih]
      constructor
      · intro h
        refine ⟨fun block heq => ?_, fun before block after heq => ?_⟩
        · simpa using h [] block rest (by rw [heq]; rfl)
        · exact (named_cons_iff ..).1 (h (part :: before) block after (by rw [heq]; rfl))
      · rintro ⟨hfirst, hrest⟩ before block after heq
        cases before with
        | nil => exact .inl (hfirst block (List.cons.inj heq).1)
        | cons first before =>
          obtain ⟨rfl, htail⟩ := List.cons.inj heq
          exact (named_cons_iff ..).2 (hrest before block after htail)
    rw [hcons]
    cases part with
    | outside line noSection => simp [HeadedFrom, Part.program?]
    | procedure block => simp [HeadedFrom, Part.program?]

theorem Split.headedFrom (s : Split) : HeadedFrom none s.parts :=
  headedFrom_iff.2 fun before block after heq => .inr (s.headed before block after heq)

theorem exists_split_of_headedFrom {parts : List Part} (h : HeadedFrom none parts) :
    ∃ s : Split, s.parts = parts :=
  ⟨⟨parts, fun before block after heq =>
    (headedFrom_iff.1 h before block after heq).resolve_left (by simp)⟩, rfl⟩

/-! ## What a split says -/

/-- What an item says in the body of the section `p`. -/
def BodyItem.events (p : Procedure) : BodyItem → List Event
  | plain line _ _ => (Event.ofPlain p line).toList
  | link block => (block.lines.filterMap linkProgram).map (.links p)

/-- The literal and the field of an item that moves a literal. Only plain lines do. -/
def BodyItem.move? : BodyItem → Option (String × String)
  | plain line _ _ => assignment line
  | link _ => none

/-- The literals moved to each field, with those of one more item. -/
def BodyItem.collect (fields : Dict (List String)) (item : BodyItem) : Dict (List String) :=
  match item.move? with
  | some move => fields.insert move.2 ((fields.get? move.2).getD [] ++ [move.1])
  | none => fields

/-- What a section of `program` says, from its heading to its exit. -/
def SectionBlock.events (program : String) (block : SectionBlock) : List Event :=
  .opens ⟨program, block.name⟩ :: (block.body.flatMap (BodyItem.events ⟨program, block.name⟩) ++
    [.closes ⟨program, block.name⟩ (block.body.foldl BodyItem.collect ∅)])

/-- A section before any program says nothing, but a split has none. -/
def Part.events (program : Option String) : Part → List Event
  | outside line _ => ((programId line).map Event.program).toList
  | procedure block => program.toList.flatMap fun p => block.events p

/-- What is shown part by part, each with the program that it stands in; `program` is that of the
first. -/
def fromParts {β : Type} (shows : Option String → Part → List β) (program : Option String) :
    List Part → List β
  | [] => []
  | part :: rest => shows program part ++ fromParts shows (part.program? <|> program) rest

theorem map_snd_single (n : Nat) (event : Option Event) :
    (event.map (n, ·)).toList.map Prod.snd = event.toList := by
  cases event <;> rfl

theorem links_single (p : Procedure) (line : Line) :
    ((linkProgram line).map (Event.links p)).toList =
      ([line].filterMap linkProgram).map (.links p) := by
  cases h : linkProgram line <;> simp [h]

/-- From a line that is read as one of a link block, the block is read up to its first line with
END-EXEC. -/
theorem reads_of_link_lines {block : Block} {s : OpenSection} {beginLine : Nat}
    {inner : List Line} {last : Line} (hinner : ∀ line ∈ inner, hasEndExec line = false)
    (hlast : hasEndExec last = true) {l : Line × Nat} {rest : List (Line × Nat)}
    (hcode : (l :: rest).map Prod.fst = inner ++ [last])
    (hstep : block.step l.2 l.1 = .ok (Block.stepLink l.1 s beginLine)) :
    ∃ events, Reads block (l :: rest) events (.inSection s) ∧
      events.map Prod.snd = ((inner ++ [last]).filterMap linkProgram).map (.links s.procedure) := by
  induction inner generalizing block l rest with
  | nil =>
    obtain ⟨rfl, hrest⟩ := List.cons.inj hcode
    obtain rfl := List.map_eq_nil_iff.1 hrest
    rw [Block.stepLink, if_pos hlast] at hstep
    refine ⟨_, Reads.single hstep, ?_⟩
    rw [map_snd_single, links_single]
    rfl
  | cons line inner ih =>
    obtain ⟨rfl, hrest⟩ := List.cons.inj hcode
    rw [Block.stepLink, if_neg (by simp [hinner l.1 List.mem_cons_self])] at hstep
    cases rest with
    | nil => simp at hrest
    | cons next others =>
      have hnext : (Block.inLink s beginLine).step next.2 next.1 =
          .ok (Block.stepLink next.1 s beginLine) := rfl
      obtain ⟨events, hreads, hevents⟩ :=
        ih (fun line hline => hinner line (List.mem_cons_of_mem _ hline)) hrest hnext
      refine ⟨_, .line hstep hreads, ?_⟩
      rw [List.map_append, map_snd_single, links_single, hevents, ← List.map_append,
        ← List.filterMap_append]
      rfl

theorem LinkBlock.exists_eq (block : LinkBlock) :
    ∃ inner last, block.lines = inner ++ [last] ∧ (∀ line ∈ inner, hasEndExec line = false) ∧
      hasEndExec last = true := by
  obtain ⟨last, hlast, hend⟩ := (Option.any_eq_true _ _).1 block.ends
  have hlines := List.dropLast_append_getLast? last hlast
  exact ⟨block.lines.dropLast, last, hlines.symm, block.unended, hend⟩

theorem reads_of_link (block : LinkBlock) (s : OpenSection) {code : List (Line × Nat)}
    (hcode : code.map Prod.fst = block.lines) :
    ∃ events, Reads (.inSection s) code events (.inSection s) ∧
      events.map Prod.snd = (BodyItem.link block).events s.procedure := by
  obtain ⟨first, hfirst, hbegin⟩ := (Option.any_eq_true _ _).1 block.begins
  cases code with
  | nil =>
    rw [← hcode] at hfirst
    cases hfirst
  | cons l rest =>
    rw [← hcode] at hfirst
    cases hfirst
    obtain ⟨inner, last, hlines, hinner, hlast⟩ := block.exists_eq
    rw [hlines] at hcode
    simp only [BodyItem.events, hlines]
    exact reads_of_link_lines hinner hlast hcode (Block.stepSection_link hbegin l.2 s)

theorem fields_note (s : OpenSection) {line : Line} (noExit : sectionExit line = none)
    (noLink : isLinkBegin line = false) :
    (s.note line).fields = BodyItem.collect s.fields (.plain line noExit noLink) := by
  cases h : assignment line <;>
    simp [OpenSection.note, OpenSection.assign, BodyItem.collect, BodyItem.move?, h]

theorem reads_of_body (body : List BodyItem) (s : OpenSection) {code : List (Line × Nat)}
    (hcode : code.map Prod.fst = body.flatMap BodyItem.lines) :
    ∃ events s', Reads (.inSection s) code events (.inSection s') ∧
      s'.procedure = s.procedure ∧ s'.fields = body.foldl BodyItem.collect s.fields ∧
      events.map Prod.snd = body.flatMap (BodyItem.events s.procedure) := by
  induction body generalizing s code with
  | nil =>
    obtain rfl := List.map_eq_nil_iff.1 hcode
    exact ⟨[], s, .done, rfl, rfl, rfl⟩
  | cons item rest ih =>
    rw [List.flatMap_cons] at hcode
    obtain ⟨first, others, rfl, hfirst, hothers⟩ := List.map_eq_append_iff.1 hcode
    cases item with
    | plain line noExit noLink =>
      obtain ⟨l, none, rfl, rfl, hnone⟩ := List.map_eq_cons_iff.1 hfirst
      obtain rfl := List.map_eq_nil_iff.1 hnone
      have hstep := Block.stepSection_plain noExit noLink l.2 s
      obtain ⟨events, s', hreads, hproc, hfields, hevents⟩ := ih (s.note l.1) hothers
      rw [s.note_procedure] at hproc hevents
      rw [fields_note s noExit noLink] at hfields
      refine ⟨_, s', .line hstep hreads, hproc, hfields, ?_⟩
      rw [List.map_append, map_snd_single, hevents, List.flatMap_cons]
      rfl
    | link block =>
      obtain ⟨events, hreads, hevents⟩ := reads_of_link block s hfirst
      obtain ⟨events', s', hreads', hproc, hfields, hevents'⟩ := ih s hothers
      refine ⟨_, s', hreads.append hreads', hproc, hfields, ?_⟩
      rw [List.map_append, hevents, hevents', List.flatMap_cons]

/-- Parts are read as what they are, and say what they say. -/
theorem reads_of_parts {program : Option String} {parts : List Part}
    (h : HeadedFrom program parts) {code : List (Line × Nat)}
    (hcode : code.map Prod.fst = parts.flatMap Part.lines) :
    ∃ events, Reads (.outside program) code events (.outside (programAfter program parts)) ∧
      events.map Prod.snd = fromParts Part.events program parts := by
  induction parts generalizing program code with
  | nil =>
    obtain rfl := List.map_eq_nil_iff.1 hcode
    exact ⟨[], .done, rfl⟩
  | cons part rest ih =>
    rw [List.flatMap_cons] at hcode
    obtain ⟨first, others, rfl, hfirst, hothers⟩ := List.map_eq_append_iff.1 hcode
    cases part with
    | outside line noSection =>
      obtain ⟨l, none, rfl, rfl, hnone⟩ := List.map_eq_cons_iff.1 hfirst
      obtain rfl := List.map_eq_nil_iff.1 hnone
      have hstep := Block.stepOutside_outside noSection l.2 program
      obtain ⟨events, hreads, hevents⟩ := ih h hothers
      refine ⟨_, .line hstep hreads, ?_⟩
      rw [List.map_append, map_snd_single, hevents]
      rfl
    | procedure block =>
      obtain ⟨hsome, hrest⟩ := h
      obtain ⟨p, rfl⟩ := Option.isSome_iff_exists.1 hsome
      obtain ⟨header, inner, rfl, hheader, hinner⟩ := List.map_eq_cons_iff.1 hfirst
      obtain ⟨bodyCode, exitCode, rfl, hbody, hend⟩ := List.map_eq_append_iff.1 hinner
      obtain ⟨exit, none, rfl, hexit, hnone⟩ := List.map_eq_cons_iff.1 hend
      obtain rfl := List.map_eq_nil_iff.1 hnone
      obtain ⟨events, s, hreads, hproc, hfields, hevents⟩ :=
        reads_of_body block.body ⟨⟨p, block.name⟩, header.2, ∅⟩ hbody
      have hopen : (Block.outside (some p)).step header.2 header.1 = _ :=
        Block.stepOutside_section (hheader ▸ block.opens) header.2 p
      have hclose : (Block.inSection s).step exit.2 exit.1 =
          .ok (some (.closes s.procedure s.fields), .outside (some p)) := by
        have hnumber : sectionExit exit.1 = some s.procedure.name.number := by
          rw [hexit, block.closes, hproc]
        rw [Block.step, Block.stepSection_exit hnumber, hproc]
      obtain ⟨events', hreads', hevents'⟩ := ih hrest hothers
      refine ⟨_, (Reads.line hopen (hreads.append (Reads.single hclose))).append hreads', ?_⟩
      rw [List.map_append, List.map_append, List.map_append, map_snd_single, map_snd_single,
        hevents, hevents', hproc, hfields]
      simp [fromParts, Part.events, Part.program?, SectionBlock.events]

/-- Of a plain line only a PERFORM or a CALL counts where strays do not, and no line is both. -/
theorem flatMap_ofPlain {β : Type} {f : Event → List β} (hstrays : ∀ p name, f (.strays p name) = [])
    (p : Procedure) (line : Line) :
    (Event.ofPlain p line).toList.flatMap f =
      (performTarget line).toList.flatMap (fun target => f (.performs p target)) ++
        (callTarget line).toList.flatMap fun target => f (.calls p target) := by
  cases hperform : performTarget line with
  | some target =>
    have hcall := callTarget_eq_none_of_indented (performTarget_indented hperform) (by decide)
    simp [Event.ofPlain, hperform, hcall]
  | none =>
    cases hcall : callTarget line with
    | some target => simp [Event.ofPlain, hperform, hcall]
    | none => cases hsection : sectionBegin line <;>
        simp [Event.ofPlain, hperform, hcall, hsection, hstrays]

/-- What parts say, seen through `f`, is what `shows` shows of them, if it is so for sections. -/
theorem flatMap_fromParts {β : Type} {f : Event → List β}
    {shows : Option String → Part → List β} (hprogram : ∀ name, f (.program name) = [])
    (houtside : ∀ p line noSection, shows p (.outside line noSection) = [])
    (hsection : ∀ p block, (SectionBlock.events p block).flatMap f =
      shows (some p) (.procedure block))
    {program : Option String} {parts : List Part} (h : HeadedFrom program parts) :
    (fromParts Part.events program parts).flatMap f = fromParts shows program parts := by
  induction parts generalizing program with
  | nil => rfl
  | cons part rest ih =>
    rw [fromParts, fromParts, List.flatMap_append]
    cases part with
    | outside line noSection =>
      rw [Part.program?, ih h, houtside]
      cases hp : programId line <;> simp [Part.events, hprogram, hp]
    | procedure block =>
      obtain ⟨hsome, hrest⟩ := h
      obtain ⟨p, rfl⟩ := Option.isSome_iff_exists.1 hsome
      have hevents : (Part.procedure block).events (some p) = block.events p :=
        List.append_nil _
      rw [hevents, hsection]
      exact congrArg _ (ih hrest)

/-! ### Its edges -/

/-- The edges that the events of a reading mention. -/
def edgesOf (o : Options) (events : List (Nat × Event)) : List Edge :=
  events.flatMap fun e => e.2.edges o

theorem edgesOf_eq (o : Options) (events : List (Nat × Event)) :
    edgesOf o events = (events.map Prod.snd).flatMap (Event.edges o) := by
  rw [edgesOf, List.flatMap_map]

theorem BodyItem.edges_events (o : Options) (p : Procedure) (item : BodyItem) :
    (item.events p).flatMap (Event.edges o) = item.edges o (some p.program) (o.label p) := by
  cases item with
  | plain line noExit noLink =>
    rw [events, edges, flatMap_ofPlain fun _ _ => rfl, List.map_eq_flatMap, List.map_eq_flatMap]
    rfl
  | link block =>
    rw [events, edges, List.flatMap_map, List.map_eq_flatMap]
    rfl

theorem SectionBlock.edges_events (o : Options) (program : String) (block : SectionBlock) :
    (block.events program).flatMap (Event.edges o) =
      (Part.procedure block).edges o (some program) := by
  rw [events, List.flatMap_cons, List.flatMap_append, List.flatMap_assoc]
  simp only [BodyItem.edges_events]
  exact List.append_nil _

theorem edgesFrom_eq (o : Options) (program : Option String) (parts : List Part) :
    edgesFrom o program parts = fromParts (Part.edges o) program parts := by
  induction parts generalizing program with
  | nil => rfl
  | cons part rest ih => rw [edgesFrom, fromParts, ih]

/-! ## Splitting what was read -/

/-- The rest of a section, and then parts. -/
def ClosesSection (p : Procedure) (lines : List Line) : Prop :=
  ∃ (body : List BodyItem) (exit : Line) (parts : List Part),
    sectionExit exit = some p.name.number ∧ HeadedFrom (some p.program) parts ∧
    lines = body.flatMap BodyItem.lines ++ exit :: parts.flatMap Part.lines

/-- The rest of a link block, then that of its section, and then parts. -/
def ClosesLink (p : Procedure) (lines : List Line) : Prop :=
  ∃ inner last rest, (∀ line ∈ inner, hasEndExec line = false) ∧ hasEndExec last = true ∧
    ClosesSection p rest ∧ lines = inner ++ last :: rest

/-- What lines must be for a source to be complete that goes on with them. -/
def Block.Completes : Block → List Line → Prop
  | outside program, lines =>
    ∃ parts, HeadedFrom program parts ∧ lines = parts.flatMap Part.lines
  | inSection s, lines => ClosesSection s.procedure lines
  | inLink s _, lines => ClosesLink s.procedure lines

theorem ClosesLink.closesSection {p : Procedure} {line : Line} {rest : List Line}
    (h : ClosesLink p (line :: rest)) (hbegin : isLinkBegin line = true) :
    ClosesSection p (line :: rest) := by
  obtain ⟨inner, last, rest', hinner, hlast, ⟨body, exit, parts, hexit, hparts, rfl⟩, heq⟩ := h
  have hhead : (inner ++ [last]).head? = some line := by
    cases inner with
    | nil => exact congrArg some (List.cons.inj heq).1.symm
    | cons first others => exact congrArg some (List.cons.inj heq).1.symm
  let block : LinkBlock :=
    { lines := inner ++ [last]
      begins := by simp [hhead, hbegin]
      ends := by simp [hlast]
      unended := by simpa using hinner }
  refine ⟨.link block :: body, exit, parts, hexit, hparts, ?_⟩
  rw [heq]
  simp [block, BodyItem.lines]

namespace Block

variable {n : Nat} {line : Line} {rest : List Line} {event : Option Event} {next : Block}

theorem completes_of_stepOutside {program : Option String}
    (hstep : stepOutside n line program = .ok (event, next)) (h : next.Completes rest) :
    (outside program).Completes (line :: rest) := by
  obtain ⟨hb, -, rfl⟩ | ⟨name, p, hb, rfl, -, rfl⟩ := stepOutside_cases hstep
  · obtain ⟨parts, hparts, rfl⟩ := h
    exact ⟨.outside line hb :: parts, hparts, rfl⟩
  · obtain ⟨body, exit, parts, hexit, hparts, rfl⟩ := h
    exact ⟨.procedure ⟨name, line, body, exit, hb, hexit⟩ :: parts, ⟨rfl, hparts⟩,
      by simp [Part.lines, SectionBlock.lines]⟩

theorem closesLink_of_stepLink {s : OpenSection} (h : (stepLink line s n).2.Completes rest) :
    ClosesLink s.procedure (line :: rest) := by
  rw [stepLink] at h
  split at h
  next hend => exact ⟨[], line, rest, by simp, hend, h, rfl⟩
  next hopen =>
    obtain ⟨inner, last, rest', hinner, hlast, hrest, rfl⟩ := h
    refine ⟨line :: inner, last, rest', fun l hl => ?_, hlast, hrest, rfl⟩
    rcases List.mem_cons.1 hl with rfl | hl
    · simpa using hopen
    · exact hinner l hl

theorem completes_of_stepSection {s : OpenSection}
    (hstep : stepSection n line s = .ok (event, next)) (h : next.Completes rest) :
    (inSection s).Completes (line :: rest) := by
  obtain ⟨hexit, -, rfl⟩ | ⟨hlink, hnext⟩ | ⟨hexit, hlink, -, rfl⟩ := stepSection_cases hstep
  · obtain ⟨parts, hparts, rfl⟩ := h
    exact ⟨[], line, parts, hexit, hparts, rfl⟩
  · exact (closesLink_of_stepLink (n := n) (by rw [hnext]; exact h)).closesSection hlink
  · rw [Completes, s.note_procedure] at h
    obtain ⟨body, exit, parts, hexit', hparts, rfl⟩ := h
    exact ⟨.plain line hexit hlink :: body, exit, parts, hexit', hparts, rfl⟩

end Block

/-- Lines that are read to the end of a complete source complete the block they are read in. -/
theorem completes_of_reads {block : Block} {code : List (Line × Nat)}
    {events : List (Nat × Event)} {program : Option String}
    (h : Reads block code events (.outside program)) : block.Completes (code.map Prod.fst) := by
  generalize hafter : Block.outside program = after at h
  induction h with
  | done =>
    subst hafter
    exact ⟨[], trivial, rfl⟩
  | @line block next _ line n event rest events hstep _ ih =>
    have hrest := ih hafter
    cases block with
    | outside p => exact Block.completes_of_stepOutside hstep hrest
    | inSection s => exact Block.completes_of_stepSection hstep hrest
    | inLink s beginLine =>
      have hnext : Block.stepLink line s beginLine = (event, next) := Except.ok.inj hstep
      exact Block.closesLink_of_stepLink (n := beginLine) (by rw [hnext]; exact hrest)

/-! ## At most one split -/

/-- A list is cut only once behind its first element with a property. -/
theorem cut_unique {α : Type} {marks : α → Bool} {xs ys rest rest' : List α} {a b : α}
    (hx : ∀ x ∈ xs, marks x = false) (hy : ∀ y ∈ ys, marks y = false) (ha : marks a = true)
    (hb : marks b = true) (h : xs ++ a :: rest = ys ++ b :: rest') :
    xs = ys ∧ a = b ∧ rest = rest' := by
  induction xs generalizing ys with
  | nil =>
    cases ys with
    | nil => exact ⟨rfl, List.cons.inj h⟩
    | cons y ys =>
      obtain ⟨rfl, -⟩ := List.cons.inj h
      rw [hy a List.mem_cons_self] at ha
      cases ha
  | cons x xs ih =>
    cases ys with
    | nil =>
      obtain ⟨rfl, -⟩ := List.cons.inj h
      rw [hx x List.mem_cons_self] at hb
      cases hb
    | cons y ys =>
      obtain ⟨rfl, htail⟩ := List.cons.inj h
      obtain ⟨rfl, rfl, rfl⟩ := ih (fun z hz => hx z (List.mem_cons_of_mem _ hz))
        (fun z hz => hy z (List.mem_cons_of_mem _ hz)) htail
      exact ⟨rfl, rfl, rfl⟩

theorem LinkBlock.append_inj {block block' : LinkBlock} {rest rest' : List Line}
    (h : block.lines ++ rest = block'.lines ++ rest') : block = block' ∧ rest = rest' := by
  obtain ⟨inner, last, hlines, hinner, hlast⟩ := block.exists_eq
  obtain ⟨inner', last', hlines', hinner', hlast'⟩ := block'.exists_eq
  rw [hlines, hlines', List.append_assoc, List.append_assoc] at h
  obtain ⟨rfl, rfl, rfl⟩ := cut_unique hinner hinner' hlast hlast' h
  refine ⟨?_, rfl⟩
  cases block
  cases block'
  simp_all

/-- The beginning of a link block is no plain line and no exit. -/
theorem LinkBlock.exists_cons (block : LinkBlock) :
    ∃ first rest, block.lines = first :: rest ∧ isLinkBegin first = true := by
  obtain ⟨first, hfirst, hbegin⟩ := (Option.any_eq_true _ _).1 block.begins
  obtain ⟨rest, hrest⟩ := List.head?_eq_some_iff.1 hfirst
  exact ⟨first, rest, hrest, hbegin⟩

theorem sectionExit_ne_of_isLinkBegin {line : Line} {number : String}
    (h : isLinkBegin line = true) : sectionExit line ≠ some number := by
  rw [sectionExit_eq_none_of_indented (isLinkBegin_indented h)]
  exact (Option.some_ne_none number).symm

/-- An exit starts no body item. -/
theorem exit_ne_item {exit : Line} {number : String} (hexit : sectionExit exit = some number)
    (item : BodyItem) (rest rest' : List Line) : exit :: rest ≠ item.lines ++ rest' := by
  intro h
  cases item with
  | plain line noExit noLink =>
    obtain ⟨rfl, -⟩ := List.cons.inj h
    rw [noExit] at hexit
    cases hexit
  | link block =>
    obtain ⟨first, more, hlines, hbegin⟩ := block.exists_cons
    rw [BodyItem.lines, hlines] at h
    obtain ⟨rfl, -⟩ := List.cons.inj h
    exact sectionExit_ne_of_isLinkBegin hbegin hexit

theorem BodyItem.append_inj {item item' : BodyItem} {rest rest' : List Line}
    (h : item.lines ++ rest = item'.lines ++ rest') : item = item' ∧ rest = rest' := by
  cases item with
  | plain line noExit noLink =>
    cases item' with
    | plain line' noExit' noLink' =>
      obtain ⟨rfl, rfl⟩ := List.cons.inj h
      exact ⟨rfl, rfl⟩
    | link block =>
      obtain ⟨first, more, hlines, hbegin⟩ := block.exists_cons
      rw [lines, lines, hlines] at h
      obtain ⟨rfl, -⟩ := List.cons.inj h
      rw [noLink] at hbegin
      cases hbegin
  | link block =>
    cases item' with
    | plain line' noExit' noLink' =>
      obtain ⟨first, more, hlines, hbegin⟩ := block.exists_cons
      rw [lines, lines, hlines] at h
      obtain ⟨rfl, -⟩ := List.cons.inj h
      rw [noLink'] at hbegin
      cases hbegin
    | link block' =>
      obtain ⟨rfl, rfl⟩ := LinkBlock.append_inj h
      exact ⟨rfl, rfl⟩

theorem body_append_inj {body body' : List BodyItem} {exit exit' : Line} {rest rest' : List Line}
    {number number' : String} (hexit : sectionExit exit = some number)
    (hexit' : sectionExit exit' = some number')
    (h : body.flatMap BodyItem.lines ++ exit :: rest =
      body'.flatMap BodyItem.lines ++ exit' :: rest') :
    body = body' ∧ exit = exit' ∧ rest = rest' := by
  induction body generalizing body' with
  | nil =>
    cases body' with
    | nil => exact ⟨rfl, List.cons.inj h⟩
    | cons item' body' =>
      rw [List.flatMap_cons, List.append_assoc] at h
      exact absurd h (exit_ne_item hexit item' _ _)
  | cons item body ih =>
    rw [List.flatMap_cons, List.append_assoc] at h
    cases body' with
    | nil => exact absurd h.symm (exit_ne_item hexit' item _ _)
    | cons item' body' =>
      rw [List.flatMap_cons, List.append_assoc] at h
      obtain ⟨rfl, htail⟩ := BodyItem.append_inj h
      obtain ⟨rfl, rfl, rfl⟩ := ih htail
      exact ⟨rfl, rfl, rfl⟩

theorem Part.append_inj {part part' : Part} {rest rest' : List Line}
    (h : part.lines ++ rest = part'.lines ++ rest') : part = part' ∧ rest = rest' := by
  cases part with
  | outside line noSection =>
    cases part' with
    | outside line' noSection' =>
      obtain ⟨rfl, rfl⟩ := List.cons.inj h
      exact ⟨rfl, rfl⟩
    | procedure block' =>
      obtain ⟨rfl, -⟩ := List.cons.inj h
      rw [block'.opens] at noSection
      cases noSection
  | procedure block =>
    cases part' with
    | outside line' noSection' =>
      obtain ⟨rfl, -⟩ := List.cons.inj h
      rw [block.opens] at noSection'
      cases noSection'
    | procedure block' =>
      rw [lines, lines, SectionBlock.lines, SectionBlock.lines, List.cons_append,
        List.cons_append, List.append_assoc, List.append_assoc] at h
      obtain ⟨hheader, htail⟩ := List.cons.inj h
      obtain ⟨hbody, hexit, rfl⟩ := body_append_inj block.closes block'.closes htail
      obtain ⟨name, header, body, exit, opens, closes⟩ := block
      obtain ⟨name', header', body', exit', opens', closes'⟩ := block'
      dsimp only at hheader hbody hexit
      subst hheader hbody hexit
      obtain rfl : name = name' := Option.some.inj (opens.symm.trans opens')
      exact ⟨rfl, rfl⟩

theorem Part.lines_ne_nil (part : Part) : part.lines ≠ [] := by
  cases part <;> simp [lines, SectionBlock.lines]

theorem parts_inj {parts parts' : List Part}
    (h : parts.flatMap Part.lines = parts'.flatMap Part.lines) : parts = parts' := by
  induction parts generalizing parts' with
  | nil =>
    cases parts' with
    | nil => rfl
    | cons part' rest' =>
      exact absurd (List.append_eq_nil_iff.1 h.symm).1 part'.lines_ne_nil
  | cons part rest ih =>
    cases parts' with
    | nil => exact absurd (List.append_eq_nil_iff.1 h).1 part.lines_ne_nil
    | cons part' rest' =>
      obtain ⟨rfl, htail⟩ := Part.append_inj h
      rw [ih htail]

theorem Split.lines_inj {s t : Split} (h : s.lines = t.lines) : s = t := by
  obtain ⟨parts, headed⟩ := s
  obtain ⟨parts', headed'⟩ := t
  obtain rfl : parts = parts' := parts_inj h
  rfl

/-! ## The graph of a split source -/

theorem reads_of_split (s : Split) {source : String} (h : s.lines = codeLines source) :
    ∃ events, Reads (.outside none) (codeFrom 1 (Text.lines source)) events
        (.outside (programAfter none s.parts)) ∧
      events.map Prod.snd = fromParts Part.events none s.parts :=
  reads_of_parts s.headedFrom ((map_fst_codeFrom 1 _).trans h.symm)

/-- What is read from the start to where no section is open has a split, and the program known
there is the last one that the split names. -/
theorem exists_split_of_reads {code : List (Line × Nat)} {events : List (Nat × Event)}
    {program : Option String} (h : Reads (.outside none) code events (.outside program)) :
    ∃ s : Split, s.lines = code.map Prod.fst ∧ programAfter none s.parts = program := by
  obtain ⟨parts, hparts, hlines⟩ := completes_of_reads h
  obtain ⟨s, rfl⟩ := exists_split_of_headedFrom hparts
  obtain ⟨events', hreads, -⟩ := reads_of_parts hparts hlines
  have hafter := (hreads.unique h).2
  exact ⟨s, hlines.symm, Block.outside.inj hafter⟩

theorem exists_split_iff {source : String} :
    (∃ s : Split, s.lines = codeLines source) ↔ (Outline.ofSource source).fault = none := by
  rw [Outline.ofSource, Outline.fault_eq_none_iff]
  constructor
  · rintro ⟨s, h⟩
    obtain ⟨events, hreads, -⟩ := reads_of_split s h
    exact ⟨events, _, hreads⟩
  · rintro ⟨events, program, h⟩
    obtain ⟨s, hlines, -⟩ := exists_split_of_reads h
    exact ⟨s, hlines.trans (map_fst_codeFrom 1 _)⟩

namespace CallGraph

/-- The events of a source with a split mention the edges that the split shows. -/
theorem edgesOf_events (o : Options) {source : String} {s : Split}
    (h : s.lines = codeLines source) :
    edgesOf o (Outline.ofSource source).events = s.edges o := by
  obtain ⟨events, hreads, hevents⟩ := reads_of_split s h
  rw [Outline.ofSource, Outline.ofLinesFrom_of_reads hreads, edgesOf_eq, hevents]
  rw [flatMap_fromParts (fun _ => rfl) (fun _ _ _ => rfl) (SectionBlock.edges_events o)
    s.headedFrom, Split.edges, edgesFrom_eq]

/-- If repeats are kept, the graph has the edges that the split shows. -/
theorem edges_eq_of_split {o : Options} {source : String} {g : CallGraph} {s : Split}
    (hkeeps : o.keepsRepeats = true) (hg : ofSource o source = .ok g)
    (hs : s.lines = codeLines source) : g.edges.toList = s.edges o := by
  have hedges := (ofSource_eq_ok hg).2.edges_eq
  rw [hkeeps] at hedges
  exact hedges.trans (edgesOf_events o hs)

/-- **The scanner accepts exactly the block grammar.** A source has a call graph if and only if
its lines that are no comments have a split; there is at most one; and if repeats are kept, the
edges of the graph are those of the split, in the order of the lines. -/
theorem ofSource_follows_block_grammar (o : Options) (source : String) :
    ((∃ g, ofSource o source = .ok g) ↔ ∃ s : Split, s.lines = codeLines source) ∧
    (∀ s t : Split, s.lines = codeLines source → t.lines = codeLines source → s = t) ∧
    (∀ (g : CallGraph) (s : Split), o.keepsRepeats = true → ofSource o source = .ok g →
      s.lines = codeLines source → g.edges.toList = s.edges o) := by
  refine ⟨?_, ?_, ?_⟩
  · rw [exists_ok_iff, exists_split_iff]
  · intro s t hs ht
    exact Split.lines_inj (hs.trans ht.symm)
  · intro g s hkeeps hg hs
    exact edges_eq_of_split hkeeps hg hs

/-- A section with a call and a link block that swallows an exit. -/
def linkedSource : String :=
  "       PROGRAM-ID. P.\n       1-A SECTION.\n        CALL X\n        EXEC CICS LINK
       2-99-FIM. EXIT.\n        END-EXEC\n       1-99-FIM. EXIT."

set_option maxRecDepth 2000 in
theorem linkedSource_follows_block_grammar :
    ∃ (g : CallGraph) (s : Split), ofSource {} linkedSource = .ok g ∧
      s.lines = codeLines linkedSource ∧ g.edges.toList = s.edges {} := by
  have grammar := ofSource_follows_block_grammar {} linkedSource
  have complete : (Outline.ofSource linkedSource).fault = none :=
    (congrArg Outline.fault (Outline.ofSource_ofList _)).trans (by decide +kernel)
  obtain ⟨g, hg⟩ := exists_ofSource_eq_ok {} complete
  obtain ⟨s, hs⟩ := grammar.1.1 ⟨g, hg⟩
  exact ⟨g, s, hg, hs, grammar.2.2 g s rfl hg hs⟩

end CallGraph
end CobolCalls
