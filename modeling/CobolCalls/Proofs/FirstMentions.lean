import CobolCalls.Proofs.BlockGrammar
import CobolCalls.Proofs.Dictionaries
import CobolCalls.Proofs.InertLines

/-
  Every node of a call graph is the first mention of its id. The mentions are read off the split of
  a source: a body mentions the sections that it performs and the programs that it calls or links
  to, all without fields, and the exit of a section mentions the section itself, with the literals
  moved in its body. So a section that was performed before it ends has no fields, and neither has
  one that performs itself.

  A section says its mentions (`SectionBlock.nodes_events`) once it is known what has been collected
  when it ends: for each field that the body moves a literal to, all of them, in order.
-/

namespace CobolCalls

open Statement

/-! ## Literals moved to a field -/

theorem Dict.get?_ofList_map {α : Type} (f : String → α) (names : List String) (x : String) :
    (Dict.ofList (names.map fun name => (name, f name))).get? x =
      if x ∈ names then some (f x) else none := by
  induction names using List.reverseRecOn with
  | nil => rfl
  | append_singleton names name ih =>
    rw [Dict.ofList] at ih
    rw [List.map_append, List.map_singleton, Dict.ofList, Dict.extend_concat, Dict.get?_insert, ih]
    by_cases hx : x = name <;> simp [hx]

/-- The literals that items move to a field, in order. -/
def movedTo (field : String) (items : List BodyItem) : List String :=
  ((items.filterMap BodyItem.move?).filter fun move => move.2 = field).map Prod.fst

/-- Each field that the body of a section moves a literal to, with its literals. -/
def SectionBlock.fields (block : SectionBlock) : Dict (List String) :=
  Dict.ofList (((block.body.filterMap BodyItem.move?).map Prod.snd).map fun field =>
    (field, movedTo field block.body))

theorem SectionBlock.get?_fields (block : SectionBlock) (field : String) :
    block.fields.get? field =
      if movedTo field block.body = [] then none else some (movedTo field block.body) := by
  have hempty : movedTo field block.body = [] ↔
      field ∉ (block.body.filterMap BodyItem.move?).map Prod.snd := by
    simp only [movedTo, List.map_eq_nil_iff, List.filter_eq_nil_iff, decide_eq_true_eq,
      List.mem_map, not_exists, not_and]
  rw [fields, Dict.get?_ofList_map]
  by_cases h : movedTo field block.body = []
  · rw [if_neg (hempty.1 h), if_pos h]
  · rw [if_pos (not_not.1 fun hfield => h (hempty.2 hfield)), if_neg h]

theorem BodyItem.get?_collect (d : Dict (List String)) (item : BodyItem) (field : String) :
    (item.collect d).get? field =
      if movedTo field [item] = [] then d.get? field
      else some ((d.get? field).getD [] ++ movedTo field [item]) := by
  unfold collect
  cases h : item.move? with
  | none => simp [movedTo, h]
  | some move =>
    rw [Dict.get?_insert]
    by_cases hfield : field = move.2
    · simp [movedTo, h, hfield]
    · simp [movedTo, h, hfield, Ne.symm hfield]

theorem get?_foldl_collect (items : List BodyItem) (d : Dict (List String)) (field : String) :
    (items.foldl BodyItem.collect d).get? field =
      if movedTo field items = [] then d.get? field
      else some ((d.get? field).getD [] ++ movedTo field items) := by
  induction items generalizing d with
  | nil => simp [movedTo]
  | cons item rest ih =>
    have happend : movedTo field (item :: rest) = movedTo field [item] ++ movedTo field rest := by
      rw [movedTo, ← List.singleton_append, List.filterMap_append, List.filter_append,
        List.map_append]
      rfl
    rw [List.foldl_cons, ih, BodyItem.get?_collect, happend]
    by_cases hfirst : movedTo field [item] = []
    · simp [hfirst]
    · by_cases hrest : movedTo field rest = [] <;> simp [hfirst, hrest]

/-- What is collected when a section ends. -/
theorem SectionBlock.collect_eq_fields (block : SectionBlock) :
    block.body.foldl BodyItem.collect ∅ = block.fields := by
  refine Dict.ext_get? fun field => ?_
  rw [get?_foldl_collect, block.get?_fields]
  rfl

/-! ## Mentions of a split -/

/-- A node with no fields. -/
def Node.bare (kind : NodeKind) (id : String) : Node := ⟨id, id, kind, {}⟩

def BodyItem.mentions (o : Options) (program : Option String) : BodyItem → List Node
  | plain line _ _ =>
    (performTarget line).toList.map (fun target => .bare .procedure (o.idIn program target)) ++
      (callTarget line).toList.map fun target => .bare .batchProgram (o.resolve target)
  | link block =>
    (block.lines.filterMap linkProgram).map fun target => .bare .onlineProgram (o.resolve target)

/-- A section is mentioned last of all, by its exit. -/
def Part.mentions (o : Options) (program : Option String) : Part → List Node
  | outside _ _ => []
  | procedure block =>
    let id := o.idIn program block.name
    block.body.flatMap (BodyItem.mentions o program) ++ [⟨id, id, .procedure, ⟨block.fields⟩⟩]

/-- The mentions of a split, in the order of the lines. -/
def Split.mentions (o : Options) (s : Split) : List Node := fromParts (Part.mentions o) none s.parts

theorem BodyItem.nodes_events (o : Options) (p : Procedure) (item : BodyItem) :
    (item.events p).flatMap (Event.nodes o) = item.mentions o (some p.program) := by
  cases item with
  | plain line noExit noLink =>
    rw [events, mentions, flatMap_ofPlain fun _ _ => rfl, List.map_eq_flatMap,
      List.map_eq_flatMap]
    rfl
  | link block =>
    rw [events, mentions, List.flatMap_map, List.map_eq_flatMap]
    rfl

theorem SectionBlock.nodes_events (o : Options) (program : String) (block : SectionBlock) :
    (block.events program).flatMap (Event.nodes o) =
      (Part.procedure block).mentions o (some program) := by
  rw [events, List.flatMap_cons, List.flatMap_append, List.flatMap_assoc, block.collect_eq_fields]
  simp only [BodyItem.nodes_events]
  rfl

/-! ## The nodes of a graph -/

namespace CallGraph

theorem nodes_eq_of_split {o : Options} {source : String} {g : CallGraph} {s : Split}
    (hg : ofSource o source = .ok g) (hs : s.lines = codeLines source) :
    g.nodes.toList = firstOf Node.id (s.mentions o) := by
  obtain ⟨events, hreads, hevents⟩ := reads_of_split s hs
  have hnodes : (Outline.ofSource source).events.flatMap (fun e => e.2.nodes o) =
      s.mentions o := by
    rw [Outline.ofSource, Outline.ofLinesFrom_of_reads hreads, ← List.flatMap_map, hevents]
    exact flatMap_fromParts (fun _ => rfl) (fun _ _ _ => rfl) (SectionBlock.nodes_events o)
      s.headedFrom
  rw [(ofSource_eq_ok hg).2.nodes_eq, hnodes]

/-- **Every node is its first mention.** A source with a call graph has a split, and whatever the
split, the nodes of the graph are the first mentions of each id that it shows, with the kind and
the fields of that mention. A section's own mention has the literals moved to each field, for the
fields that have some. -/
theorem nodes_are_first_mentions {o : Options} {source : String} {g : CallGraph}
    (hg : ofSource o source = .ok g) :
    (∃ s : Split, s.lines = codeLines source) ∧
    (∀ s : Split, s.lines = codeLines source →
      g.nodes.toList = firstOf Node.id (s.mentions o)) ∧
    ∀ (block : SectionBlock) (field : String), block.fields.get? field =
      if movedTo field block.body = [] then none else some (movedTo field block.body) :=
  ⟨exists_split_iff.2 (ofSource_eq_ok hg).1, fun _ hs => nodes_eq_of_split hg hs,
    fun block field => block.get?_fields field⟩

/-- A section that moves two literals to `F`, and a third in a link block, where it does not count.
It performs the section after it. -/
def movingBlock : SectionBlock where
  name := ⟨"1", "A"⟩
  header := "       1-A SECTION.".toList
  body := [.plain "        MOVE 'X' TO F".toList (by decide +kernel) (by decide +kernel),
    .link ⟨["        EXEC CICS LINK PROGRAM(L)".toList, "        MOVE 'Y' TO F".toList,
      "        END-EXEC".toList], by decide +kernel, by decide +kernel, by decide +kernel⟩,
    .plain "        MOVE 'Z' TO F".toList (by decide +kernel) (by decide +kernel),
    .plain "        PERFORM 2-B".toList (by decide +kernel) (by decide +kernel)]
  exit := "       1-99-FIM. EXIT.".toList
  opens := by decide +kernel
  closes := by decide +kernel

/-- A section that calls a program with the name of the one before it. -/
def callingBlock : SectionBlock where
  name := ⟨"2", "B"⟩
  header := "       2-B SECTION.".toList
  body := [.plain "        CALL '1-A'".toList (by decide +kernel) (by decide +kernel),
    .plain "        CALL C".toList (by decide +kernel) (by decide +kernel),
    .plain "        MOVE 'W' TO F".toList (by decide +kernel) (by decide +kernel)]
  exit := "       2-99-FIM. EXIT.".toList
  opens := by decide +kernel
  closes := by decide +kernel

def mentioningParts : List Part :=
  [.outside "       PROGRAM-ID. P.".toList (by decide +kernel), .procedure movingBlock,
    .procedure callingBlock]

/-- The second section is first mentioned before its exit, so its literal is lost. The first is
mentioned by its own exit, and the call of its name comes too late to make it a program. -/
theorem mentioningParts_first_mentions :
    ∃ g, ofSource {} (Text.ofLines (mentioningParts.flatMap Part.lines)) = .ok g ∧
      g.nodes.toList = [.bare .onlineProgram "L", .bare .procedure "2-B",
        ⟨"1-A", "1-A", .procedure, ⟨Dict.ofList [("F", ["X", "Z"])]⟩⟩,
        .bare .batchProgram "C"] := by
  have hfeeds : ∀ line ∈ mentioningParts.flatMap Part.lines, '\n' ∉ line := by decide +kernel
  have hcode : mentioningParts.flatMap Part.lines =
      codeLines (Text.ofLines (mentioningParts.flatMap Part.lines)) := by
    rw [codeLines, Text.lines_ofLines hfeeds]
    decide +kernel
  have hheaded : HeadedFrom none mentioningParts := ⟨rfl, rfl, trivial⟩
  obtain ⟨s, hparts⟩ := exists_split_of_headedFrom hheaded
  have hs : s.lines = codeLines (Text.ofLines (mentioningParts.flatMap Part.lines)) := by
    rw [← hcode, Split.lines, hparts]
  obtain ⟨g, hg⟩ := exists_ofSource_eq_ok {} (exists_split_iff.1 ⟨s, hs⟩)
  refine ⟨g, hg, ?_⟩
  rw [(nodes_are_first_mentions hg).2.1 s hs, Split.mentions, hparts]
  decide +kernel

end CallGraph
end CobolCalls
