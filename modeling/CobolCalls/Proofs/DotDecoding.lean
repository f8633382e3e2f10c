import CobolCalls.CallGraph.Dot
import CobolCalls.Proofs.Recognition
import Mathlib.Data.List.Forall2

/-
  Drawings can be read back. The DOT text of a graph has one statement for each edge and then one
  for each node, and a reader recovers them all, whatever the ids hold: quotes, backslashes, line
  feeds, or text that looks like statements.

  Inside a quoted name a backslash always takes the next character with it, so the first quote
  without one ends the name (`name?_quoted`). What follows the first name of a statement then
  tells an edge from a node, and what follows the last name ends the statement; no line end is
  looked for in between.
-/

namespace CobolCalls

/-- The kind of edge that a colour shows. -/
def EdgeKind.ofColour? (colour : String) : Option EdgeKind := all.find? (·.colour == colour)

/-- The kind of node that a colour shows. -/
def NodeKind.ofColour? (colour : String) : Option NodeKind := all.find? (·.colour? == some colour)

namespace CallGraph.Dot

open Statement (after after_eq_some)

/-! ## Reading a drawing -/

/-- What a statement of a drawing shows. -/
inductive Drawn where
  | edge (e : Edge)
  | node (id : String) (kind : NodeKind)
deriving DecidableEq

def Drawn.edge? : Drawn → Option Edge
  | edge e => some e
  | node _ _ => none

def Drawn.node? : Drawn → Option (String × NodeKind)
  | edge _ => none
  | node id kind => some (id, kind)

/-- The characters of a quoted name from behind its opening quote, and what follows it. -/
def unquote : List Char → Option (List Char × List Char)
  | [] => none
  | '"' :: rest => some ([], rest)
  | '\\' :: [] => none
  | '\\' :: c :: rest => (unquote rest).map fun (name, rest) => (c :: name, rest)
  | c :: rest => (unquote rest).map fun (name, rest) => (c :: name, rest)

def name? (text : List Char) : Option (String × List Char) := do
  let text ← after "\"" text
  let (name, text) ← unquote text
  return (String.ofList name, text)

/-- The colour at the end of a statement. -/
def colour? (text : List Char) : Option (String × List Char) := do
  let text ← after " [color=" text
  let (colour, text) ← name? text
  let text ← after "];\n" text
  return (colour, text)

/-- The rest of an edge's statement, behind its source. -/
def edge? (source : String) (text : List Char) : Option (Drawn × List Char) := do
  let text ← after " -> " text
  let (target, text) ← name? text
  let (colour, text) ← colour? text
  let kind ← EdgeKind.ofColour? colour
  return (.edge ⟨source, target, kind⟩, text)

/-- The rest of a node's statement, behind its id. -/
def node? (id : String) (text : List Char) : Option (Drawn × List Char) := do
  let (colour, text) ← colour? text
  let kind ← NodeKind.ofColour? colour
  return (.node id kind, text)

/-- A statement with its line end. -/
def statement? (text : List Char) : Option (Drawn × List Char) := do
  let (first, text) ← name? text
  edge? first text <|> node? first text

/-- All statements up to the closing brace. -/
def statements? (text : List Char) : Option (List Drawn) :=
  if text = ['\x7d'] then some []
  else
    match statement? text with
    | none => none
    | some (s, rest) =>
      if _h : rest.length < text.length then (statements? rest).map (s :: ·) else none
termination_by text.length

/-- What a DOT text shows, in its order. -/
def decode? (text : String) : Option (List Drawn) :=
  after ("\n".intercalate heading ++ "\n") text.toList >>= statements?

/-! ## Names -/

theorem after_append (word : String) (rest : List Char) :
    after word (word.toList ++ rest) = some rest :=
  after_eq_some.2 rfl

/-- The first quote that no backslash takes with it ends the name. -/
theorem unquote_escaped (name rest : List Char) :
    unquote (name.flatMap escape ++ '"' :: rest) = some (name, rest) := by
  induction name with
  | nil => rfl
  | cons c name ih =>
    rw [List.flatMap_cons, List.append_assoc]
    by_cases hbackslash : c = '\\'
    · subst hbackslash
      have hescape : escape '\\' = ['\\', '\\'] := by decide
      rw [hescape, List.cons_append, List.singleton_append, unquote, ih]
      rfl
    · by_cases hquote : c = '"'
      · subst hquote
        have hescape : escape '"' = ['\\', '"'] := by decide
        rw [hescape, List.cons_append, List.singleton_append, unquote, ih]
        rfl
      · have hescape : escape c = [c] := by simp [escape, hbackslash, hquote]
        rw [hescape, List.singleton_append, unquote]
        · rw [ih]
          rfl
        · exact hquote
        · intro hc
          exact absurd hc hbackslash
        · intro d tail hc
          exact absurd hc hbackslash

theorem toList_quoted (s : String) :
    (quoted s).toList = "\"".toList ++ (s.toList.flatMap escape ++ ['"']) := by
  simp [quoted]

/-- A quoted name ends itself: whatever it holds and whatever follows, it is read back. -/
theorem name?_quoted (s : String) (rest : List Char) :
    name? ((quoted s).toList ++ rest) = some (s, rest) := by
  unfold name?
  rw [toList_quoted, List.append_assoc, after_append, List.append_assoc, List.singleton_append]
  simp [unquote_escaped]

/-! ## Statements -/

/-- Nothing in a colour needs to be escaped. -/
theorem quoted_edgeColour (kind : EdgeKind) : quoted kind.colour = "\"" ++ kind.colour ++ "\"" := by
  cases kind <;> decide

theorem quoted_nodeColour {kind : NodeKind} {colour : String} (h : kind.colour? = some colour) :
    quoted colour = "\"" ++ colour ++ "\"" := by
  cases kind <;> cases h <;> decide

theorem ofColour?_edgeColour (kind : EdgeKind) : EdgeKind.ofColour? kind.colour = some kind := by
  cases kind <;> decide

theorem ofColour?_nodeColour {kind : NodeKind} {colour : String} (h : kind.colour? = some colour) :
    NodeKind.ofColour? colour = some kind := by
  cases kind <;> cases h <;> decide

/-- How a statement ends. -/
def colourPart (colour : String) : String := " [color=" ++ (quoted colour ++ "];")

theorem colour?_colourPart (colour : String) (rest : List Char) :
    colour? ((colourPart colour).toList ++ '\n' :: rest) = some (colour, rest) := by
  have hclose : after "];\n" ("];".toList ++ '\n' :: rest) = some rest := after_append "];\n" rest
  unfold colour? colourPart
  rw [String.toList_append, List.append_assoc, after_append, String.toList_append,
    List.append_assoc]
  simp only [Option.bind_eq_bind, Option.bind_some, name?_quoted, hclose]
  rfl

theorem colourPart_eq {colour : String} (h : quoted colour = "\"" ++ colour ++ "\"") :
    colourPart colour = " [color=\"" ++ colour ++ "\"];" := by
  have hopen : " [color=\"" = " [color=" ++ "\"" := by decide
  have hclose : "\"];" = "\"" ++ "];" := by decide
  unfold colourPart
  rw [h, hopen, hclose]
  simp only [String.append_assoc]

theorem edgeLine_eq (e : Edge) :
    edgeLine e = quoted e.source ++ (" -> " ++ (quoted e.target ++ colourPart e.kind.colour)) := by
  have hline : edgeLine e = quoted e.source ++ " -> " ++ quoted e.target ++ " [color=\"" ++
      e.kind.colour ++ "\"];" := rfl
  rw [hline, colourPart_eq (quoted_edgeColour e.kind)]
  simp only [String.append_assoc]

theorem nodeLine_eq_ok {n : Node} {line : String} (h : nodeLine n = .ok line) :
    ∃ colour, n.kind.colour? = some colour ∧ line = quoted n.id ++ colourPart colour := by
  unfold nodeLine at h
  split at h
  next colour hcolour =>
    have hline : line = quoted n.id ++ " [color=\"" ++ colour ++ "\"];" := (Except.ok.inj h).symm
    refine ⟨colour, hcolour, ?_⟩
    rw [hline, colourPart_eq (quoted_nodeColour hcolour)]
    simp only [String.append_assoc]
  next => cases h

/-- The line is a statement that shows this, whatever comes after it. -/
def Shows (s : Drawn) (line : String) : Prop :=
  ∀ rest, statement? (line.toList ++ '\n' :: rest) = some (s, rest)

theorem shows_edgeLine (e : Edge) : Shows (.edge e) (edgeLine e) := by
  intro rest
  have hedge : edge? e.source (" -> ".toList ++ ((quoted e.target).toList ++
      ((colourPart e.kind.colour).toList ++ '\n' :: rest))) = some (.edge e, rest) := by
    unfold edge?
    rw [after_append]
    simp [name?_quoted, colour?_colourPart, ofColour?_edgeColour]
  unfold statement?
  rw [edgeLine_eq, String.toList_append, List.append_assoc, name?_quoted, String.toList_append,
    List.append_assoc, String.toList_append, List.append_assoc]
  simp only [Option.bind_eq_bind, Option.bind_some, hedge]
  rfl

/-- Behind its first name a node's statement goes on otherwise than that of an edge. -/
theorem edge?_colourPart (source colour : String) (rest : List Char) :
    edge? source ((colourPart colour).toList ++ rest) = none := by
  have harrow :
      after " -> " (" [color=".toList ++ ((quoted colour ++ "];").toList ++ rest)) = none := rfl
  unfold edge? colourPart
  rw [String.toList_append, List.append_assoc, harrow]
  rfl

theorem shows_nodeLine {n : Node} {line : String} (h : nodeLine n = .ok line) :
    Shows (.node n.id n.kind) line := by
  intro rest
  obtain ⟨colour, hcolour, rfl⟩ := nodeLine_eq_ok h
  have hnode : node? n.id ((colourPart colour).toList ++ '\n' :: rest) =
      some (.node n.id n.kind, rest) := by
    unfold node?
    simp [colour?_colourPart, ofColour?_nodeColour hcolour]
  unfold statement?
  rw [String.toList_append, List.append_assoc, name?_quoted]
  simp only [Option.bind_eq_bind, Option.bind_some, edge?_colourPart, hnode]
  rfl

/-! ## Whole drawings -/

/-- A reader of statements recovers what a run of lines shows. -/
theorem statements?_of_shows {shown : List Drawn} {lines : List String}
    (h : List.Forall₂ Shows shown lines) :
    statements? ("\n".intercalate (lines ++ ["\x7d"])).toList = some shown := by
  induction h with
  | nil =>
    rw [statements?]
    rfl
  | @cons s line shown lines hline _ ih =>
    have htext : ("\n".intercalate (line :: lines ++ ["\x7d"])).toList =
        line.toList ++ '\n' :: ("\n".intercalate (lines ++ ["\x7d"])).toList := by
      have hjoin : "\n".intercalate ([line] ++ (lines ++ ["\x7d"])) =
          line ++ "\n" ++ "\n".intercalate (lines ++ ["\x7d"]) := by
        rw [String.intercalate_append_of_ne_nil (by simp) (by simp), String.intercalate_singleton]
      rw [List.cons_append, ← List.singleton_append, hjoin, String.toList_append,
        String.toList_append, List.append_assoc]
      rfl
    generalize ("\n".intercalate (lines ++ ["\x7d"])).toList = rest at ih htext
    have hstatement := hline rest
    have hshorter : rest.length < (line.toList ++ '\n' :: rest).length := by
      rw [List.length_append, List.length_cons]
      omega
    have hopen : line.toList ++ '\n' :: rest ≠ ['\x7d'] := by
      intro hbrace
      rw [hbrace] at hstatement
      cases hstatement
    rw [htext, statements?, if_neg hopen, hstatement]
    dsimp only
    rw [dif_pos hshorter, ih]
    rfl

end Dot

open Dot (Drawn Shows shows_edgeLine shows_nodeLine)

/-- What a drawing of the graph shows: the edges with their ends and kinds, then the nodes with
their ids and kinds. -/
def drawn (g : CallGraph) : List Drawn :=
  g.edges.toList.map .edge ++ g.nodes.toList.map fun n => .node n.id n.kind

theorem shows_of_mapM {nodes : List Node} {lines : List String}
    (h : nodes.mapM Dot.nodeLine = .ok lines) :
    List.Forall₂ Shows (nodes.map fun n => Drawn.node n.id n.kind) lines := by
  induction nodes generalizing lines with
  | nil =>
    cases h
    exact .nil
  | cons n nodes ih =>
    rw [List.mapM_cons] at h
    cases hline : Dot.nodeLine n with
    | error e =>
      rw [hline] at h
      cases h
    | ok line =>
      cases hlines : nodes.mapM Dot.nodeLine with
      | error e =>
        rw [hline, hlines] at h
        cases h
      | ok others =>
        rw [hline, hlines] at h
        cases h
        exact .cons (shows_nodeLine hline) (ih hlines)

/-- Whatever graph a DOT text is the drawing of, the reader finds what it shows. -/
theorem decode?_dot {g : CallGraph} {text : String} (h : g.dot = .ok text) :
    Dot.decode? text = some g.drawn := by
  unfold dot at h
  cases hnodes : g.nodes.toList.mapM Dot.nodeLine with
  | error e =>
    rw [hnodes] at h
    cases h
  | ok nodeLines =>
    rw [hnodes] at h
    have htext : text = "\n".intercalate (Dot.heading ++ (g.edges.toList.map Dot.edgeLine ++
        nodeLines ++ ["\x7d"])) := by
      have := (Except.ok.inj h).symm
      simpa only [List.append_assoc] using this
    have hedges : List.Forall₂ Shows (g.edges.toList.map Drawn.edge)
        (g.edges.toList.map Dot.edgeLine) := by
      rw [List.forall₂_map_left_iff, List.forall₂_map_right_iff, List.forall₂_same]
      exact fun e _ => shows_edgeLine e
    have hstatements := Dot.statements?_of_shows (List.rel_append hedges (shows_of_mapM hnodes))
    have hheading : Dot.heading ≠ [] := by simp [Dot.heading]
    unfold Dot.decode?
    rw [htext, String.intercalate_append_of_ne_nil hheading (by simp), String.toList_append,
      Dot.after_append]
    exact hstatements

/-- Only a dynamic node stands in the way of a drawing. -/
theorem exists_dot_eq_ok {g : CallGraph} (h : ∀ n ∈ g.nodes, n.kind ≠ .dynamic) :
    ∃ text, g.dot = .ok text := by
  have hlines : ∀ nodes : List Node, (∀ n ∈ nodes, n.kind ≠ .dynamic) →
      ∃ lines, nodes.mapM Dot.nodeLine = .ok lines := by
    intro nodes hnodes
    induction nodes with
    | nil => exact ⟨[], rfl⟩
    | cons n nodes ih =>
      obtain ⟨lines, hlines⟩ := ih fun m hm => hnodes m (List.mem_cons_of_mem n hm)
      obtain ⟨line, hline⟩ : ∃ line, Dot.nodeLine n = .ok line := by
        have hkind := hnodes n List.mem_cons_self
        unfold Dot.nodeLine
        cases hn : n.kind with
        | dynamic => exact absurd hn hkind
        | procedure | batchProgram | onlineProgram => exact ⟨_, rfl⟩
      rw [List.mapM_cons, hline, hlines]
      exact ⟨line :: lines, rfl⟩
  obtain ⟨lines, hlines⟩ := hlines g.nodes.toList fun n hn => h n (Array.mem_toList_iff.1 hn)
  unfold dot
  rw [hlines]
  exact ⟨_, rfl⟩

theorem edges_of_drawn {g g' : CallGraph} (h : g.drawn = g'.drawn) : g.edges = g'.edges := by
  have hedges (g : CallGraph) : g.drawn.filterMap Drawn.edge? = g.edges.toList := by
    simp [drawn, Drawn.edge?, Function.comp_def]
  rw [← Array.toList_inj, ← hedges g, ← hedges g', h]

theorem nodes_of_drawn {g g' : CallGraph} (h : g.drawn = g'.drawn) :
    (g.nodes.toList.map fun n => (n.id, n.kind)) = g'.nodes.toList.map fun n => (n.id, n.kind) := by
  have hnodes (g : CallGraph) :
      g.drawn.filterMap Drawn.node? = g.nodes.toList.map fun n => (n.id, n.kind) := by
    simp [drawn, Drawn.node?, Function.comp_def]
  rw [← hnodes g, ← hnodes g', h]

/-- **The DOT text is uniquely decodable.** A graph without dynamic nodes has a drawing, from which
the reader recovers its edges in order, with their ends and kinds, and then its nodes in order,
with their ids and kinds. So graphs with the same drawing have the same of these. -/
theorem dot_uniquely_decodable :
    (∀ g : CallGraph, (∀ n ∈ g.nodes, n.kind ≠ .dynamic) →
      ∃ text, g.dot = .ok text ∧ Dot.decode? text = some g.drawn) ∧
    (∀ (g g' : CallGraph) (text : String), g.dot = .ok text → g'.dot = .ok text →
      g.edges = g'.edges ∧
      (g.nodes.toList.map fun n => (n.id, n.kind)) =
        g'.nodes.toList.map fun n => (n.id, n.kind)) := by
  constructor
  · intro g hg
    obtain ⟨text, htext⟩ := exists_dot_eq_ok hg
    exact ⟨text, htext, decode?_dot htext⟩
  · intro g g' text htext htext'
    have hsame : g.drawn = g'.drawn :=
      Option.some.inj ((decode?_dot htext).symm.trans (decode?_dot htext'))
    exact ⟨edges_of_drawn hsame, nodes_of_drawn hsame⟩

/-- Ids with quotes, backslashes and line feeds, one of them a whole drawing's end. -/
def hostileGraph : CallGraph :=
  ((((empty true).addNode "A\" -> \"B" .procedure {}).2.addNode "\\" .batchProgram {}).2.addEdge
    "\"];\n\x7d" "\\\"" .remoteLink).2

theorem hostileGraph_decodable :
    (∀ n ∈ hostileGraph.nodes, n.kind ≠ .dynamic) ∧
      ∃ text, hostileGraph.dot = .ok text ∧
        Dot.decode? text = some [.edge ⟨"\"];\n\x7d", "\\\"", .remoteLink⟩,
          .node "A\" -> \"B" .procedure, .node "\\" .batchProgram] := by
  have hnodes : hostileGraph.nodes.toList.map Node.kind = [.procedure, .batchProgram] := by
    decide +kernel
  have hstyled : ∀ n ∈ hostileGraph.nodes, n.kind ≠ .dynamic := by
    intro n hn hdynamic
    have hmem := List.mem_map_of_mem (f := Node.kind) (Array.mem_toList_iff.2 hn)
    rw [hnodes, hdynamic] at hmem
    simp at hmem
  have hdrawn : hostileGraph.drawn = [.edge ⟨"\"];\n\x7d", "\\\"", .remoteLink⟩,
      .node "A\" -> \"B" .procedure, .node "\\" .batchProgram] := by decide +kernel
  obtain ⟨text, htext, hdecode⟩ := dot_uniquely_decodable.1 hostileGraph hstyled
  rw [hdrawn] at hdecode
  exact ⟨hstyled, text, htext, hdecode⟩

end CallGraph
end CobolCalls
