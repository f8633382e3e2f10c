import CobolCalls.Proofs.Clauses
import CobolCalls.Proofs.Concatenation
import CobolCalls.Proofs.Precedence

/-
  What the fields of joined texts are. A line declares at most one field, with the literal of its
  last VALUE clause, and of several lines that declare a field the last one counts. So the fields of
  texts joined by line feeds are those of the texts, and where two texts declare the same field the
  later one wins.

  The line feed that joins two texts may take a carriage return from the last line of the first, or
  make an empty line behind it. Neither changes what is declared (`Fields.declarations_feed`).
-/

namespace CobolCalls

open Statement

/-! ## One dictionary over another -/

namespace Dict

variable {α : Type}

/-- Both dictionaries as one; a name that both have keeps the value of the second. -/
def overlay (d d' : Dict α) : Dict α := d.extend d'.entries

theorem get?_overlay (d d' : Dict α) (x : String) :
    (d.overlay d').get? x = (d'.get? x <|> d.get? x) := by
  rw [overlay, get?_extend, ofList_entries]

theorem ofList_append (entries more : List (String × α)) :
    ofList (entries ++ more) = (ofList entries).overlay (ofList more) := by
  refine ext_get? fun x => ?_
  have hextend : ofList (entries ++ more) = (ofList entries).extend more := by
    simp [ofList, extend]
  rw [hextend, get?_extend, get?_overlay]

theorem ofList_flatMap {β : Type} (f : β → List (String × α)) (items : List β) :
    ofList (items.flatMap f) = (items.map fun item => ofList (f item)).foldl overlay ∅ := by
  induction items using List.reverseRecOn with
  | nil => rfl
  | append_singleton items item ih =>
    rw [List.flatMap_append, List.flatMap_singleton, ofList_append, ih, List.map_append,
      List.foldl_append]
    rfl

end Dict

/-! ## Declarations of joined texts -/

namespace Fields

theorem declarations_append (lines more : List Line) :
    declarations (lines ++ more) = declarations lines ++ declarations more := by
  unfold declarations
  rw [List.filter_append, List.filterMap_append]

/-- A line feed at the end of a text declares nothing, whatever it does to the last line. -/
theorem declarations_feed (text : List Char) :
    declarations (Text.linesAfter [] (text ++ ['\n'])) =
      declarations (Text.linesAfter [] text) := by
  rcases Text.linesAfter_concat_feed [] text with
    heq | ⟨lines, last, closed, hlines, hclosed, hlast⟩
  · rw [heq]
    exact declarations_append_blank (by simp [blank_nil]) _
  · have hink : SameInk closed last := by
      rcases hlast with rfl | rfl
      · exact ⟨[], [], blank_nil, blank_nil, rfl⟩
      · exact sameInk_append closed (by simp [Blank, Text.isBlank])
    rw [hlines, hclosed, declarations_append, declarations_append,
      declarations_sameInk (.cons hink .nil)]

theorem declarations_intercalate (texts : List String) :
    declarations (Text.lines ("\n".intercalate texts)) =
      texts.flatMap fun text => declarations (Text.lines text) := by
  induction texts with
  | nil => rfl
  | cons text rest ih =>
    cases rest with
    | nil => rw [String.intercalate_singleton, List.flatMap_singleton]
    | cons next others =>
      rw [String.intercalate_cons_cons, Text.lines_join, declarations_append, declarations_feed, ih,
        List.flatMap_cons]
      rfl

theorem ofSource_intercalate (texts : List String) :
    ofSource ("\n".intercalate texts) = (texts.map ofSource).foldl Dict.overlay ∅ := by
  have hsource (text : String) : ofSource text = Dict.ofList (declarations (Text.lines text)) := rfl
  rw [hsource, declarations_intercalate, Dict.ofList_flatMap]
  rfl

/-- **The last literal of the last declaration counts.** A line declares a field with the literal of
its last VALUE clause. The fields of texts joined by line feeds are those of the texts, a later text
going before an earlier one, and the value of each field is that of the last line that declares it
and is no comment. -/
theorem last_literal_of_last_declaration :
    (∀ line : Line, '\n' ∉ line → ∀ field value,
      fieldDeclaration line = some (field, value) ↔ DeclarationText (field, value) line) ∧
    ∀ texts : List String,
      ofSource ("\n".intercalate texts) = (texts.map ofSource).foldl Dict.overlay ∅ ∧
      ∀ field declared, (ofSource ("\n".intercalate texts)).get? field = declared ↔
        LastWord Declares (Text.lines ("\n".intercalate texts)) field declared := by
  refine ⟨fun line hline field value => fieldDeclaration_eq_some_iff hline, fun texts => ?_⟩
  exact ⟨ofSource_intercalate texts, fun field declared => get?_fields_eq_iff⟩

/-- The second clause of the last line counts. -/
example : (ofSource ("\n".intercalate ["        01 F PIC X VALUE 'A'.\r", "",
    "        02 F PIC X VALUE 'B'. VALUE \"C\"."])).get? "F" = some "C" := by
  decide

end Fields
end CobolCalls
