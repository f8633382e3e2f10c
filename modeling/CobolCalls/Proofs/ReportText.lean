import CobolCalls.Proofs.Dictionaries
import CobolCalls.Proofs.JsonSpelling
import CobolCalls.Report

/-
  Reports read back. The text of a report, pretty or compact, is read as the report it was written
  from, and so is written again as the same text.

  The text of a value is read as that value, as long as it is nested no deeper than the reader
  goes. The JSON form of a report is then taken apart member by member.
-/

namespace CobolCalls.Json

/-! ## Typed values from their forms -/

section Forms

variable {α : Type}

theorem asList?_map {write : α → Json} {read : Json → Option α} {items : List α}
    (h : ∀ x ∈ items, read (write x) = some x) :
    asList? read (.arr (items.map write)) = some items :=
  mapM_map_eq_some h

theorem asDict?_ofDict {write : α → Json} {read : Json → Option α} {d : Dict α}
    (h : ∀ e ∈ d.entries, read (write e.2) = some e.2) :
    asDict? read (ofDict write d) = some d := by
  have form : ofDict write d = .obj (d.entries.map fun e => (e.1, write e.2)) := rfl
  have entries : (d.entries.map fun e => (e.1, write e.2)).mapM
      (fun m : String × Json => (read m.2).map (m.1, ·)) = some d.entries :=
    mapM_map_eq_some fun e he => by simp [h e he]
  rw [form, asDict?, entries, Option.map_some, Dict.ofList_entries]

end Forms

/-- Values whose objects are dictionaries, at every depth. -/
inductive Ordered : Json → Prop where
  | null : Ordered .null
  | bool (b : Bool) : Ordered (.bool b)
  | num (n : Number) : Ordered (.num n)
  | str (s : String) : Ordered (.str s)
  | arr {items : List Json} (h : ∀ j ∈ items, Ordered j) : Ordered (.arr items)
  | obj {members : List (String × Json)} (ascending : members.Pairwise (fun a b => a.1 < b.1))
    (h : ∀ m ∈ members, Ordered m.2) : Ordered (.obj members)

theorem allWhole_eq_all (items : List Json) : allWhole items = items.all isWhole := by
  induction items with
  | nil => rfl
  | cons j items ih => rw [allWhole, ih, List.all_cons]

theorem membersWhole_eq_all (members : List (String × Json)) :
    membersWhole members = members.all fun m => isWhole m.2 := by
  induction members with
  | nil => rfl
  | cons m members ih => rw [membersWhole, ih, List.all_cons]

theorem sortedItems_eq_map (items : List Json) : sortedItems items = items.map sorted := by
  induction items with
  | nil => rfl
  | cons j items ih => rw [sortedItems, ih, List.map_cons]

theorem sortedMembers_eq_map (members : List (String × Json)) :
    sortedMembers members = members.map fun m => (m.1, m.2.sorted) := by
  induction members with
  | nil => rfl
  | cons m members ih => rw [sortedMembers, ih, List.map_cons]

theorem Ordered.isWhole {j : Json} (h : Ordered j) : j.isWhole = true := by
  induction h with
  | null | bool | num | str => rfl
  | arr _ ih =>
    rw [Json.isWhole, allWhole_eq_all]
    exact List.all_eq_true.2 ih
  | obj _ _ ih =>
    rw [Json.isWhole, membersWhole_eq_all]
    exact List.all_eq_true.2 ih

theorem Ordered.sorted_eq {j : Json} (h : Ordered j) : j.sorted = j := by
  induction h with
  | null | bool | num | str => rfl
  | @arr items _ ih =>
    have same : items.map sorted = items := (List.map_congr_left ih).trans (List.map_id _)
    rw [sorted, sortedItems_eq_map, same]
  | @obj members ascending _ ih =>
    have same : (members.map fun m => (m.1, m.2.sorted)) = members :=
      (List.map_congr_left fun m hm => by rw [ih m hm]; rfl).trans (List.map_id _)
    rw [sorted, sortedMembers_eq_map, same, Dict.ofList_entries ⟨members, ascending⟩]

theorem Ordered.asAny?_eq {j : Json} (h : Ordered j) : j.asAny? = some j := by
  rw [asAny?, h.isWhole, h.sorted_eq]
  rfl

end CobolCalls.Json

namespace CobolCalls

/-! ## The parts of a report from their forms -/

theorem NodeKind.ofJson?_toJson (k : NodeKind) : NodeKind.ofJson? k.toJson = some k := by
  cases k <;> decide

theorem EdgeKind.ofJson?_toJson (k : EdgeKind) : EdgeKind.ofJson? k.toJson = some k := by
  cases k <;> decide

theorem NodeData.ofJson?_toJson (d : NodeData) : NodeData.ofJson? d.toJson = some d := by
  have fields : Json.asDict? (Json.asList? Json.asString?) (Json.ofDict Json.ofStrings d.fields) =
      some d.fields := Json.asDict?_ofDict fun _ _ => Json.asList?_map fun _ _ => rfl
  simp [NodeData.ofJson?, NodeData.toJson, Json.slots?, List.lookup_cons, Json.optional, fields]

theorem Node.ofJson?_toJson (n : Node) : Node.ofJson? n.toJson = some n := by
  simp [Node.ofJson?, Node.toJson, Json.slots?, List.lookup_cons, Json.required, Json.optional,
    Json.asString?, NodeKind.ofJson?_toJson, NodeData.ofJson?_toJson]

theorem Edge.ofJson?_toJson (e : Edge) : Edge.ofJson? e.toJson = some e := by
  simp [Edge.ofJson?, Edge.toJson, Json.slots?, List.lookup_cons, Json.required, Json.asString?,
    EdgeKind.ofJson?_toJson]

theorem FileSummary.ofJson?_toJson (f : FileSummary) : FileSummary.ofJson? f.toJson = some f := by
  simp [FileSummary.ofJson?, FileSummary.toJson, Json.slots?, List.lookup_cons, Json.required,
    Json.asString?, Json.asNat?, Json.ofNat]

/-! ## The depth of a form -/

theorem Json.fits_ofNat {room n : Nat} (h : n ≤ maxNat) : Fits room (ofNat n) := .num h

theorem Json.fits_ofDict {α : Type} {room : Nat} {write : α → Json} {d : Dict α}
    (h : ∀ e ∈ d.entries, Fits room (write e.2)) : Fits (room + 1) (ofDict write d) := by
  refine .obj fun m hm => ?_
  obtain ⟨e, he, rfl⟩ := List.mem_map.1 hm
  exact h e he

theorem Json.fits_map {α : Type} {room : Nat} {write : α → Json} {items : List α}
    (h : ∀ x ∈ items, Fits room (write x)) : Fits (room + 1) (.arr (items.map write)) := by
  refine .arr fun j hj => ?_
  obtain ⟨x, hx, rfl⟩ := List.mem_map.1 hj
  exact h x hx

theorem Json.fits_ofStrings {room : Nat} (items : List String) :
    Fits (room + 1) (ofStrings items) := fits_map fun s _ => .str s

theorem FileSummary.fits_toJson {room : Nat} {f : FileSummary} (hlines : f.lines ≤ Json.maxNat)
    (hnodes : f.nodes ≤ Json.maxNat) (hedges : f.edges ≤ Json.maxNat) :
    Json.Fits (room + 1) f.toJson := by
  refine .obj fun m hm => ?_
  simp only [List.mem_cons, List.not_mem_nil, or_false] at hm
  rcases hm with rfl | rfl | rfl | rfl
  · exact .str _
  · exact Json.fits_ofNat hlines
  · exact Json.fits_ofNat hnodes
  · exact Json.fits_ofNat hedges

theorem NodeData.fits_toJson {room : Nat} (d : NodeData) : Json.Fits (room + 3) d.toJson := by
  refine .obj fun m hm => ?_
  obtain rfl := List.mem_singleton.1 hm
  exact Json.fits_ofDict fun e _ => Json.fits_ofStrings e.2

theorem Node.fits_toJson {room : Nat} (n : Node) : Json.Fits (room + 4) n.toJson := by
  refine .obj fun m hm => ?_
  simp only [List.mem_cons, List.not_mem_nil, or_false] at hm
  rcases hm with rfl | rfl | rfl | rfl
  · exact .str _
  · exact .str _
  · exact .str _
  · exact n.data.fits_toJson

theorem Edge.fits_toJson {room : Nat} (e : Edge) : Json.Fits (room + 1) e.toJson := by
  refine .obj fun m hm => ?_
  simp only [List.mem_cons, List.not_mem_nil, or_false] at hm
  rcases hm with rfl | rfl | rfl <;> exact .str _

/-! ## Whole reports -/

namespace Report

/-- The report that a text spells. -/
def read? (text : String) : Option Report := Json.parse? text >>= ofJson?

/-- Reports that JSON text can hold: counts of 64 bits, and in metadata and stats dictionaries
that are nested no deeper than is read, with numbers that stand for themselves. -/
structure Writable (r : Report) : Prop where
  metadata : ∀ e ∈ r.metadata.entries, e.2.Fits (Json.maxDepth - 2) ∧ e.2.Ordered
  stats : ∀ e ∈ r.stats.entries, e.2.Fits (Json.maxDepth - 2) ∧ e.2.Ordered
  files : ∀ f ∈ r.files, f.lines ≤ Json.maxNat ∧ f.nodes ≤ Json.maxNat ∧ f.edges ≤ Json.maxNat

variable {r : Report}

theorem Writable.fits (h : r.Writable) : Json.Fits Json.maxDepth r.toJson := by
  refine .obj fun m hm => ?_
  simp only [List.mem_cons, List.not_mem_nil, or_false] at hm
  rcases hm with rfl | rfl | rfl | rfl | rfl | rfl
  · exact .str _
  · exact Json.fits_ofDict fun e he => (h.metadata e he).1
  · exact Json.fits_ofDict fun e he => (h.stats e he).1
  · exact Json.fits_map fun f hf =>
      FileSummary.fits_toJson (h.files f hf).1 (h.files f hf).2.1 (h.files f hf).2.2
  · exact Json.fits_map fun n _ => n.fits_toJson
  · exact Json.fits_map fun e _ => e.fits_toJson

theorem Writable.ofJson?_toJson (h : r.Writable) : ofJson? r.toJson = some r := by
  have metadata : Json.asDict? Json.asAny? (Json.ofDict id r.metadata) = some r.metadata :=
    Json.asDict?_ofDict fun e he => (h.metadata e he).2.asAny?_eq
  have stats : Json.asDict? Json.asAny? (Json.ofDict id r.stats) = some r.stats :=
    Json.asDict?_ofDict fun e he => (h.stats e he).2.asAny?_eq
  have files : Json.asList? FileSummary.ofJson? (.arr (r.files.map FileSummary.toJson)) =
      some r.files := Json.asList?_map fun f _ => f.ofJson?_toJson
  have nodes : Json.asList? Node.ofJson? (.arr (r.nodes.map Node.toJson)) = some r.nodes :=
    Json.asList?_map fun n _ => n.ofJson?_toJson
  have edges : Json.asList? Edge.ofJson? (.arr (r.edges.map Edge.toJson)) = some r.edges :=
    Json.asList?_map fun e _ => e.ofJson?_toJson
  simp [ofJson?, toJson, Json.slots?, List.lookup_cons, Json.optional, Json.asString?, metadata,
    stats, files, nodes, edges]

/-- **Reports read back.** A report is read from its text, pretty or compact, as it was written,
and what is read is written as the same text. -/
theorem written_reports_read_back (h : r.Writable) :
    (read? r.text = some r ∧ (read? r.text).map text = some r.text) ∧
      read? r.toJson.compact = some r ∧
      (read? r.toJson.compact).map (fun read => read.toJson.compact) = some r.toJson.compact := by
  have pretty : read? r.text = some r := by
    rw [read?, text, h.fits.parse?_pretty, Option.bind_eq_bind, Option.bind_some, h.ofJson?_toJson]
  have compact : read? r.toJson.compact = some r := by
    rw [read?, h.fits.parse?_compact, Option.bind_eq_bind, Option.bind_some, h.ofJson?_toJson]
  refine ⟨⟨pretty, ?_⟩, compact, ?_⟩
  · rw [pretty, Option.map_some]
  · rw [compact, Option.map_some]

/-- A report with escapes of every sort, empty containers and numbers at the bounds. -/
def crowdedReport : Report where
  version := "1.0\x01"
  metadata := ⟨[("", .arr []), ("inputs", .arr [.str "a\"b\\c", .obj [], .null]),
    ("parse_options", .obj [("\t", .num (.neg 0x8000000000000000)), ("n", .bool true)])], by decide⟩
  stats := ⟨[("lines", .num (.nat Json.maxNat))], by decide⟩
  files := [⟨"a\nb.cbl", 3, 2, Json.maxNat⟩]
  nodes := [⟨"P", "P", .procedure, ⟨⟨[("F\x7f", ["2", "1", "2"]), ("G", [])], by decide⟩⟩⟩,
    ⟨"Q", "é", .dynamic, ⟨∅⟩⟩]
  edges := [⟨"P", "Q", .remoteLink⟩]

theorem writable_crowdedReport : crowdedReport.Writable where
  metadata := by
    intro e he
    simp only [crowdedReport, List.mem_cons, List.not_mem_nil, or_false] at he
    rcases he with rfl | rfl | rfl
    · exact ⟨.arr (by simp), .arr (by simp)⟩
    · refine ⟨.arr ?_, .arr ?_⟩ <;> rw [List.forall_mem_cons, List.forall_mem_cons,
        List.forall_mem_singleton]
      · exact ⟨.str _, .obj (by simp), .null⟩
      · exact ⟨.str _, .obj .nil (by simp), .null⟩
    · refine ⟨.obj ?_, .obj (by decide) ?_⟩ <;> rw [List.forall_mem_cons,
        List.forall_mem_singleton]
      · exact ⟨.num ⟨by decide, by decide⟩, .bool _⟩
      · exact ⟨.num _, .bool _⟩
  stats := by
    intro e he
    obtain rfl := List.mem_singleton.1 he
    exact ⟨.num (Nat.le_refl _), .num _⟩
  files := by
    intro f hf
    obtain rfl := List.mem_singleton.1 hf
    decide

theorem crowdedReport_reads_back :
    crowdedReport.Writable ∧ read? crowdedReport.text = some crowdedReport ∧
      read? crowdedReport.toJson.compact = some crowdedReport := by
  obtain ⟨pretty, compact⟩ := written_reports_read_back writable_crowdedReport
  exact ⟨writable_crowdedReport, pretty.1, compact.1⟩

end Report
end CobolCalls
