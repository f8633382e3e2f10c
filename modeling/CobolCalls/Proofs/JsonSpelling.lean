import CobolCalls.Json.Reader
import CobolCalls.Proofs.JsonTokens
import Mathlib.Tactic.Simps.Basic

/-
  The grammar of JSON text and its reader. `Spelled room text p` says what a stretch of text
  stands for: a value, a member, or the rest of a container after its first item or member, with
  at most `room` containers inside each other. Blanks may stand in front of every token.

  Whatever is spelled is read (`Spelled.parse?_eq`). The text of a value, pretty or compact, spells
  it (`Fits.spelled`), so it is read as that value. A grammar that knows nothing of the writer
  covers the texts of others too.
-/

namespace CobolCalls.Json

/-! ## The grammar -/

/-- What a stretch of text stands for. -/
inductive Phrase where
  | value (j : Json)
  | member (name : String) (j : Json)
  /-- The items after the first, and the end of the array. -/
  | items (rest : List Json)
  /-- The members after the first, and the end of the object. -/
  | members (rest : List (String × Json))

inductive Spelled : Nat → List Char → Phrase → Prop where
  | null {room : Nat} : Spelled room ['n', 'u', 'l', 'l'] (.value .null)
  | yes {room : Nat} : Spelled room ['t', 'r', 'u', 'e'] (.value (.bool true))
  | no {room : Nat} : Spelled room ['f', 'a', 'l', 's', 'e'] (.value (.bool false))
  | num {room : Nat} {text : List Char} {n : Option Number} (h : number? text = some (n, [])) :
    Spelled room text (.value ((n.map .num).getD .void))
  | str {room : Nat} {body : List Char} {s : Option String} (h : string? body = some (s, [])) :
    Spelled room ('"' :: body) (.value ((s.map .str).getD .void))
  | padded {room : Nat} {blank text : List Char} {j : Json} (hblank : Blank blank)
    (h : Spelled room text (.value j)) : Spelled room (blank ++ text) (.value j)
  | noItems {room : Nat} {blank : List Char} (hblank : Blank blank) :
    Spelled (room + 1) ('[' :: (blank ++ [']'])) (.value (.arr []))
  | array {room : Nat} {text tail : List Char} {j : Json} {js : List Json}
    (first : Spelled room text (.value j)) (others : Spelled room tail (.items js)) :
    Spelled (room + 1) ('[' :: (text ++ tail)) (.value (.arr (j :: js)))
  | lastItem {room : Nat} {blank : List Char} (hblank : Blank blank) :
    Spelled room (blank ++ [']']) (.items [])
  | nextItem {room : Nat} {blank text tail : List Char} {j : Json} {js : List Json}
    (hblank : Blank blank) (first : Spelled room text (.value j))
    (others : Spelled room tail (.items js)) :
    Spelled room (blank ++ ',' :: (text ++ tail)) (.items (j :: js))
  | member {room : Nat} {blank body gap text : List Char} {name : String} {j : Json}
    (hblank : Blank blank) (named : string? body = some (some name, [])) (hgap : Blank gap)
    (h : Spelled room text (.value j)) :
    Spelled room (blank ++ ('"' :: body ++ (gap ++ ':' :: text))) (.member name j)
  | noMembers {room : Nat} {blank : List Char} (hblank : Blank blank) :
    Spelled (room + 1) ('\x7b' :: (blank ++ ['\x7d'])) (.value (.obj []))
  | object {room : Nat} {text tail : List Char} {name : String} {j : Json}
    {ms : List (String × Json)} (first : Spelled room text (.member name j))
    (others : Spelled room tail (.members ms)) :
    Spelled (room + 1) ('\x7b' :: (text ++ tail)) (.value (.obj ((name, j) :: ms)))
  | lastMember {room : Nat} {blank : List Char} (hblank : Blank blank) :
    Spelled room (blank ++ ['\x7d']) (.members [])
  | nextMember {room : Nat} {blank text tail : List Char} {name : String} {j : Json}
    {ms : List (String × Json)} (hblank : Blank blank)
    (first : Spelled room text (.member name j)) (others : Spelled room tail (.members ms)) :
    Spelled room (blank ++ ',' :: (text ++ tail)) (.members ((name, j) :: ms))

/-! ## The machine -/

/-- What is read from its written form item by item is read as a whole. -/
theorem mapM_map_eq_some {α β : Type} {write : α → β} {read : β → Option α} {items : List α}
    (h : ∀ x ∈ items, read (write x) = some x) : (items.map write).mapM read = some items := by
  induction items with
  | nil => rfl
  | cons x items ih =>
    have others := ih fun y hy => h y (List.mem_cons_of_mem _ hy)
    simp [h x List.mem_cons_self, others]

theorem contained_of_room {around : List Frame} (h : around.length < maxDepth) (j : Json) :
    contained around (some j) = j := by
  have room : hasRoom around = true := by
    rw [hasRoom, List.length_take]
    exact decide_eq_true (by omega)
  simp [contained, room]

/-- Members that are done, last first, as the machine keeps them. -/
def doneMembers (members : List (String × Json)) : List (Option String × Json) :=
  (members.map fun m => (some m.1, m.2)).reverse

theorem doneMembers_concat (members : List (String × Json)) (name : String) (j : Json) :
    doneMembers (members ++ [(name, j)]) = (some name, j) :: doneMembers members := by
  simp [doneMembers]

theorem object?_doneMembers (members : List (String × Json)) :
    object? (doneMembers members) = some (.obj members) := by
  have named : (members.map fun m => (some m.1, m.2)).mapM
      (fun m : Option String × Json => m.1.map (·, m.2)) = some members :=
    mapM_map_eq_some fun _ _ => rfl
  rw [object?, doneMembers, List.reverse_reverse, named]
  rfl

/-- The tokens take the machine from one state to another. -/
def Leads (ts : List Token) (p q : Progress) : Prop := ts.foldlM Progress.step p = some q

theorem Leads.append {ts ts' : List Token} {p q r : Progress} (h : Leads ts p q)
    (h' : Leads ts' q r) : Leads (ts ++ ts') p r := by
  rw [Leads] at h h' ⊢
  rw [List.foldlM_append, h]
  exact h'

theorem Leads.cons {t : Token} {ts : List Token} {p q r : Progress} (h : p.step t = some q)
    (h' : Leads ts q r) : Leads (t :: ts) p r := by
  rw [Leads] at h' ⊢
  rw [List.foldlM_cons, h]
  exact h'

theorem leads_nil (p : Progress) : Leads [] p p := rfl

/-- The first item of an array is read like any other value inside it: no value starts with the
end of an array. -/
theorem Leads.firstItem {ts : List Token} {j : Json} {around : List Frame}
    (h : Leads ts (.value (.items [] :: around)) (.complete j (.items [] :: around))) :
    Leads ts (.firstItem around) (.complete j (.items [] :: around)) := by
  cases ts with
  | nil => cases h
  | cons t ts =>
    cases t with
    | closeArray => cases h
    | _ => exact h

/-! ## What is spelled is read -/

/-- A stretch of text gives tokens that take the machine from before what the text stands for to
behind it, inside the containers around it. -/
def Phrase.Read (room : Nat) (text : List Char) : Phrase → Prop
  | .value j => ∃ ts, (∀ rest, EndsNumber rest → Lexes text ts rest) ∧
      ∀ around, around.length + room ≤ maxDepth →
        Leads ts (.value around) (.complete j around)
  | .member name j => ∃ ts, (∀ rest, EndsNumber rest →
        Lexes text (.str (some name) :: .colon :: ts) rest) ∧
      ∀ around, around.length + room ≤ maxDepth → Leads ts (.value around) (.complete j around)
  | .items js => ∃ ts, (∀ rest, EndsNumber (text ++ rest) ∧ Lexes text ts rest) ∧
      ∀ around, around.length + room < maxDepth → ∀ done v,
        Leads ts (.complete v (.items done :: around))
          (.complete (.arr (done.reverse ++ v :: js)) around)
  | .members ms => ∃ ts, (∀ rest, EndsNumber (text ++ rest) ∧ Lexes text ts rest) ∧
      ∀ around, around.length + room < maxDepth → ∀ done name v,
        Leads ts (.complete v (.members (doneMembers done) (some name) :: around))
          (.complete (.obj (done ++ (name, v) :: ms)) around)

/-- A mark in front of which blanks may stand ends a number, and is a token of its own. -/
theorem lexes_blank_mark {blank text rest : List Char} {c : Char} {t : Token} {ts : List Token}
    (hblank : Blank blank) (hends : continuesNumber c = false) (hs : isSpace c = false)
    (ht : token? (c :: (text ++ rest)) = some (t, text ++ rest)) (h : Lexes text ts rest) :
    EndsNumber (blank ++ c :: text ++ rest) ∧ Lexes (blank ++ c :: text) (t :: ts) rest := by
  refine ⟨?_, (h.after_mark hs ht).after_blank hblank⟩
  rw [List.append_assoc]
  exact hblank.endsNumber (endsNumber_cons hends _)

theorem Spelled.read {room : Nat} {text : List Char} {p : Phrase} (h : Spelled room text p) :
    p.Read room text := by
  -- each container around a value takes up one level of the depth that is read
  induction h with
  | null =>
    exact ⟨[.null], fun _ _ => lexes_token (by simp) (by simp [isSpace]) rfl, fun _ _ => rfl⟩
  | yes =>
    exact ⟨[.bool true], fun _ _ => lexes_token (by simp) (by simp [isSpace]) rfl, fun _ _ => rfl⟩
  | no =>
    exact ⟨[.bool false], fun _ _ => lexes_token (by simp) (by simp [isSpace]) rfl, fun _ _ => rfl⟩
  | @num _ _ n h => exact ⟨[.num n], fun _ hrest => lexes_number h hrest, fun _ _ => rfl⟩
  | @str _ _ s h => exact ⟨[.str s], fun rest _ => lexes_string h rest, fun _ _ => rfl⟩
  | padded hblank _ ih =>
    obtain ⟨ts, hlex, hleads⟩ := ih
    exact ⟨ts, fun rest hrest => (hlex rest hrest).after_blank hblank, hleads⟩
  | noItems hblank =>
    refine ⟨[.openArray, .closeArray], fun rest _ => ?_, fun around hroom => ?_⟩
    · have closing := (lexes_blank blank_nil rest).after_mark (c := ']') rfl rfl
      exact (closing.after_blank hblank).after_mark rfl rfl
    · refine .cons rfl (.cons ?_ (leads_nil _))
      show some (Progress.complete (contained around (some (.arr []))) around) = _
      rw [contained_of_room (by omega)]
  | array _ _ first others =>
    obtain ⟨ts, hlex, hleads⟩ := first
    obtain ⟨ts', hlex', hleads'⟩ := others
    refine ⟨.openArray :: (ts ++ ts'), fun rest _ => ?_, fun around hroom => ?_⟩
    · obtain ⟨hends, htail⟩ := hlex' rest
      exact ((hlex _ hends).append htail).after_mark rfl rfl
    · have item := hleads (.items [] :: around) (by rw [List.length_cons]; omega)
      exact .cons rfl (item.firstItem.append (hleads' around (by omega) [] _))
  | lastItem hblank =>
    refine ⟨[.closeArray], fun rest => ?_, fun around hroom done v => ?_⟩
    · exact lexes_blank_mark hblank rfl rfl rfl (lexes_blank blank_nil rest)
    · refine .cons ?_ (leads_nil _)
      show some (Progress.complete (contained around (some (.arr (v :: done).reverse))) around) = _
      rw [contained_of_room (by omega), List.reverse_cons]
  | nextItem hblank _ _ first others =>
    obtain ⟨ts, hlex, hleads⟩ := first
    obtain ⟨ts', hlex', hleads'⟩ := others
    refine ⟨.comma :: (ts ++ ts'), fun rest => ?_, fun around hroom done v => ?_⟩
    · obtain ⟨hends, htail⟩ := hlex' rest
      exact lexes_blank_mark hblank rfl rfl rfl ((hlex _ hends).append htail)
    · have item := hleads (.items (v :: done) :: around) (by rw [List.length_cons]; omega)
      have tail := hleads' around hroom (v :: done)
      simp only [List.reverse_cons, List.append_assoc, List.singleton_append] at tail
      exact .cons rfl (item.append (tail _))
  | member hblank named hgap _ ih =>
    obtain ⟨ts, hlex, hleads⟩ := ih
    refine ⟨ts, fun rest hrest => ?_, hleads⟩
    have value := ((hlex rest hrest).after_mark (c := ':') rfl rfl).after_blank hgap
    exact ((lexes_string named _).append value).after_blank hblank
  | noMembers hblank =>
    refine ⟨[.openObject, .closeObject], fun rest _ => ?_, fun around hroom => ?_⟩
    · have closing := (lexes_blank blank_nil rest).after_mark (c := '\x7d') rfl rfl
      exact (closing.after_blank hblank).after_mark rfl rfl
    · refine .cons rfl (.cons ?_ (leads_nil _))
      have empty : object? [] = some (.obj []) := object?_doneMembers []
      show some (Progress.complete (contained around (object? [])) around) = _
      rw [empty, contained_of_room (by omega)]
  | @object _ _ _ name _ _ _ _ first others =>
    obtain ⟨ts, hlex, hleads⟩ := first
    obtain ⟨ts', hlex', hleads'⟩ := others
    refine ⟨.openObject :: .str (some name) :: .colon :: (ts ++ ts'), fun rest _ => ?_,
      fun around hroom => ?_⟩
    · obtain ⟨hends, htail⟩ := hlex' rest
      exact ((hlex _ hends).append htail).after_mark rfl rfl
    · have value := hleads (.members [] (some name) :: around) (by rw [List.length_cons]; omega)
      exact .cons rfl (.cons rfl (.cons rfl (value.append (hleads' around (by omega) [] name _))))
  | lastMember hblank =>
    refine ⟨[.closeObject], fun rest => ?_, fun around hroom done name v => ?_⟩
    · exact lexes_blank_mark hblank rfl rfl rfl (lexes_blank blank_nil rest)
    · refine .cons ?_ (leads_nil _)
      show some (Progress.complete (contained around (object? ((some name, v) :: doneMembers done)))
        around) = _
      rw [← doneMembers_concat, object?_doneMembers, contained_of_room (by omega)]
  | @nextMember _ _ _ _ next _ _ hblank _ _ first others =>
    obtain ⟨ts, hlex, hleads⟩ := first
    obtain ⟨ts', hlex', hleads'⟩ := others
    refine ⟨.comma :: .str (some next) :: .colon :: (ts ++ ts'), fun rest => ?_,
      fun around hroom done name v => ?_⟩
    · obtain ⟨hends, htail⟩ := hlex' rest
      exact lexes_blank_mark hblank rfl rfl rfl ((hlex _ hends).append htail)
    · -- the member that is complete joins those done, and the next one is being read
      have value := hleads (.members (doneMembers (done ++ [(name, v)])) (some next) :: around)
        (by rw [List.length_cons]; omega)
      have tail := hleads' around hroom (done ++ [(name, v)]) next
      rw [doneMembers_concat] at value tail
      simp only [List.append_assoc, List.singleton_append] at tail
      exact .cons rfl (.cons rfl (.cons rfl (value.append (tail _))))

/-- Text that spells a value is read as it. -/
theorem Spelled.parse?_eq {text after : List Char} {j : Json}
    (h : Spelled maxDepth text (.value j)) (hafter : Blank after) :
    parse? (String.ofList (text ++ after)) = some j := by
  obtain ⟨ts, hlex, hleads⟩ := h.read
  have hends : EndsNumber (after ++ []) := hafter.endsNumber (by simp [EndsNumber])
  have whole := (hlex _ hends).append (lexes_blank hafter []) []
  simp only [List.append_nil] at whole
  have reached : ts.foldlM Progress.step (.value []) = some (.complete j []) := hleads [] (by simp)
  rw [parse?, lex, String.toList_ofList, whole, lexOnto, List.reverse_reverse, Option.bind_eq_bind,
    Option.bind_some, ofTokens?, reached]

/-! ## Layouts -/

/-- The blanks of a text: in front of an item or the end of a container at a level of nesting,
and between a colon and its value. -/
structure Layout where
  before : Nat → List Char
  between : List Char
  blank_before : ∀ level, Blank (before level)
  blank_between : Blank between

@[simps]
def Layout.compact : Layout where
  before _ := []
  between := []
  blank_before _ := blank_nil
  blank_between := blank_nil

@[simps]
def Layout.pretty : Layout where
  before := newline
  between := [' ']
  blank_before level c h := by
    rcases List.mem_cons.1 h with rfl | h
    · rfl
    · rw [List.eq_of_mem_replicate h]
      rfl
  blank_between := by simp [Blank, isSpace]

namespace Layout

variable (l : Layout)

mutual

/-- The text of a value. -/
def chars (level : Nat) : Json → List Char
  | .arr [] => ['[', ']']
  | .arr (j :: rest) => '[' :: l.before (level + 1) ++ chars (level + 1) j ++ items level rest
  | .obj [] => ['\x7b', '\x7d']
  | .obj ((name, j) :: rest) =>
    '\x7b' :: l.before (level + 1) ++ quoted name ++ ':' :: l.between ++ chars (level + 1) j ++
      members level rest
  | j => scalar j

/-- The items after the first, and the end of the array. -/
def items (level : Nat) : List Json → List Char
  | [] => l.before level ++ [']']
  | j :: rest => ',' :: l.before (level + 1) ++ chars (level + 1) j ++ items level rest

def members (level : Nat) : List (String × Json) → List Char
  | [] => l.before level ++ ['\x7d']
  | (name, j) :: rest =>
    ',' :: l.before (level + 1) ++ quoted name ++ ':' :: l.between ++ chars (level + 1) j ++
      members level rest

end

mutual

theorem chars_compact (level : Nat) : ∀ j, compact.chars level j = compactChars j
  | .arr [] | .obj [] | .null | .bool _ | .num _ | .str _ | .void => by
    simp [chars, compactChars]
  | .arr (j :: rest) => by
    simp [chars, compactChars, chars_compact (level + 1) j, items_compact level rest]
  | .obj ((name, j) :: rest) => by
    simp [chars, compactChars, chars_compact (level + 1) j, members_compact level rest]

theorem items_compact (level : Nat) : ∀ js, compact.items level js = compactItems js
  | [] => by simp [items, compactItems]
  | j :: rest => by
    simp [items, compactItems, chars_compact (level + 1) j, items_compact level rest]

theorem members_compact (level : Nat) : ∀ ms, compact.members level ms = compactMembers ms
  | [] => by simp [members, compactMembers]
  | (name, j) :: rest => by
    simp [members, compactMembers, chars_compact (level + 1) j, members_compact level rest]

end

mutual

theorem chars_pretty (level : Nat) : ∀ j, pretty.chars level j = prettyChars level j
  | .arr [] | .obj [] | .null | .bool _ | .num _ | .str _ | .void => by
    simp [chars, prettyChars]
  | .arr (j :: rest) => by
    simp [chars, prettyChars, chars_pretty (level + 1) j, items_pretty level rest]
  | .obj ((name, j) :: rest) => by
    simp [chars, prettyChars, chars_pretty (level + 1) j, members_pretty level rest]

theorem items_pretty (level : Nat) : ∀ js, pretty.items level js = prettyItems level js
  | [] => by simp [items, prettyItems]
  | j :: rest => by
    simp [items, prettyItems, chars_pretty (level + 1) j, items_pretty level rest]

theorem members_pretty (level : Nat) : ∀ ms, pretty.members level ms = prettyMembers level ms
  | [] => by simp [members, prettyMembers]
  | (name, j) :: rest => by
    simp [members, prettyMembers, chars_pretty (level + 1) j, members_pretty level rest]

end

end Layout

/-- Values that their text stands for: nothing void, only kept numbers, and at most `room`
containers inside each other. -/
inductive Fits : Nat → Json → Prop where
  | null {room : Nat} : Fits room .null
  | bool {room : Nat} (b : Bool) : Fits room (.bool b)
  | num {room : Nat} {n : Number} (h : n.Kept) : Fits room (.num n)
  | str {room : Nat} (s : String) : Fits room (.str s)
  | arr {room : Nat} {items : List Json} (h : ∀ j ∈ items, Fits room j) :
    Fits (room + 1) (.arr items)
  | obj {room : Nat} {members : List (String × Json)} (h : ∀ m ∈ members, Fits room m.2) :
    Fits (room + 1) (.obj members)

namespace Layout

variable (l : Layout)

theorem spelled_items {room : Nat} {js : List Json}
    (h : ∀ j ∈ js, ∀ level, Spelled room (l.chars level j) (.value j)) (level : Nat) :
    Spelled room (l.items level js) (.items js) := by
  induction js with
  | nil =>
    rw [items]
    exact .lastItem (l.blank_before level)
  | cons j js ih =>
    have first := (h j List.mem_cons_self (level + 1)).padded (l.blank_before (level + 1))
    have others := ih fun j hj => h j (List.mem_cons_of_mem _ hj)
    rw [items]
    exact .nextItem blank_nil first others

theorem spelled_member {room level : Nat} {j : Json}
    (h : Spelled room (l.chars level j) (.value j)) (name : String) :
    Spelled room (l.before level ++ (quoted name ++ ':' :: (l.between ++ l.chars level j)))
      (.member name j) :=
  .member (l.blank_before level) (string?_quoted name) blank_nil (h.padded l.blank_between)

theorem spelled_members {room : Nat} {ms : List (String × Json)}
    (h : ∀ m ∈ ms, ∀ level, Spelled room (l.chars level m.2) (.value m.2)) (level : Nat) :
    Spelled room (l.members level ms) (.members ms) := by
  induction ms with
  | nil =>
    rw [members]
    exact .lastMember (l.blank_before level)
  | cons m ms ih =>
    obtain ⟨name, j⟩ := m
    have first := l.spelled_member (h (name, j) List.mem_cons_self (level + 1)) name
    have others := ih fun m hm => h m (List.mem_cons_of_mem _ hm)
    have text := Spelled.nextMember blank_nil first others
    rw [members]
    simpa only [List.nil_append, List.cons_append, List.append_assoc] using text

end Layout

/-- The text of a value spells it, in whatever layout. -/
theorem Fits.spelled {room : Nat} {j : Json} (h : Fits room j) (l : Layout) (level : Nat) :
    Spelled room (l.chars level j) (.value j) := by
  induction h generalizing level with
  | null => exact .null
  | bool b =>
    cases b with
    | false => exact .no
    | true => exact .yes
  | num h =>
    rw [Layout.chars, scalar]
    · exact .num h.number?_text
    all_goals simp
  | str s =>
    rw [Layout.chars, scalar]
    · exact .str (string?_quoted s)
    all_goals simp
  | @arr room items h ih =>
    cases items with
    | nil =>
      rw [Layout.chars]
      exact .noItems blank_nil
    | cons j js =>
      have first := (ih j (.head _) (level + 1)).padded (l.blank_before (level + 1))
      have others := l.spelled_items (fun j hj => ih j (.tail _ hj)) level
      rw [Layout.chars]
      exact .array first others
  | @obj room members h ih =>
    cases members with
    | nil =>
      rw [Layout.chars]
      exact .noMembers blank_nil
    | cons m ms =>
      obtain ⟨name, j⟩ := m
      have first := l.spelled_member (ih (name, j) (.head _) (level + 1)) name
      have others := l.spelled_members (fun m hm => ih m (.tail _ hm)) level
      have text := Spelled.object first others
      rw [Layout.chars]
      simpa only [List.cons_append, List.append_assoc] using text

theorem Fits.parse?_chars {j : Json} (h : Fits maxDepth j) (l : Layout) :
    parse? (String.ofList (l.chars 0 j)) = some j := by
  have read := (h.spelled l 0).parse?_eq blank_nil
  rwa [List.append_nil] at read

theorem Fits.parse?_pretty {j : Json} (h : Fits maxDepth j) : parse? j.pretty = some j := by
  rw [pretty, ← Layout.chars_pretty]
  exact h.parse?_chars .pretty

theorem Fits.parse?_compact {j : Json} (h : Fits maxDepth j) : parse? j.compact = some j := by
  rw [compact, ← Layout.chars_compact 0]
  exact h.parse?_chars .compact

end CobolCalls.Json
