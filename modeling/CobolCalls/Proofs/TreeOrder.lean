import CobolCalls.FileTree.Basic
import Mathlib.Data.List.Sort
import Mathlib.Tactic.SplitIfs

/-
  The order of a file tree, and what a tree is known by. The items below a folder come in the
  order of their paths, compared name by name and each name byte by byte in its UTF-8 form. Code
  points and their UTF-8 forms are ordered alike, so the order of names by code point is that by
  bytes.

  A tree is known by what stands at each place: two trees that hold the same items, however they
  were filled, lead every path to the same place and list the same items below a folder.
-/

namespace CobolCalls

/-! ## Names in byte order -/

namespace Path

/-- The bytes of a name. -/
def bytes (name : String) : List UInt8 := name.toUTF8.data.toList

theorem bytes_eq (name : String) : bytes name = name.toList.flatMap String.utf8EncodeChar := by
  have encoded : (String.ofList name.toList).toUTF8 = name.toList.utf8Encode :=
    String.toByteArray_ofList
  rw [String.ofList_toList] at encoded
  rw [bytes, encoded, List.utf8Encode, List.data_toByteArray, List.toList_toArray]

theorem lead_lt {a b : Nat} (h : a < b) (hb : b < 256) (xs ys : List UInt8) :
    UInt8.ofNat a :: xs < UInt8.ofNat b :: ys := by
  refine List.cons_lt_cons_iff.2 (.inl ?_)
  rw [UInt8.lt_iff_toNat_lt, UInt8.toNat_ofNat', UInt8.toNat_ofNat']
  omega

/-- One more digit of six bits keeps the order: the digits before it decide, or it does. -/
theorem append_digit_lt {f : Nat → List UInt8} {m n : Nat}
    (hf : m / 64 < n / 64 → ∀ xs ys, f (m / 64) ++ xs < f (n / 64) ++ ys) (h : m < n)
    (xs ys : List UInt8) :
    f (m / 64) ++ UInt8.ofNat (m % 64 + 128) :: xs <
      f (n / 64) ++ UInt8.ofNat (n % 64 + 128) :: ys := by
  rcases Nat.lt_or_ge (m / 64) (n / 64) with above | above
  · exact hf above _ _
  · have same : m / 64 = n / 64 := by omega
    rw [same]
    exact List.append_left_lt (lead_lt (by omega) (by omega) xs ys)

theorem utf8EncodeChar_lt {c d : Char} (h : c < d) (xs ys : List UInt8) :
    String.utf8EncodeChar c ++ xs < String.utf8EncodeChar d ++ ys := by
  have hlt : c.val.toNat < d.val.toNat := h
  have bound : d.val.toNat < 1114112 := by
    have := d.valid
    rcases this with h | h <;> omega
  have third (k : Nat) : k / 4096 = k / 64 / 64 := (Nat.div_div_eq_div_mul k 64 64).symm
  have fourth (k : Nat) : k / 262144 = k / 64 / 64 / 64 := by
    rw [Nat.div_div_eq_div_mul, Nat.div_div_eq_div_mul]
  unfold String.utf8EncodeChar
  generalize c.val.toNat = m at hlt ⊢
  generalize d.val.toNat = n at hlt bound ⊢
  dsimp only
  rw [third, third, fourth, fourth]
  -- A longer form has the higher first byte; in two forms of one length the digits decide.
  split_ifs
  all_goals try omega
  all_goals try exact lead_lt (by omega) (by omega) _ _
  · exact append_digit_lt (f := fun k => [UInt8.ofNat (k % 32 + 192)])
      (fun h => lead_lt (by omega) (by omega)) hlt xs ys
  · exact append_digit_lt
      (f := fun k => [UInt8.ofNat (k / 64 % 16 + 224), UInt8.ofNat (k % 64 + 128)])
      (append_digit_lt (f := fun k => [UInt8.ofNat (k % 16 + 224)])
        fun h => lead_lt (by omega) (by omega)) hlt xs ys
  · exact append_digit_lt
      (f := fun k => [UInt8.ofNat (k / 64 / 64 % 8 + 240), UInt8.ofNat (k / 64 % 64 + 128),
        UInt8.ofNat (k % 64 + 128)])
      (append_digit_lt
        (f := fun k => [UInt8.ofNat (k / 64 % 8 + 240), UInt8.ofNat (k % 64 + 128)])
        (append_digit_lt (f := fun k => [UInt8.ofNat (k % 8 + 240)])
          fun h => lead_lt (by omega) (by omega))) hlt xs ys

/-- Names in the order of their code points are in that of their bytes. -/
theorem bytes_lt {a b : String} (h : a < b) : bytes a < bytes b := by
  rw [bytes_eq, bytes_eq]
  have lex : List.Lex (· < ·) a.toList b.toList := String.lt_iff.1 h
  generalize a.toList = a at lex ⊢
  generalize b.toList = b at lex ⊢
  induction lex with
  | @nil c l =>
    obtain ⟨byte, rest, he⟩ := List.exists_cons_of_ne_nil (String.utf8EncodeChar_ne_nil (c := c))
    rw [List.flatMap_nil, List.flatMap_cons, he]
    exact List.nil_lt_cons ..
  | rel h =>
    rw [List.flatMap_cons, List.flatMap_cons]
    exact utf8EncodeChar_lt h _ _
  | cons _ ih =>
    rw [List.flatMap_cons, List.flatMap_cons]
    exact List.append_left_lt ih

theorem lt_of_compare {a b : String} (h : compare a b = .lt) : a < b := by
  have order : compareOfLessAndEq a b = .lt := h
  unfold compareOfLessAndEq at order
  split at order
  next below => exact below
  next => split at order <;> cases order

end Path

/-- Places compared name by name, and names by their bytes. -/
def Place.Before : Place → Place → Prop := List.Lex fun a b => Path.bytes a < Path.bytes b

theorem Place.before_of_compare {a b : Place} (h : compare a b = .lt) : a.Before b := by
  rw [List.compare_eq_compareLex] at h
  induction a generalizing b with
  | nil =>
    cases b with
    | nil => simp [List.compareLex_nil_nil] at h
    | cons y b => exact .nil
  | cons x a ih =>
    cases b with
    | nil => simp [List.compareLex_cons_nil] at h
    | cons y b =>
      rw [List.compareLex_cons_cons] at h
      cases hxy : compare x y with
      | lt => exact .rel (Path.bytes_lt (Path.lt_of_compare hxy))
      | eq =>
        obtain rfl := Std.LawfulEqOrd.eq_of_compare hxy
        rw [hxy] at h
        exact .cons (ih h)
      | gt =>
        rw [hxy] at h
        cases h

theorem Place.compare_append (p a b : Place) : compare (p ++ a) (p ++ b) = compare a b := by
  induction p with
  | nil => rfl
  | cons name p ih =>
    rw [List.cons_append, List.cons_append]
    simp only [List.compare_eq_compareLex, List.compareLex_cons_cons, Std.ReflOrd.compare_self]
      at ih ⊢
    exact ih

namespace FileTree

variable {t t' : FileTree}

/-! ## The items below a folder -/

theorem item?_of_ne_nil {p : Place} (h : p ≠ []) : t.item? p = t.items[p]? := by
  rw [item?, if_neg (by simpa using h)]

/-- An item with the names that lead to it from a folder, if no link is on the way. -/
def below? (t : FileTree) (p : Place) (e : Place × Item) : Option (List String × Item) :=
  match p.isPrefixOf? e.1 with
  | none | some [] => none
  | some below =>
    if (List.range below.length).all fun k => t.isFolder (p ++ below.take k) then
      some (below, e.2)
    else none

theorem itemsBelow_eq_filterMap (t : FileTree) (p : Place) :
    t.itemsBelow p = t.items.toList.filterMap (t.below? p) := rfl

theorem below?_eq_some_iff {p : Place} {e : Place × Item} {below : List String} {item : Item} :
    t.below? p e = some (below, item) ↔ e = (p ++ below, item) ∧ below ≠ [] ∧
      ∀ k < below.length, t.isFolder (p ++ below.take k) = true := by
  obtain ⟨q, i⟩ := e
  unfold below?
  constructor
  · intro h
    split at h
    next => cases h
    next => cases h
    next names hne hnames =>
      obtain rfl := List.isPrefixOf?_eq_some_iff_append_eq.1 hnames
      split at h
      next hall =>
        cases h
        exact ⟨rfl, fun he => hne (he ▸ rfl), by simpa using hall⟩
      next => cases h
  · rintro ⟨he, hne, hall⟩
    cases he
    have hnames : p.isPrefixOf? (p ++ below) = some below :=
      List.isPrefixOf?_eq_some_iff_append_eq.2 rfl
    have hall : ((List.range below.length).all fun k => t.isFolder (p ++ below.take k)) = true := by
      simpa using hall
    dsimp only
    rw [hnames]
    cases below with
    | nil => exact absurd rfl hne
    | cons name rest => exact if_pos hall

theorem mem_itemsBelow {p : Place} {below : List String} {item : Item} :
    (below, item) ∈ t.itemsBelow p ↔ t.items[p ++ below]? = some item ∧ below ≠ [] ∧
      ∀ k < below.length, t.isFolder (p ++ below.take k) = true := by
  simp only [itemsBelow_eq_filterMap, List.mem_filterMap, below?_eq_some_iff,
    ← Std.TreeMap.mem_toList_iff_getElem?_eq_some]
  constructor
  · rintro ⟨e, he, rfl, hbelow⟩
    exact ⟨he, hbelow⟩
  · rintro ⟨he, hbelow⟩
    exact ⟨_, he, rfl, hbelow⟩

/-- Items come in the order of the names that lead to them. -/
theorem itemsBelow_before (t : FileTree) (p : Place) :
    (t.itemsBelow p).Pairwise fun a b => Place.Before a.1 b.1 := by
  rw [itemsBelow_eq_filterMap, List.pairwise_filterMap]
  refine Std.TreeMap.ordered_keys_toList.imp fun {a b} hab a' ha' b' hb' => ?_
  rw [(below?_eq_some_iff.1 ha').1, (below?_eq_some_iff.1 hb').1, Place.compare_append] at hab
  exact Place.before_of_compare hab

/-! ## What a tree is known by -/

/-- The trees hold the same items. -/
structure Agrees (t t' : FileTree) : Prop where
  items : ∀ p : Place, t.items[p]? = t'.items[p]?
  here : t.here = t'.here

namespace Agrees

theorem toList_eq (h : t.Agrees t') : t.items.toList = t'.items.toList := by
  have : Std.Irrefl fun a b : Place × Item => compare a.1 b.1 = .lt :=
    ⟨fun a => by simp [Std.ReflOrd.compare_self]⟩
  have : Std.Antisymm fun a b : Place × Item => compare a.1 b.1 = .lt :=
    ⟨fun a b hab hba => by
      rw [Std.OrientedOrd.eq_swap, hba] at hab
      cases hab⟩
  refine List.Pairwise.eq_of_mem_iff Std.TreeMap.ordered_keys_toList
    Std.TreeMap.ordered_keys_toList fun e => ?_
  rw [Std.TreeMap.mem_toList_iff_getElem?_eq_some, Std.TreeMap.mem_toList_iff_getElem?_eq_some,
    h.items]

theorem item?_eq (h : t.Agrees t') (p : Place) : t.item? p = t'.item? p := by
  rw [item?, item?, h.items]

theorem isFolder_eq (h : t.Agrees t') (p : Place) : t.isFolder p = t'.isFolder p := by
  rw [isFolder, isFolder, h.item?_eq]

theorem isClosed_eq (h : t.Agrees t') (p : Place) : t.isClosed p = t'.isClosed p := by
  rw [isClosed, isClosed, h.item?_eq]

theorem barrier_eq (h : t.Agrees t') (p : Place) : t.barrier p = t'.barrier p := by
  rw [barrier, barrier, h.isClosed_eq]

theorem locateFrom_eq (h : t.Agrees t') (creating : Bool) (links : Nat) (p : Place)
    (names : List String) :
    t.locateFrom creating links p names = t'.locateFrom creating links p names := by
  fun_induction locateFrom t creating links p names
  case case1 => rw [locateFrom]
  all_goals
    rw [locateFrom]
    simp only [← h.isFolder_eq, ← h.item?_eq, ← h.isClosed_eq, ← h.barrier_eq]
    grind

theorem canonicalFrom_eq (h : t.Agrees t') (links : Nat) (p : Place) (names : List String) :
    t.canonicalFrom links p names = t'.canonicalFrom links p names := by
  fun_induction canonicalFrom t links p names
  case case1 => rw [canonicalFrom]
  all_goals
    rw [canonicalFrom]
    simp only [← h.isFolder_eq, ← h.item?_eq, ← h.isClosed_eq, ← h.barrier_eq]
    grind

theorem canonical_eq (h : t.Agrees t') (path : String) : t.canonical path = t'.canonical path := by
  simp only [canonical, h.here, h.canonicalFrom_eq]

theorem namesLink_eq (h : t.Agrees t') (path : String) : t.namesLink path = t'.namesLink path := by
  simp only [namesLink, h.here, h.locateFrom_eq, h.item?_eq]

theorem resolve_eq (h : t.Agrees t') (path : String) : t.resolve path = t'.resolve path := by
  have located : t.locate false path = t'.locate false path := by
    simp only [locate, h.here, h.locateFrom_eq]
  rw [resolve, resolve, located]
  simp only [h.item?_eq]

theorem itemsBelow_eq (h : t.Agrees t') (p : Place) : t.itemsBelow p = t'.itemsBelow p := by
  simp only [itemsBelow, h.toList_eq, h.isFolder_eq]

end Agrees

/-! ## Where paths lead -/

/-- Every folder stands in a folder, and paths start in one. -/
structure Rooted (t : FileTree) : Prop where
  here : t.isFolder t.here = true
  above : ∀ p : Place, t.isFolder p = true → t.isFolder p.dropLast = true

/-- What stands at a place, if anything, is no link. -/
def NoLink (t : FileTree) (p : Place) : Prop := ∀ target, t.item? p ≠ some (.link target)

theorem noLink_of_isFolder {p : Place} (h : t.isFolder p = true) : t.NoLink p := by
  intro target hitem
  rw [isFolder, hitem] at h
  cases h

theorem not_isClosed_of_isFolder {p : Place} (h : t.isFolder p = true) : t.isClosed p = false := by
  unfold isFolder at h
  split at h
  next hitem => rw [isClosed, hitem]
  next => cases h

theorem not_isFolder_of_file {p : Place} {content : ByteArray}
    (h : t.item? p = some (.file content)) : t.isFolder p = false := by
  rw [isFolder, h]

theorem isFolder_start (path : String) {folder : Place} (h : t.isFolder folder = true) :
    t.isFolder (start path folder) = true := by
  rw [start]
  split
  · rfl
  · exact h

theorem Rooted.noLink_locateFrom (ht : t.Rooted) {creating : Bool} {links : Nat} {p q : Place}
    {names : List String} (hp : t.NoLink p) (h : t.locateFrom creating links p names = .ok q) :
    t.NoLink q := by
  -- a path goes on through folders, and a link on the way is replaced by its target
  fun_induction locateFrom t creating links p names with
  | case1 links p =>
    cases h
    exact hp
  | case2 links p name rest hclosed ih => exact ih hp h
  | case4 links p name rest hclosed hfolder hname ih => exact ih hp h
  | case5 links p name rest hclosed hfolder hname hdots ih =>
    have folder : t.isFolder p = true := by simpa using hfolder
    exact ih (noLink_of_isFolder (ht.above p folder)) h
  | case9 p name rest hclosed hfolder hname hdots hcreate hlength target hitem links ih =>
    have folder : t.isFolder p = true := by simpa using hfolder
    exact ih (noLink_of_isFolder (isFolder_start target folder)) h
  | case10 links p name rest hclosed hfolder hname hdots hcreate hlength item hlink hitem ih =>
    refine ih (fun target htarget => ?_) h
    rw [hitem] at htarget
    exact hlink target (Option.some.inj htarget)
  | case11 links p name rest hclosed hfolder hname hdots hcreate hlength hitem hrest =>
    cases h
    intro target htarget
    rw [hitem] at htarget
    cases htarget
  | case3 | case6 | case7 | case8 | case12 => cases h

theorem locate_of_resolve {path : String} {p : Place} (h : t.resolve path = .ok p) :
    t.locate false path = .ok p ∧ (t.item? p).isSome = true := by
  unfold resolve at h
  cases hlocate : t.locate false path with
  | error e => simp [hlocate, bind, Except.bind] at h
  | ok q =>
    simp only [hlocate, bind, Except.bind] at h
    split at h
    next hsome =>
      cases h
      exact ⟨rfl, hsome⟩
    next => cases h

/-- A path that leads somewhere leads to a folder, which may be closed, or to a file. -/
theorem Rooted.resolve_cases (ht : t.Rooted) {path : String} {p : Place}
    (h : t.resolve path = .ok p) :
    t.isFolder p = true ∨ t.item? p = some .closed ∨
      ∃ content, t.item? p = some (.file content) := by
  obtain ⟨hlocate, hsome⟩ := locate_of_resolve h
  have hnoLink : t.NoLink p := by
    unfold locate at hlocate
    split at hlocate
    next => cases hlocate
    next =>
      split at hlocate
      next => cases hlocate
      next => exact ht.noLink_locateFrom (noLink_of_isFolder (isFolder_start path ht.here)) hlocate
  obtain ⟨item, hitem⟩ := Option.isSome_iff_exists.1 hsome
  cases item with
  | file content => exact .inr (.inr ⟨content, hitem⟩)
  | folder => exact .inl (by rw [isFolder, hitem])
  | link target => exact absurd hitem (hnoLink target)
  | closed => exact .inr (.inl hitem)

/-- A name that stands for an entry of a folder. -/
def OwnName (name : String) : Prop :=
  name ≠ "" ∧ name ≠ "." ∧ name ≠ ".." ∧ name.utf8ByteSize ≤ maxName

instance (name : String) : Decidable (OwnName name) := by
  unfold OwnName
  infer_instance

section Steps

variable {p : Place} {name : String} {links : Nat} (hp : t.isFolder p = true)

include hp

theorem locateFrom_own (hname : OwnName name) {item : Item}
    (hitem : t.item? (p ++ [name]) = some item) (hlink : ∀ target, item ≠ .link target)
    (rest : List String) :
    t.locateFrom false links p (name :: rest) = t.locateFrom false links (p ++ [name]) rest := by
  obtain ⟨hempty, hdot, hdots, hshort⟩ := hname
  rw [locateFrom, hp, hitem]
  cases item with
  | link target => exact absurd rfl (hlink target)
  | file | folder | closed => simp [hempty, hdot, hdots, Nat.not_lt.2 hshort]

theorem locateFrom_link (hname : OwnName name) {target : String}
    (hitem : t.item? (p ++ [name]) = some (.link target)) (rest : List String) :
    t.locateFrom false (links + 1) p (name :: rest) =
      t.locateFrom false links (start target p) (steps target ++ rest) := by
  obtain ⟨hempty, hdot, hdots, hshort⟩ := hname
  rw [locateFrom, hp, hitem]
  simp [hempty, hdot, hdots, Nat.not_lt.2 hshort]

theorem locateFrom_here (hname : name = "" ∨ name = ".") (rest : List String) :
    t.locateFrom false links p (name :: rest) = t.locateFrom false links p rest := by
  rw [locateFrom, hp, not_isClosed_of_isFolder hp]
  rcases hname with rfl | rfl <;> simp

theorem locateFrom_up (rest : List String) :
    t.locateFrom false links p (".." :: rest) = t.locateFrom false links p.dropLast rest := by
  rw [locateFrom, hp]
  simp

end Steps

theorem resolve_of_locateFrom {path : String} {p : Place} (haccepted : refusal? path = none)
    (hne : path ≠ "")
    (h : t.locateFrom false maxLinks (start path t.here) (steps path) = .ok p)
    (hitem : (t.item? p).isSome = true) : t.resolve path = .ok p := by
  have hlocate : t.locate false path = .ok p := by
    simp [locate, haccepted, hne, h]
  rw [resolve, hlocate]
  simp [bind, Except.bind, hitem, pure, Except.pure]

/-! ## Trees that are filled -/

theorem item?_put {p : Place} (hp : p ≠ []) (i : Item) (q : Place) :
    (t.put p i).item? q = if q = p then some i else t.item? q := by
  by_cases hq : q = []
  · subst hq
    rw [if_neg (Ne.symm hp)]
    rfl
  · rw [item?_of_ne_nil hq, item?_of_ne_nil hq, put, Std.TreeMap.getElem?_insert]
    by_cases h : q = p
    · simp [h]
    · rw [if_neg fun he => h (Std.LawfulEqOrd.eq_of_compare he).symm, if_neg h]

theorem isFolder_put_of_isFolder {p q : Place} (hp : t.isFolder p = false)
    (hq : t.isFolder q = true) (i : Item) : (t.put p i).isFolder q = true := by
  have hne : p ≠ [] := by
    rintro rfl
    cases hp
  have hother : q ≠ p := by
    rintro rfl
    rw [hp] at hq
    cases hq
  rw [isFolder, item?_put hne, if_neg hother]
  exact hq

theorem rooted_empty : Rooted ⟨∅, []⟩ where
  here := rfl
  above p hp := by
    by_cases h : p = []
    · subst h
      rfl
    · simp [isFolder, item?_of_ne_nil h] at hp

/-- What is put into a folder, where no folder stands, leaves every folder in a folder. -/
theorem Rooted.put (ht : t.Rooted) {p : Place} (habove : t.isFolder p.dropLast = true)
    (hp : t.isFolder p = false) (i : Item) : (t.put p i).Rooted where
  here := isFolder_put_of_isFolder hp ht.here i
  above q hq := by
    have hne : p ≠ [] := by
      rintro rfl
      cases hp
    by_cases hqp : q = p
    · rw [hqp]
      exact isFolder_put_of_isFolder hp habove i
    · refine isFolder_put_of_isFolder hp (ht.above q ?_) i
      rwa [isFolder, item?_put hne, if_neg hqp] at hq

/-- Two items may be put in either order. -/
theorem agrees_put_comm (t : FileTree) {p q : Place} (h : p ≠ q) (i j : Item) :
    ((t.put p i).put q j).Agrees ((t.put q j).put p i) where
  items r := by
    simp only [put, Std.TreeMap.getElem?_insert, Std.LawfulEqOrd.compare_eq_iff_eq]
    by_cases hp : p = r
    · have hq : q ≠ r := fun hq => h (hp.trans hq.symm)
      simp [hp, hq]
    · simp [hp]
  here := rfl

end FileTree
end CobolCalls
