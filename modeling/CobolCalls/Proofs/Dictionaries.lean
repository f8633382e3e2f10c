import CobolCalls.Dict
import Mathlib.Algebra.GroupWithZero.Nat
import Mathlib.Data.List.Induction
import Mathlib.Data.List.Sort

/-
  The theory of dictionaries. A dictionary is known by its look-ups (`ext_get?`). Insertion changes
  one of them, and what a list of entries says of a name is what its last entry for the name says.
  So a dictionary comes back from its entries in whatever order. A tally holds each name that is
  listed, with its count, and the counts add up to the number of names.
-/

namespace CobolCalls.Dict

variable {α : Type}

/-! ## Look-ups -/

theorem lookup_cons_eq_ite (k x : String) (v : α) (rest : List (String × α)) :
    ((k, v) :: rest).lookup x = if x = k then some v else rest.lookup x := by
  rw [List.lookup_cons]
  by_cases hx : x = k
  · simp [hx]
  · rw [beq_false_of_ne hx, if_neg hx]

theorem lookup_place (name x : String) (value : α) (entries : List (String × α)) :
    (place name value entries).lookup x = if x = name then some value else entries.lookup x := by
  induction entries with
  | nil => rw [place, lookup_cons_eq_ite]
  | cons entry rest ih =>
    obtain ⟨k, v⟩ := entry
    rw [place]
    split
    next => rw [lookup_cons_eq_ite]
    next =>
      split
      next heq =>
        rw [lookup_cons_eq_ite, lookup_cons_eq_ite, ← heq]
        by_cases hx : x = name <;> simp [hx]
      next hne =>
        rw [lookup_cons_eq_ite, lookup_cons_eq_ite, ih]
        by_cases hx : x = name
        · rw [if_pos hx, if_pos hx, if_neg (hx ▸ hne)]
        · rw [if_neg hx, if_neg hx]

theorem get?_insert (d : Dict α) (name x : String) (value : α) :
    (d.insert name value).get? x = if x = name then some value else d.get? x :=
  lookup_place name x value d.entries

theorem get?_insertNew (d : Dict α) (name x : String) (value : α) :
    (d.insertNew name value).get? x = (d.get? x <|> if x = name then some value else none) := by
  unfold insertNew
  split
  next htaken =>
    by_cases hx : x = name
    · obtain ⟨v, hv⟩ := Option.isSome_iff_exists.1 htaken
      simp [hx, hv]
    · simp [hx]
  next hfree =>
    rw [get?_insert]
    by_cases hx : x = name
    · have hnone : d.get? name = none := by simpa [contains] using hfree
      simp [hx, hnone]
    · simp [hx]

theorem extend_concat (d : Dict α) (entries : List (String × α)) (e : String × α) :
    d.extend (entries ++ [e]) = (d.extend entries).insert e.1 e.2 := by
  simp [extend]

/-- What entries say of a name goes before what the dictionary says. -/
theorem get?_extend (d : Dict α) (entries : List (String × α)) (x : String) :
    (d.extend entries).get? x = ((ofList entries).get? x <|> d.get? x) := by
  induction entries using List.reverseRecOn with
  | nil => simp [extend, ofList, get?, empty]
  | append_singleton entries e ih =>
    rw [ofList] at ih
    rw [ofList, extend_concat, extend_concat, get?_insert, get?_insert, ih]
    by_cases hx : x = e.1 <;> simp [hx]

/-- A dictionary may be filled up entry by entry. -/
theorem get?_foldl_insertNew (d : Dict α) (entries : List (String × α)) (x : String) :
    (entries.foldl (fun d (name, value) => d.insertNew name value) d).get? x =
      (d.get? x <|> entries.lookup x) := by
  induction entries generalizing d with
  | nil => simp
  | cons e rest ih =>
    obtain ⟨k, v⟩ := e
    rw [List.foldl_cons, ih, get?_insertNew, lookup_cons_eq_ite]
    cases d.get? x with
    | some y => simp
    | none => by_cases hx : x = k <;> simp [hx]

/-! ## Entries -/

/-- A name above all others goes to the end. -/
theorem place_of_forall_lt {name : String} (value : α) {entries : List (String × α)}
    (h : ∀ e ∈ entries, e.1 < name) : place name value entries = entries ++ [(name, value)] := by
  induction entries with
  | nil => rfl
  | cons e entries ih =>
    have below := h e List.mem_cons_self
    rw [place, if_neg (String.lt_asymm below), if_neg (Ne.symm (Std.ne_of_lt below)),
      ih fun e he => h e (List.mem_cons_of_mem _ he)]
    rfl

theorem entries_extend {d : Dict α} {entries : List (String × α)}
    (h : (d.entries ++ entries).Pairwise (fun a b => a.1 < b.1)) :
    (d.extend entries).entries = d.entries ++ entries := by
  induction entries generalizing d with
  | nil => simp [extend]
  | cons e entries ih =>
    have last : (d.insert e.1 e.2).entries = d.entries ++ [e] :=
      place_of_forall_lt e.2 fun a ha => (List.pairwise_append.1 h).2.2 a ha e List.mem_cons_self
    have step : d.extend (e :: entries) = (d.insert e.1 e.2).extend entries := rfl
    rw [step, ih (by rw [last]; simpa using h), last]
    simp

theorem eq_of_entries {d d' : Dict α} (h : d.entries = d'.entries) : d = d' := by
  cases d
  cases d'
  cases h
  rfl

theorem ofList_entries (d : Dict α) : ofList d.entries = d :=
  eq_of_entries (entries_extend d.ascending)

theorem nodup_keys (d : Dict α) : (d.entries.map Prod.fst).Nodup := by
  rw [List.nodup_iff_pairwise_ne, List.pairwise_map]
  exact d.ascending.imp Std.ne_of_lt

/-- Where names come once, a look-up finds the entry, wherever it stands. -/
theorem lookup_eq_some_iff {entries : List (String × α)} (h : (entries.map Prod.fst).Nodup)
    {x : String} {v : α} : entries.lookup x = some v ↔ (x, v) ∈ entries := by
  induction entries with
  | nil => simp
  | cons e rest ih =>
    obtain ⟨k, w⟩ := e
    rw [List.map_cons, List.nodup_cons] at h
    rw [lookup_cons_eq_ite, List.mem_cons, Prod.mk.injEq]
    by_cases hx : x = k
    · have hrest : (k, v) ∉ rest := fun hmem => h.1 (List.mem_map.2 ⟨(k, v), hmem, rfl⟩)
      simp [hx, hrest, eq_comm]
    · simp [hx, ih h.2]

theorem get?_eq_some_iff {d : Dict α} {x : String} {v : α} :
    d.get? x = some v ↔ (x, v) ∈ d.entries :=
  lookup_eq_some_iff d.nodup_keys

/-- A dictionary is known by its look-ups. -/
theorem ext_get? {d d' : Dict α} (h : ∀ x, d.get? x = d'.get? x) : d = d' := by
  have : Std.Irrefl fun a b : String × α => a.1 < b.1 := ⟨fun a => String.lt_irrefl a.1⟩
  have : Std.Antisymm fun a b : String × α => a.1 < b.1 :=
    ⟨fun a b hab hba => absurd hba (String.lt_asymm hab)⟩
  refine eq_of_entries (List.Pairwise.eq_of_mem_iff d.ascending d'.ascending fun e => ?_)
  rw [← get?_eq_some_iff (x := e.1) (v := e.2), ← get?_eq_some_iff (x := e.1) (v := e.2), h]

/-- Of several entries for a name the last one counts. -/
theorem get?_ofList (entries : List (String × α)) (x : String) :
    (ofList entries).get? x = entries.reverse.lookup x := by
  induction entries using List.reverseRecOn with
  | nil => rfl
  | append_singleton entries e ih =>
    obtain ⟨k, v⟩ := e
    rw [ofList, extend_concat, get?_insert, List.reverse_append, List.reverse_singleton,
      List.singleton_append, lookup_cons_eq_ite]
    by_cases hx : x = k
    · simp [hx]
    · rw [if_neg hx, if_neg hx]
      exact ih

/-- A dictionary comes back from its entries in any order. -/
theorem ofList_of_perm {d : Dict α} {entries : List (String × α)} (h : entries.Perm d.entries) :
    ofList entries = d := by
  have hnodup : (entries.reverse.map Prod.fst).Nodup :=
    (((List.reverse_perm entries).trans h).map Prod.fst).nodup_iff.2 d.nodup_keys
  refine ext_get? fun x => Option.ext fun v => ?_
  rw [get?_ofList, lookup_eq_some_iff hnodup, get?_eq_some_iff, List.mem_reverse, h.mem_iff]

/-! ## Tallies -/

theorem tally_concat (names : List String) (name : String) :
    tally (names ++ [name]) =
      (tally names).insert name (((tally names).get? name).getD 0 + 1) := by
  simp [tally]

/-- A tally holds the names that are listed, and how often each one is. -/
theorem get?_tally (names : List String) (x : String) :
    (tally names).get? x = if x ∈ names then some (names.count x) else none := by
  induction names using List.reverseRecOn with
  | nil => rfl
  | append_singleton names name ih =>
    rw [tally_concat, get?_insert]
    by_cases hx : x = name
    · subst hx
      by_cases hmem : x ∈ names
      · simp [ih, hmem]
      · simp [ih, hmem, List.count_eq_zero_of_not_mem hmem]
    · simp [hx, ih, Ne.symm hx]

/-- A value that is put in place counts, and the one that it takes the place of no longer does. -/
theorem sum_place (name : String) (value : Nat) {entries : List (String × Nat)}
    (h : entries.Pairwise (fun a b => a.1 < b.1)) :
    ((place name value entries).map Prod.snd).sum + (entries.lookup name).getD 0 =
      (entries.map Prod.snd).sum + value := by
  induction entries with
  | nil => simp [place]
  | cons e rest ih =>
    obtain ⟨k, v⟩ := e
    rw [List.pairwise_cons] at h
    have hrest := ih h.2
    rw [place, lookup_cons_eq_ite]
    split
    next below =>
      -- below all names there is no entry to be replaced
      have hnone : rest.lookup name = none := by
        rw [List.lookup_eq_none_iff]
        intro e he
        exact bne_iff_ne.2 (Std.ne_of_lt (String.lt_trans below (h.1 e he)))
      simp [Std.ne_of_lt below, hnone]
      omega
    next notBelow =>
      split
      next same =>
        simp [same]
        omega
      next other =>
        simp only [List.map_cons, List.sum_cons]
        omega

/-- The counts of a tally add up to the number of names. -/
theorem sum_tally (names : List String) :
    ((tally names).entries.map Prod.snd).sum = names.length := by
  induction names using List.reverseRecOn with
  | nil => rfl
  | append_singleton names name ih =>
    have hsum := sum_place name (((tally names).get? name).getD 0 + 1) (tally names).ascending
    rw [tally_concat]
    rw [ih] at hsum
    simp only [insert, get?, List.length_append, List.length_singleton] at hsum ⊢
    omega

end CobolCalls.Dict
