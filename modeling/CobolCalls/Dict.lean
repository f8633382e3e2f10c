/-
  Dictionaries from names to values, held in ascending order of the names. Names are compared by
  code point, which is also the byte order of their UTF-8 form. The order is part of the type, so
  two dictionaries with the same look-ups are the same dictionary.
-/

namespace CobolCalls

structure Dict (α : Type) where
  entries : List (String × α)
  ascending : entries.Pairwise (fun a b => a.1 < b.1)
deriving DecidableEq

namespace Dict

variable {α : Type}

def empty : Dict α := ⟨[], .nil⟩

instance : EmptyCollection (Dict α) := ⟨empty⟩
instance : Inhabited (Dict α) := ⟨empty⟩

def size (d : Dict α) : Nat := d.entries.length

def get? (d : Dict α) (name : String) : Option α := d.entries.lookup name

def contains (d : Dict α) (name : String) : Bool := (d.get? name).isSome

/-! ## Insertion -/

/-- Puts an entry in its place, in the stead of one with the same name. -/
def place (name : String) (value : α) : List (String × α) → List (String × α)
  | [] => [(name, value)]
  | (k, v) :: rest =>
    if name < k then (name, value) :: (k, v) :: rest
    else if name = k then (name, value) :: rest
    else (k, v) :: place name value rest

theorem mem_place {name : String} {value : α} {entries : List (String × α)} {e : String × α}
    (h : e ∈ place name value entries) : e = (name, value) ∨ e ∈ entries := by
  induction entries with
  | nil => simpa [place] using h
  | cons head rest ih =>
    rw [place] at h
    split at h
    · simpa using h
    · split at h <;> simp only [List.mem_cons] at h ⊢
      · exact h.imp_right .inr
      · rcases h with h | h
        · exact .inr (.inl h)
        · exact (ih h).imp_right .inr

theorem place_ascending (name : String) (value : α) {entries : List (String × α)}
    (h : entries.Pairwise (fun a b => a.1 < b.1)) :
    (place name value entries).Pairwise (fun a b => a.1 < b.1) := by
  induction entries with
  | nil => simp [place]
  | cons head rest ih =>
    obtain ⟨k, v⟩ := head
    rw [List.pairwise_cons] at h
    rw [place]
    split
    next below =>
      refine .cons (fun e he => ?_) (.cons h.1 h.2)
      rcases List.mem_cons.1 he with rfl | he
      · exact below
      · exact String.lt_trans below (h.1 e he)
    next notBelow =>
      split
      next same => exact .cons (fun e he => same ▸ h.1 e he) h.2
      next other =>
        refine .cons (fun e he => ?_) (ih h.2)
        rcases mem_place he with rfl | he
        · exact Std.lt_of_le_of_ne (Std.not_lt.1 notBelow) (Ne.symm other)
        · exact h.1 e he

/-- A later value for a name takes the place of an earlier one. -/
def insert (d : Dict α) (name : String) (value : α) : Dict α :=
  ⟨place name value d.entries, place_ascending name value d.ascending⟩

/-- Keeps the value that a name already has. -/
def insertNew (d : Dict α) (name : String) (value : α) : Dict α :=
  if d.contains name then d else d.insert name value

/-- Inserts entries one after the other, so of several values for a name the last stays. -/
def extend (d : Dict α) (entries : List (String × α)) : Dict α :=
  entries.foldl (fun d (name, value) => d.insert name value) d

def ofList (entries : List (String × α)) : Dict α := empty.extend entries

/-- Counts how often each name is listed. -/
def tally (names : List String) : Dict Nat :=
  names.foldl (fun d name => d.insert name ((d.get? name).getD 0 + 1)) empty

end Dict
end CobolCalls
