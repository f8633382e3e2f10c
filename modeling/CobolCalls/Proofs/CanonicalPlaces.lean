import CobolCalls.Discovery
import CobolCalls.Proofs.InertLines
import CobolCalls.Proofs.TreeWriting

/-
  Where paths lead, however long they are, and how files are told apart. A path leads to a place
  by the walk along its names (`Leads`). Single dots and repeated slashes do not change the walk,
  so paths with the same components lead to the same place. A path below the path of a folder
  leads to what stands below that folder.

  The canonical place of a path is where it leads, but it is asked for by the own path of every
  place on the way. If none of these is too long there is a canonical place for every path that
  leads to something (`Leads.canonical_eq`). So in a tree with short places the files that paths
  reach have the same key exactly if they stand at the same place. In other trees one file may
  have several keys, but one key is never that of several files.
-/

namespace CobolCalls

/-! ## The text of paths -/

theorem Text.split_append_cons (separator : Char) (xs ys : List Char) :
    split separator (xs ++ separator :: ys) = split separator xs ++ split separator ys := by
  induction xs with
  | nil => exact split_cons_self separator ys
  | cons c xs ih =>
    rw [List.cons_append]
    by_cases h : c = separator
    · rw [h, split_cons_self, split_cons_self, ih, List.cons_append]
    · obtain ⟨first, others, hxs⟩ := exists_split separator xs
      rw [hxs, List.cons_append] at ih
      rw [split_cons_of_ne h ih, split_cons_of_ne h hxs, List.cons_append]

namespace Path

/-- A slash parts the names before it from those behind it. -/
theorem parts_append_slash (a b : String) : parts (a ++ "/" ++ b) = parts a ++ parts b := by
  have hsplit : Text.split '/' (a ++ "/" ++ b).toList =
      Text.split '/' a.toList ++ Text.split '/' b.toList := by
    rw [String.toList_append, String.toList_append, List.append_assoc]
    exact Text.split_append_cons '/' a.toList b.toList
  rw [parts, hsplit, List.filter_append, List.map_append]
  rfl

theorem slash_not_mem_parts {path name : String} (h : name ∈ parts path) : '/' ∉ name.toList := by
  have pieces (text : List Char) : ∀ piece ∈ Text.split '/' text, '/' ∉ piece := by
    induction text with
    | nil => simp [Text.split]
    | cons c rest ih =>
      by_cases hc : c = '/'
      · rw [hc, Text.split_cons_self]
        simpa using ih
      · obtain ⟨first, others, hrest⟩ := Text.exists_split '/' rest
        rw [Text.split_cons_of_ne hc hrest]
        rw [hrest] at ih
        simpa [Ne.symm hc] using ih
  obtain ⟨piece, hpiece, rfl⟩ := List.mem_map.1 h
  rw [String.toList_ofList]
  exact pieces _ piece (List.mem_filter.1 hpiece).1

theorem parts_name {name : String} (hne : name ≠ "") (h : '/' ∉ name.toList) :
    parts name = [name] := by
  have hfilled : name.toList ≠ [] := by simpa using hne
  rw [parts, Text.split_of_not_mem h]
  simp [hfilled]

theorem parts_intercalate {names : List String}
    (h : ∀ name ∈ names, name ≠ "" ∧ '/' ∉ name.toList) :
    parts ("/".intercalate names) = names := by
  induction names with
  | nil => rfl
  | cons name rest ih =>
    obtain ⟨hname, hrest⟩ := List.forall_mem_cons.1 h
    have hparts := parts_name hname.1 hname.2
    cases rest with
    | nil => simpa using hparts
    | cons next rest =>
      rw [String.intercalate_cons_cons, parts_append_slash, hparts, ih hrest]
      rfl

section Join

variable {path : String} {below : List String}

/-- A path below a path starts with it. -/
theorem exists_join_append (path : String) (xs ys : List String) :
    ∃ rest, join path (xs ++ ys) = join path xs ++ rest := by
  by_cases hxs : xs = []
  · subst hxs
    by_cases hys : ys = []
    · exact ⟨"", by simp [hys]⟩
    · exact ⟨(if endsInSlash path then "" else "/") ++ "/".intercalate ys, by
        simp [join, hys, String.append_assoc]⟩
  · by_cases hys : ys = []
    · exact ⟨"", by simp [hys]⟩
    · exact ⟨"/" ++ "/".intercalate ys, by
        simp [join, hxs, String.intercalate_append_of_ne_nil hxs hys, String.append_assoc]⟩

theorem isAbsolute_append (hne : path ≠ "") (rest : String) :
    isAbsolute (path ++ rest) = isAbsolute path := by
  have hfilled : path.toList ≠ [] := by simpa using hne
  obtain ⟨c, chars, hchars⟩ := List.exists_cons_of_ne_nil hfilled
  rw [isAbsolute, isAbsolute, String.toList_append, hchars]
  rfl

theorem isAbsolute_join (hne : path ≠ "") (below : List String) :
    isAbsolute (join path below) = isAbsolute path := by
  obtain ⟨rest, hrest⟩ := exists_join_append path [] below
  rw [List.nil_append] at hrest
  rw [hrest]
  exact isAbsolute_append hne rest

theorem parts_join (h : ∀ name ∈ below, name ≠ "" ∧ '/' ∉ name.toList) :
    parts (join path below) = parts path ++ below := by
  by_cases hbelow : below = []
  · simp [join, hbelow]
  by_cases hslash : endsInSlash path = true
  · -- the path is some text and its final slash
    obtain ⟨front, hfront⟩ := List.getLast?_eq_some_iff.1 (beq_iff_eq.1 hslash)
    have hpath : path = String.ofList front ++ "/" := by
      rw [← String.toList_inj]
      simpa using hfront
    have halone := parts_append_slash (String.ofList front) ""
    rw [String.append_empty, ← hpath] at halone
    have hjoin : join path below = String.ofList front ++ "/" ++ "/".intercalate below := by
      simp [join, hbelow, hslash, ← hpath]
    rw [hjoin, parts_append_slash, parts_intercalate h, halone]
    simp [parts, Text.split]
  · have hjoin : join path below = path ++ "/" ++ "/".intercalate below := by
      simp [join, hbelow, hslash]
    rw [hjoin, parts_append_slash, parts_intercalate h]

theorem endsInSlash_join (hne : below ≠ [])
    (h : ∀ name ∈ below, name ≠ "" ∧ '/' ∉ name.toList) :
    endsInSlash (join path below) = false := by
  obtain ⟨above, last, rfl⟩ : ∃ above last, below = above ++ [last] :=
    ⟨_, _, (List.dropLast_append_getLast hne).symm⟩
  obtain ⟨hlast, hslash⟩ := h last (by simp)
  -- the text of the last name is at the end
  have hends : ∃ text, join path (above ++ [last]) = text ++ last := by
    by_cases habove : above = []
    · exact ⟨path ++ if endsInSlash path then "" else "/", by simp [join, habove]⟩
    · refine ⟨path ++ (if endsInSlash path then "" else "/") ++ "/".intercalate above ++ "/", ?_⟩
      simp [join, String.intercalate_append_of_ne_nil habove, String.append_assoc]
  obtain ⟨text, htext⟩ := hends
  have hfilled : last.toList ≠ [] := by simpa using hlast
  rw [endsInSlash, htext, String.toList_append, List.getLast?_append_of_ne_nil _ hfilled]
  exact beq_eq_false_iff_ne.2 fun hend => hslash (List.mem_of_getLast? hend)

theorem not_mem_join {c : Char} (hc : c ≠ '/') (hpath : c ∉ path.toList)
    (h : ∀ name ∈ below, c ∉ name.toList) : c ∉ (join path below).toList := by
  have hnames : c ∉ ("/".intercalate below).toList := by
    induction below with
    | nil => simp
    | cons name rest ih =>
      obtain ⟨hname, hrest⟩ := List.forall_mem_cons.1 h
      cases rest with
      | nil => simpa using hname
      | cons next rest =>
        rw [String.intercalate_cons_cons]
        simpa [hname, hc] using ih hrest
  rw [join]
  generalize "/".intercalate below = names at hnames ⊢
  split
  · exact hpath
  · split <;> simp [hpath, hnames, hc]

end Join

/-- Paths with the same components have the same names, and start both at the root or neither. -/
theorem eq_of_components_eq {a b : String} (h : components a = components b) :
    isAbsolute a = isAbsolute b ∧ names a = names b := by
  -- a name that counts is neither a slash nor a dot, so the start of the list is told apart
  have hslash (path : String) : "/" ∉ names path := fun hmem =>
    slash_not_mem_parts (List.mem_filter.1 hmem).1 (by decide)
  have hdot (path : String) : "." ∉ names path := fun hmem => by
    simpa using (List.mem_filter.1 hmem).2
  unfold components at h
  have := hslash a
  have := hslash b
  have := hdot a
  have := hdot b
  grind

end Path

namespace FileTree

variable {t : FileTree} {links : Nat} {p q : Place} {names : List String}

/-! ## Walks along names that count -/

theorem Walks.unique {q' : Place} (h : t.Walks links p names q) (h' : t.Walks links p names q') :
    q = q' :=
  Except.ok.inj (h.locateFrom_eq.symm.trans h'.locateFrom_eq)

/-- Some of the names that lead to where they stand are left out. -/
inductive Undotted : List String → List String → Prop where
  | nil : Undotted [] []
  | kept (name : String) {names names' : List String} (h : Undotted names names') :
    Undotted (name :: names) (name :: names')
  | left {name : String} {names names' : List String} (hname : name = "" ∨ name = ".")
    (h : Undotted names names') : Undotted (name :: names) names'

theorem Undotted.refl (names : List String) : Undotted names names := by
  induction names with
  | nil => exact .nil
  | cons name names ih => exact .kept name ih

theorem Undotted.append {xs xs' ys ys' : List String} (h : Undotted xs xs')
    (h' : Undotted ys ys') : Undotted (xs ++ ys) (xs' ++ ys') := by
  induction h with
  | nil => exact h'
  | kept name _ ih => exact .kept name ih
  | left hname _ ih => exact .left hname ih

theorem OwnName.not_dot {name : String} (h : OwnName name) : ¬ (name = "" ∨ name = ".") :=
  not_or.2 ⟨h.1, h.2.1⟩

theorem Walks.undotted {names' : List String} (h : t.Walks links p names q)
    (hnames : Undotted names names') : t.Walks links p names' q := by
  induction h generalizing names' with
  | done =>
    cases hnames
    exact .done
  | shut closed _ ih =>
    cases hnames with
    | kept _ hrest => exact .shut closed (ih hrest)
    | left _ hrest => exact ih hrest
  | here folder hname _ ih =>
    cases hnames with
    | kept _ hrest => exact .here folder hname (ih hrest)
    | left _ hrest => exact ih hrest
  | up folder _ ih =>
    cases hnames with
    | kept _ hrest => exact .up folder (ih hrest)
    | left hname => simp at hname
  | link folder hname hitem _ ih =>
    cases hnames with
    | kept _ hrest => exact .link folder hname hitem (ih ((Undotted.refl _).append hrest))
    | left hdot => exact absurd hdot hname.not_dot
  | enter folder hname hitem hlink _ ih =>
    cases hnames with
    | kept _ hrest => exact .enter folder hname hitem hlink (ih hrest)
    | left hdot => exact absurd hdot hname.not_dot
  | new folder hname hitem =>
    cases hnames with
    | kept _ hrest =>
      cases hrest
      exact .new folder hname hitem
    | left hdot => exact absurd hdot hname.not_dot

theorem undotted_steps_parts (path : String) : Undotted (steps path) (Path.parts path) := by
  rw [steps]
  split
  · simpa using (Undotted.refl (Path.parts path)).append (.left (.inl rfl) .nil)
  · exact .refl _

theorem undotted_parts_names (path : String) : Undotted (Path.parts path) (Path.names path) := by
  unfold Path.names
  generalize Path.parts path = parts
  induction parts with
  | nil => exact .nil
  | cons name parts ih =>
    rw [List.filter_cons]
    split
    next => exact .kept name ih
    next hdot => exact .left (.inr (by simpa using hdot)) ih

/-- A walk goes on through folders below the place that it comes to. -/
theorem Walks.append_below {below : List String} (h : t.Walks links p names q)
    (hnames : ∀ name ∈ below, OwnName name)
    (hfolders : ∀ k < below.length, t.isFolder (q ++ below.take k) = true)
    (hlast : t.NoLink (q ++ below)) : t.Walks links p (names ++ below) (q ++ below) := by
  induction below generalizing names q with
  | nil => simpa using h
  | cons name rest ih =>
    have hq : t.isFolder q = true := by simpa using hfolders 0 (by simp)
    have hinner : ∀ k < rest.length, t.isFolder (q ++ [name] ++ rest.take k) = true := by
      intro k hk
      simpa using hfolders (k + 1) (by simpa using hk)
    have hnext : t.NoLink (q ++ [name]) := by
      cases rest with
      | nil => exact hlast
      | cons next rest => exact noLink_of_isFolder (by simpa using hinner 0 (by simp))
    have hown := hnames name List.mem_cons_self
    have honward := ih (h.concat hq hown hnext)
      (fun name hname => hnames name (List.mem_cons_of_mem _ hname)) hinner (by simpa using hlast)
    simpa using honward

/-! ## Where paths lead -/

/-- A name that a folder can have an entry of. -/
structure EntryName (name : String) : Prop where
  own : OwnName name
  slash : '/' ∉ name.toList
  nul : '\x00' ∉ name.toList

instance (name : String) : Decidable (EntryName name) :=
  decidable_of_iff (OwnName name ∧ '/' ∉ name.toList ∧ '\x00' ∉ name.toList)
    ⟨fun ⟨own, slash, nul⟩ => ⟨own, slash, nul⟩, fun h => ⟨h.own, h.slash, h.nul⟩⟩

theorem EntryName.filled {name : String} (h : EntryName name) : name ≠ "" ∧ '/' ∉ name.toList :=
  ⟨h.own.1, h.slash⟩

/-- Every place where something stands has the property. -/
def Throughout (t : FileTree) (P : Place → Prop) : Prop := ∀ p, (t.item? p).isSome = true → P p

theorem throughout_empty {P : Place → Prop} (hroot : P []) (here : Place) :
    Throughout ⟨∅, here⟩ P := by
  intro p hp
  by_cases h : p = []
  · exact h ▸ hroot
  · simp [item?_of_ne_nil h] at hp

theorem Throughout.put {P : Place → Prop} (h : t.Throughout P) (hne : p ≠ []) (hp : P p)
    (i : Item) : (t.put p i).Throughout P := by
  intro q hq
  rw [item?_put hne] at hq
  by_cases hqp : q = p
  · exact hqp ▸ hp
  · exact h q (by rwa [if_neg hqp] at hq)

/-- What stands somewhere stands there by names of entries. -/
def Named (t : FileTree) : Prop := t.Throughout fun p => ∀ name ∈ p, EntryName name

/-- The path leads to the place, however long it is. -/
def Leads (t : FileTree) (path : String) (p : Place) : Prop :=
  path ≠ "" ∧ t.Walks maxLinks (start path t.here) (steps path) p

theorem leads_of_resolve {path : String} (h : t.resolve path = .ok p) : t.Leads path p := by
  obtain ⟨hlocate, -⟩ := locate_of_resolve h
  unfold locate at hlocate
  split at hlocate
  next => cases hlocate
  next =>
    split at hlocate
    next => cases hlocate
    next hne => exact ⟨by simpa using hne, walks_of_locateFrom hlocate⟩

theorem read_eq_ok {path : String} {content : ByteArray} (h : t.read path = .ok content) :
    ∃ p, t.resolve path = .ok p ∧ t.contentAt p = .ok content := by
  unfold read at h
  cases hp : t.resolve path with
  | error e =>
    rw [hp] at h
    cases h
  | ok p =>
    rw [hp] at h
    exact ⟨p, rfl, h⟩

/-- The last name of the path is that of a link. -/
def NamesLink (t : FileTree) (path : String) : Prop :=
  ∃ above name p target, steps path = above ++ [name] ∧ name ≠ "" ∧ name ≠ "." ∧ name ≠ ".." ∧
    t.Walks maxLinks (start path t.here) above p ∧ t.item? (p ++ [name]) = some (.link target)

theorem namesLink_iff {path : String} : t.namesLink path = true ↔ t.NamesLink path := by
  unfold namesLink
  rcases List.eq_nil_or_concat' (steps path) with hnone | ⟨above, name, hsteps⟩
  · simp [NamesLink, hnone]
  · rw [hsteps, List.getLast?_concat, List.dropLast_concat]
    constructor
    · intro h
      dsimp only at h
      split at h
      next => cases h
      next hname =>
        split at h
        next => cases h
        next p hp =>
          split at h
          next target hitem =>
            simp only [Bool.or_eq_true, beq_iff_eq, not_or] at hname
            obtain ⟨⟨hempty, hdot⟩, hdots⟩ := hname
            exact ⟨above, name, p, target, hsteps, hempty, hdot, hdots, walks_of_locateFrom hp,
              hitem⟩
          next => cases h
    · rintro ⟨above', name', p, target, hsteps', hempty, hdot, hdots, hwalk, hitem⟩
      obtain ⟨rfl, hname⟩ := List.append_inj' (hsteps.symm.trans hsteps') rfl
      obtain rfl : name = name' := (List.cons.inj hname).1
      simp [hempty, hdot, hdots, hwalk.locateFrom_eq, hitem]

/-- The names along a path below a path. -/
theorem steps_join {path : String} {below : List String} (hne : below ≠ [])
    (h : ∀ name ∈ below, name ≠ "" ∧ '/' ∉ name.toList) :
    steps (Path.join path below) = Path.parts path ++ below := by
  rw [steps, Path.endsInSlash_join hne h, Path.parts_join h]
  rfl

namespace Leads

variable {path path' : String} {p' : Place}

theorem unique (h : t.Leads path p) (h' : t.Leads path p') : p = p' := h.2.unique h'.2

/-- Paths with the same components lead to the same place. -/
theorem eq_of_components_eq (h : t.Leads path p) (h' : t.Leads path' p')
    (hcomponents : Path.components path = Path.components path') : p = p' := by
  obtain ⟨hstart, hnames⟩ := Path.eq_of_components_eq hcomponents
  have counting {path : String} {p : Place} (h : t.Leads path p) :
      t.Walks maxLinks (start path t.here) (Path.names path) p :=
    (h.2.undotted (undotted_steps_parts path)).undotted (undotted_parts_names path)
  have hwalk := counting h
  rw [start, hstart, ← start, hnames] at hwalk
  exact hwalk.unique (counting h')

/-- A path below a path leads to what stands below the folder that this leads to. -/
theorem join (h : t.Leads path q) (ht : t.Named) {below : List String}
    (hitem : (t.item? (q ++ below)).isSome = true) (hlink : t.NoLink (q ++ below))
    (hfolders : ∀ k < below.length, t.isFolder (q ++ below.take k) = true) :
    t.Leads (Path.join path below) (q ++ below) := by
  obtain ⟨hne, hwalk⟩ := h
  have hnames (name : String) (hname : name ∈ below) : EntryName name :=
    ht _ hitem name (List.mem_append_right q hname)
  have hfilled (name : String) (hname : name ∈ below) := (hnames name hname).filled
  have hstart : start (Path.join path below) t.here = start path t.here := by
    rw [start, start, Path.isAbsolute_join hne]
  by_cases hbelow : below = []
  · rw [hbelow, List.append_nil]
    exact ⟨hne, hwalk⟩
  refine ⟨fun hempty => ?_, ?_⟩
  · obtain ⟨rest, hrest⟩ := Path.exists_join_append path [] below
    rw [List.nil_append, hempty] at hrest
    have hempty : path = "" ∧ rest = "" := by simpa [Path.join] using hrest.symm
    exact hne hempty.1
  · rw [hstart, steps_join hbelow hfilled]
    exact (hwalk.undotted (undotted_steps_parts path)).append_below
      (fun name hname => (hnames name hname).own) hfolders hlink

end Leads

/-! ## Canonical places -/

/-- The operating system takes the path. -/
def Accepted (path : String) : Prop := '\x00' ∉ path.toList ∧ path.utf8ByteSize ≤ maxPath

instance (path : String) : Decidable (Accepted path) := inferInstanceAs (Decidable (_ ∧ _))

theorem Accepted.of_append {path rest : String} (h : Accepted (path ++ rest)) : Accepted path := by
  obtain ⟨hnul, hlength⟩ := h
  rw [String.utf8ByteSize_append] at hlength
  exact ⟨fun hmem => hnul (by simp [hmem]), by omega⟩

theorem refusal?_eq_none_iff {path : String} : refusal? path = none ↔ Accepted path := by
  unfold refusal? Accepted
  by_cases hnul : '\x00' ∈ path.toList
  · simp [hnul]
  · by_cases hlong : path.utf8ByteSize ≤ maxPath
    · simp [hnul, hlong]
    · simp [hnul, hlong]

theorem accepted_of_resolve {path : String} (h : t.resolve path = .ok p) : Accepted path := by
  obtain ⟨hlocate, -⟩ := locate_of_resolve h
  rw [← refusal?_eq_none_iff]
  cases hrefusal : refusal? path with
  | none => rfl
  | some e =>
    rw [locate, hrefusal] at hlocate
    cases hlocate

theorem Accepted.of_absolute_append {p q : Place} (h : Accepted (Path.absolute (p ++ q))) :
    Accepted (Path.absolute p) := by
  obtain ⟨rest, hrest⟩ := Path.exists_join_append "/" p q
  rw [Path.absolute, hrest] at h
  exact h.of_append

theorem accepted_root : Accepted (Path.absolute []) := by decide

/-- A canonical place is where the names lead, and its own path is taken. -/
theorem walks_of_canonicalFrom (h : t.canonicalFrom links p names = .ok q) :
    t.Walks links p names q ∧ (Accepted (Path.absolute p) → Accepted (Path.absolute q)) := by
  fun_induction canonicalFrom t links p names with
  | case1 links p =>
    cases h
    exact ⟨.done, id⟩
  | case2 links p name rest hclosed ih =>
    rw [Bool.and_eq_true, beq_iff_eq] at hclosed
    rw [hclosed.1]
    exact ⟨.shut hclosed.2 (ih h).1, (ih h).2⟩
  | case4 links p name rest hclosed hfolder hname ih =>
    exact ⟨.here (by simpa using hfolder) (by simpa using hname) (ih h).1, (ih h).2⟩
  | case5 links p name rest hclosed hfolder hname hdots ih =>
    rw [eq_of_beq hdots]
    refine ⟨.up (by simpa using hfolder) (ih h).1, fun hp => (ih h).2 ?_⟩
    by_cases hroot : p = []
    · rwa [hroot] at hp ⊢
    · rw [← List.dropLast_append_getLast hroot] at hp
      exact hp.of_absolute_append
  | case9 p name rest hclosed hfolder hname hdots hlength target hitem hrefusal links ih =>
    have hown := ownName_of_not hname hdots hlength
    refine ⟨.link (by simpa using hfolder) hown hitem (ih h).1, fun hp => (ih h).2 ?_⟩
    rw [start]
    split
    · exact accepted_root
    · exact hp
  | case10 links p name rest hclosed hfolder hname hdots hlength item hlink hitem hrefusal ih =>
    have hown := ownName_of_not hname hdots hlength
    refine ⟨.enter (by simpa using hfolder) hown (by rw [hitem]; rfl) (fun target htarget => ?_)
      (ih h).1, fun _ => (ih h).2 (refusal?_eq_none_iff.1 hrefusal)⟩
    rw [hitem] at htarget
    exact hlink target (Option.some.inj htarget)
  | case3 | case6 | case7 | case8 | case11 => cases h

theorem canonical_eq_ok {path : String} (h : t.canonical path = .ok p) :
    t.Leads path p ∧ (Accepted (Path.absolute t.here) → Accepted (Path.absolute p)) := by
  unfold canonical at h
  split at h
  next => cases h
  next =>
    split at h
    next => cases h
    next hne =>
      obtain ⟨hwalk, haccepted⟩ := walks_of_canonicalFrom h
      refine ⟨⟨by simpa using hne, hwalk⟩, fun hhere => haccepted ?_⟩
      rw [start]
      split
      · exact accepted_root
      · exact hhere

/-- Every place where something stands has a path that the operating system takes. -/
def Addressable (t : FileTree) : Prop := t.Throughout fun p => Accepted (Path.absolute p)

theorem Walks.canonicalFrom_eq (ht : t.Addressable) (h : t.Walks links p names q)
    (hq : (t.item? q).isSome = true) : t.canonicalFrom links p names = .ok q := by
  induction h with
  | done => rw [canonicalFrom]
  | shut closed _ ih =>
    rw [canonicalFrom, closed]
    exact ih hq
  | here folder hname _ ih =>
    rw [canonicalFrom, folder, not_isClosed_of_isFolder folder]
    rcases hname with rfl | rfl <;> simpa using ih hq
  | up folder _ ih =>
    rw [canonicalFrom, folder]
    simpa using ih hq
  | @link links p q name target rest folder hname hitem _ ih =>
    obtain ⟨hempty, hdot, hdots, hshort⟩ := hname
    have htaken := refusal?_eq_none_iff.2 (ht (p ++ [name]) (by rw [hitem]; rfl))
    rw [canonicalFrom, folder, hitem, htaken]
    simpa [hempty, hdot, hdots, Nat.not_lt.2 hshort] using ih hq
  | @enter links p q name rest folder hname hitem hlink _ ih =>
    obtain ⟨hempty, hdot, hdots, hshort⟩ := hname
    have htaken := refusal?_eq_none_iff.2 (ht (p ++ [name]) hitem)
    obtain ⟨item, hitem⟩ := Option.isSome_iff_exists.1 hitem
    rw [canonicalFrom, folder, hitem, htaken]
    cases item with
    | link target => exact absurd hitem (hlink target)
    | file | folder | closed => simpa [hempty, hdot, hdots, Nat.not_lt.2 hshort] using ih hq
  | new folder hname hitem =>
    rw [hitem] at hq
    cases hq

/-- Where all places have short paths, what a path leads to has a canonical place. -/
theorem Leads.canonical_eq {path : String} (ht : t.Addressable) (h : t.Leads path p)
    (hp : (t.item? p).isSome = true) (hnul : '\x00' ∉ path.toList) :
    t.canonical path = .ok p := by
  obtain ⟨hne, hwalk⟩ := h
  rw [canonical, if_neg (by simpa using hnul), if_neg (by simpa using hne),
    hwalk.canonicalFrom_eq ht hp]

end FileTree

/-! ## Files and their keys -/

namespace SourceFile

open FileTree (Leads)

variable {t : FileTree} {path path' : String} {p p' : Place}

theorem place_reached (h : t.Leads path p) : (reached t path p).place = p := by
  unfold reached
  split
  next q hq => exact (FileTree.canonical_eq_ok hq).1.unique h
  next => rfl

theorem content_reached (h : t.resolve path = .ok p) :
    (reached t path p).content t = t.contentAt p := by
  unfold reached
  split
  next q hq =>
    rw [(FileTree.canonical_eq_ok hq).1.unique (FileTree.leads_of_resolve h)]
    rfl
  next =>
    show t.resolve path >>= t.contentAt = t.contentAt p
    rw [h]
    rfl

theorem reached_of_leads (ht : t.Addressable) (h : t.Leads path p)
    (hp : (t.item? p).isSome = true) (hnul : '\x00' ∉ path.toList) :
    reached t path p = ⟨Path.withForwardSlashes path, p, none⟩ := by
  rw [reached, h.canonical_eq ht hp hnul]

theorem reached_of_resolve (ht : t.Addressable) (h : t.resolve path = .ok p) :
    reached t path p = ⟨Path.withForwardSlashes path, p, none⟩ :=
  reached_of_leads ht (FileTree.leads_of_resolve h) (FileTree.locate_of_resolve h).2
    (FileTree.accepted_of_resolve h).1

/-- Files with one key stand at one place. -/
theorem eq_of_key_eq (h : t.Leads path p) (h' : t.Leads path' p')
    (hkey : (reached t path p).key = (reached t path' p').key) : p = p' := by
  cases hq : t.canonical path with
  | ok q =>
    cases hq' : t.canonical path' with
    | ok q' =>
      simp only [reached, hq, hq', key, FileKey.place.injEq] at hkey
      rw [← (FileTree.canonical_eq_ok hq).1.unique h, ← (FileTree.canonical_eq_ok hq').1.unique h',
        hkey]
    | error e => simp [reached, hq, hq', key] at hkey
  | error e =>
    cases hq' : t.canonical path' with
    | ok q' => simp [reached, hq, hq', key] at hkey
    | error e' =>
      simp only [reached, hq, hq', key, FileKey.path.injEq] at hkey
      exact h.eq_of_components_eq h' hkey

/-- The file is what some path leads to. -/
def Stands (t : FileTree) (f : SourceFile) : Prop :=
  ∃ path p, f = reached t path p ∧ t.Leads path p ∧ (t.item? p).isSome = true ∧
    '\x00' ∉ path.toList

theorem Stands.place_eq {f f' : SourceFile} (h : f.Stands t) (h' : f'.Stands t)
    (hkey : f.key = f'.key) : f.place = f'.place := by
  obtain ⟨path, p, rfl, hleads, -⟩ := h
  obtain ⟨path', p', rfl, hleads', -⟩ := h'
  rw [place_reached hleads, place_reached hleads', eq_of_key_eq hleads hleads' hkey]

/-- Where all places have short paths, files are told apart by their places. -/
theorem Stands.key_eq {f : SourceFile} (ht : t.Addressable) (h : f.Stands t) :
    f.key = .place f.place := by
  obtain ⟨path, p, rfl, hleads, hitem, hnul⟩ := h
  rw [reached_of_leads ht hleads hitem hnul]
  rfl

/-- Files with one key have the same content, if they can be read. -/
theorem content_eq_of_key_eq {f f' : SourceFile} {x y : ByteArray} (hkey : f.key = f'.key)
    (h : f.content t = .ok x) (h' : f'.content t = .ok y) : x = y := by
  obtain ⟨_, p, walked⟩ := f
  obtain ⟨_, p', walked'⟩ := f'
  cases walked with
  | none =>
    cases walked' with
    | none =>
      cases hkey
      exact Except.ok.inj (h.symm.trans h')
    | some path' => cases hkey
  | some path =>
    cases walked' with
    | none => cases hkey
    | some path' =>
      obtain ⟨q, hq, hx⟩ := FileTree.read_eq_ok h
      obtain ⟨q', hq', hy⟩ := FileTree.read_eq_ok h'
      have hsame := (FileTree.leads_of_resolve hq).eq_of_components_eq
        (FileTree.leads_of_resolve hq') (FileKey.path.inj hkey)
      rw [hsame, hy] at hx
      exact (Except.ok.inj hx).symm

end SourceFile

/-! ## A file without a canonical place -/

namespace FileTree

/-- A name as long as names may be. -/
def longName : String := String.ofList (List.replicate maxName 'n')

theorem utf8ByteSize_longName : longName.utf8ByteSize = 255 := by
  have hsize (n : Nat) : (String.ofList (List.replicate n 'n')).utf8ByteSize = n := by
    induction n with
    | zero => rfl
    | succ n ih =>
      rw [List.replicate_succ', String.ofList_append, String.utf8ByteSize_append, ih]
      rfl
  exact hsize maxName

theorem longName_ne {name : String} (h : name.utf8ByteSize < 255) : longName ≠ name := by
  rintro rfl
  rw [utf8ByteSize_longName] at h
  omega

theorem entryName_longName : EntryName longName := by
  refine ⟨⟨longName_ne (by decide), longName_ne (by decide), longName_ne (by decide), ?_⟩, ?_, ?_⟩
  · exact Nat.le_of_eq utf8ByteSize_longName
  · simp [longName]
  · simp [longName]

/-- Folders in each other, all of that name. -/
def nested : Nat → FileTree
  | 0 => ⟨∅, []⟩
  | n + 1 => (nested n).put (List.replicate (n + 1) longName) .folder

theorem item?_nested (n : Nat) (p : Place) :
    (nested n).item? p =
      if p.length ≤ n ∧ p = List.replicate p.length longName then some .folder else none := by
  induction n with
  | zero =>
    by_cases hp : p = []
    · subst hp
      rfl
    · simp [nested, item?_of_ne_nil hp, hp]
  | succ n ih =>
    rw [nested, item?_put (by simp), ih]
    by_cases hp : p = List.replicate (n + 1) longName
    · simp [hp]
    · have hlength : p = List.replicate p.length longName → p.length ≠ n + 1 := by
        intro hall hlength
        exact hp (hlength ▸ hall)
      grind

theorem isFolder_nested {k n : Nat} (h : k ≤ n) :
    (nested n).isFolder (List.replicate k longName) = true := by
  rw [isFolder_iff, item?_nested]
  simp [h]

theorem rooted_nested (n : Nat) : (nested n).Rooted := by
  induction n with
  | zero => exact rooted_empty
  | succ n ih =>
    refine ih.put ?_ ?_ .folder
    · simpa using isFolder_nested (Nat.le_refl n)
    · simp [isFolder, item?_nested]

theorem named_nested (n : Nat) : (nested n).Named := by
  induction n with
  | zero => exact throughout_empty (by simp) []
  | succ n ih =>
    refine Throughout.put ih (by simp) (fun name hname => ?_) .folder
    rw [(List.mem_replicate.1 hname).2]
    exact entryName_longName

/-- The place of a file below sixteen such folders. -/
def deepPlace : Place := List.replicate 16 longName ++ ["a.cbl"]

theorem length_deepPlace : deepPlace.length = 17 := rfl

theorem utf8ByteSize_long (n : Nat) :
    ("/".intercalate (List.replicate n longName ++ ["a.cbl"])).utf8ByteSize = 256 * n + 5 := by
  induction n with
  | zero => rfl
  | succ n ih =>
    have hslash : "/".utf8ByteSize = 1 := rfl
    have hne : List.replicate n longName ++ ["a.cbl"] ≠ [] := by simp
    obtain ⟨next, rest, hrest⟩ := List.exists_cons_of_ne_nil hne
    rw [hrest] at ih
    rw [List.replicate_succ, List.cons_append, hrest, String.intercalate_cons_cons,
      String.utf8ByteSize_append, String.utf8ByteSize_append, ih, utf8ByteSize_longName, hslash]
    omega

theorem entryName_of_mem_deepPlace {name : String} (h : name ∈ deepPlace) : EntryName name := by
  rcases List.mem_append.1 h with h | h
  · rw [(List.mem_replicate.1 h).2]
    exact entryName_longName
  · rw [List.mem_singleton.1 h]
    decide

theorem not_accepted_deepPlace : ¬ Accepted (Path.absolute deepPlace) := by
  rintro ⟨-, hlength⟩
  have hjoin : Path.absolute deepPlace = "/" ++ "/".intercalate deepPlace := rfl
  have hmax : maxPath = 4095 := rfl
  rw [hjoin, deepPlace, String.utf8ByteSize_append, utf8ByteSize_long] at hlength
  omega

/-- The file in its folders, and a link to the folder two above the file's. -/
def deepTree (content : ByteArray) : FileTree :=
  ((nested 16).put deepPlace (.file content)).put ["l"]
    (.link (Path.join longName (List.replicate 13 longName)))

/-- The path to the file below a path to the link. -/
def deepPath (link : String) : String := Path.join link [longName, longName, "a.cbl"]

theorem filled_of_mem_deepPath {name : String} (h : name ∈ [longName, longName, "a.cbl"]) :
    name ≠ "" ∧ '/' ∉ name.toList :=
  (entryName_of_mem_deepPlace (List.mem_of_mem_drop (i := 14) h)).filled

section Deep

variable (content : ByteArray)

theorem item?_deepTree (p : Place) : (deepTree content).item? p =
    if p = ["l"] then some (.link (Path.join longName (List.replicate 13 longName)))
    else if p = deepPlace then some (.file content) else (nested 16).item? p := by
  rw [deepTree, item?_put (by simp), item?_put (by simp [deepPlace])]

theorem item?_deepPlace : (deepTree content).item? deepPlace = some (.file content) := by
  rw [item?_deepTree, if_neg (by simp [deepPlace]), if_pos rfl]

theorem isFolder_deepTree {k : Nat} (h : k ≤ 16) :
    (deepTree content).isFolder (List.replicate k longName) = true := by
  have hlink : List.replicate k longName ≠ ["l"] := by
    intro heq
    have hname : "l" ∈ List.replicate k longName := heq ▸ List.mem_singleton_self _
    exact longName_ne (by decide) (List.mem_replicate.1 hname).2.symm
  have hfile : List.replicate k longName ≠ deepPlace := by
    intro heq
    have hlength := congrArg List.length heq
    rw [List.length_replicate, length_deepPlace] at hlength
    omega
  rw [isFolder_iff, item?_deepTree, if_neg hlink, if_neg hfile, ← isFolder_iff]
  exact isFolder_nested h

theorem rooted_deepTree : (deepTree content).Rooted := by
  have habove : (nested 16).isFolder deepPlace.dropLast = true := by
    rw [deepPlace, List.dropLast_concat]
    exact isFolder_nested (Nat.le_refl 16)
  have hfile : (nested 16).item? deepPlace = none := by
    rw [item?_nested, length_deepPlace, if_neg fun h => absurd h.1 (by decide)]
  have hother : (["l"] : Place) ≠ deepPlace := fun h => by
    have hlength := congrArg List.length h
    rw [length_deepPlace] at hlength
    cases hlength
  have hlink : ((nested 16).put deepPlace (.file content)).item? ["l"] = none := by
    rw [item?_put (by simp [deepPlace]), if_neg hother, item?_nested, if_neg]
    rintro ⟨-, hname⟩
    exact longName_ne (by decide) (List.cons.inj hname).1.symm
  refine ((rooted_nested 16).put habove ?_ _).put rfl ?_ _
  · rw [isFolder, hfile]
  · rw [isFolder, hlink]

theorem named_deepTree : (deepTree content).Named := by
  have hfile : ((nested 16).put deepPlace (.file content)).Named :=
    Throughout.put (named_nested 16) (by simp [deepPlace])
      (fun _ hname => entryName_of_mem_deepPlace hname) _
  exact Throughout.put hfile (by simp) (by decide) _

/-- Along the link and the names below it a walk comes to the file. -/
theorem walks_deepTree :
    (deepTree content).Walks maxLinks [] (["l"] ++ [longName, longName, "a.cbl"]) deepPlace := by
  have hitem : (deepTree content).item? ([] ++ ["l"]) =
      some (.link (Path.join longName (List.replicate 13 longName))) := by
    rw [item?_deepTree, if_pos (List.nil_append _)]
  have hsteps : steps (Path.join longName (List.replicate 13 longName)) =
      [longName] ++ List.replicate 13 longName := by
    have hfilled := entryName_longName.filled
    rw [steps_join (by simp) fun name hname => (List.mem_replicate.1 hname).2 ▸ hfilled,
      Path.parts_name hfilled.1 hfilled.2]
  have hbelow : (deepTree content).Walks 39 [] ([] ++ deepPlace) ([] ++ deepPlace) := by
    refine Walks.append_below .done (fun name hname => (entryName_of_mem_deepPlace hname).own)
      (fun k hk => ?_) fun target htarget => ?_
    · rw [length_deepPlace] at hk
      have htake : deepPlace.take k = List.replicate k longName := by
        rw [deepPlace, List.take_append_of_le_length (by simp; omega), List.take_replicate,
          Nat.min_eq_left (by omega)]
      rw [List.nil_append, htake]
      exact isFolder_deepTree content (by omega)
    · rw [List.nil_append, item?_deepPlace] at htarget
      cases htarget
  refine .link rfl (by decide) hitem ?_
  rw [start, ite_self, hsteps]
  exact hbelow

theorem resolve_deepTree {link : String} (h : link = "l" ∨ link = "./l") :
    (deepTree content).resolve (deepPath link) = .ok deepPlace := by
  have hjoin : deepPath link = link ++ "/" ++ "/".intercalate [longName, longName, "a.cbl"] := by
    rcases h with rfl | rfl <;> rfl
  have haccepted : Accepted (deepPath link) := by
    constructor
    · have hlink : '\x00' ∉ link.toList := by rcases h with rfl | rfl <;> decide
      refine Path.not_mem_join (by decide) hlink fun name hname => ?_
      exact (entryName_of_mem_deepPlace (List.mem_of_mem_drop (i := 14) hname)).nul
    · have hnames : ("/".intercalate [longName, longName, "a.cbl"]).utf8ByteSize = 256 * 2 + 5 :=
        utf8ByteSize_long 2
      have hlink : link.utf8ByteSize ≤ 3 := by rcases h with rfl | rfl <;> decide
      have hslash : "/".utf8ByteSize = 1 := rfl
      have hmax : maxPath = 4095 := rfl
      rw [hjoin, String.utf8ByteSize_append, String.utf8ByteSize_append, hnames]
      omega
  have hwalk : (deepTree content).Walks maxLinks [] (steps (deepPath link)) deepPlace := by
    rw [deepPath, steps_join (by simp) fun _ hname => filled_of_mem_deepPath hname]
    rcases h with rfl | rfl
    · exact walks_deepTree content
    · exact .here rfl (.inr rfl) (walks_deepTree content)
  have hstart : start (deepPath link) (deepTree content).here = [] := by
    rw [start, show (deepTree content).here = [] from rfl, ite_self]
  refine resolve_of_locateFrom (refusal?_eq_none_iff.2 haccepted) (by simp [hjoin]) ?_ ?_
  · rw [hstart]
    exact hwalk.locateFrom_eq
  · rw [item?_deepPlace]
    rfl

/-- The own path of the place is too long, so the file is known by the path that reached it. -/
theorem reached_deepTree {path : String} (h : (deepTree content).Leads path deepPlace) :
    SourceFile.reached (deepTree content) path deepPlace =
      ⟨Path.withForwardSlashes path, deepPlace, some path⟩ := by
  unfold SourceFile.reached
  split
  next q hq =>
    obtain ⟨hleads, haccepted⟩ := canonical_eq_ok hq
    rw [hleads.unique h] at haccepted
    exact absurd (haccepted accepted_root) not_accepted_deepPlace
  next => rfl

/-- A dot in front makes another key, though it leads to the same place. -/
theorem key_deepTree_ne :
    (SourceFile.reached (deepTree content) (deepPath "l") deepPlace).key ≠
      (SourceFile.reached (deepTree content) (deepPath "./l") deepPlace).key := by
  have hplain := leads_of_resolve (resolve_deepTree content (.inl rfl))
  have hdotted := leads_of_resolve (resolve_deepTree content (.inr rfl))
  rw [reached_deepTree content hplain, reached_deepTree content hdotted]
  have hparts (link : String) :
      Path.parts (deepPath link) = Path.parts link ++ [longName, longName, "a.cbl"] :=
    Path.parts_join fun _ hname => filled_of_mem_deepPath hname
  have hcomponents : Path.components (deepPath "l") = Path.names (deepPath "l") ∧
      Path.components (deepPath "./l") = "." :: Path.names (deepPath "./l") := by
    constructor
    · rw [Path.components, deepPath, Path.isAbsolute_join (by decide), ← deepPath, hparts]
      rfl
    · rw [Path.components, deepPath, Path.isAbsolute_join (by decide), ← deepPath, hparts]
      rfl
  have hnames : Path.names (deepPath "./l") = Path.names (deepPath "l") := by
    rw [Path.names, Path.names, hparts, hparts, List.filter_append, List.filter_append]
    rfl
  intro hkey
  have hlength := congrArg List.length (FileKey.path.inj hkey)
  rw [hcomponents.1, hcomponents.2, hnames, List.length_cons] at hlength
  omega

end Deep

end FileTree
end CobolCalls
