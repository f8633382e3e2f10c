import CobolCalls.Proofs.CanonicalPlaces
import Mathlib.Data.List.TakeWhile

/-
  Which files a folder contributes. `Selected` says it of the names that lead from the folder to
  the file: which of them are excluded or hidden, which extensions count, and how long a path may
  be. `selected_iff` says that the walk takes exactly the items along such names, and
  `exists_contributed_ofFolder` that it takes them in the order of the tree.

  A walk knows a folder by a path. If that is too long the folder cannot be opened, and nothing
  below it is selected; if the path of a file is, the file has no size that could exceed the limit.
  The name of the input counts if that is the folder itself, and not if it is a link to it.
-/

namespace CobolCalls

/-! ## Names and paths -/

namespace Path

/-- The name by which a walk knows the folder at a path: the last component of the path, or the
whole path if that is two dots or there is none. -/
inductive Called (path : String) : String → Prop where
  | last {above : List String} {name : String} (h : names path = above ++ [name])
    (hname : name ≠ "..") : Called path name
  | whole (h : ∀ above name, names path = above ++ [name] → name = "..") : Called path path

theorem walkName_of_concat {path last : String} {above : List String}
    (h : names path = above ++ [last]) :
    walkName path = if last = ".." then path else last := by
  by_cases hdots : last = ".."
  · simp [walkName, name?, h, hdots]
  · simp [walkName, name?, h, hdots]

theorem walkName_of_nil {path : String} (h : names path = []) : walkName path = path := by
  simp [walkName, name?, h]

theorem called_iff {path name : String} : Called path name ↔ walkName path = name := by
  constructor
  · rintro (⟨hlast, hname⟩ | hwhole)
    · rw [walkName_of_concat hlast, if_neg hname]
    · rcases List.eq_nil_or_concat' (names path) with hnone | ⟨above, last, hlast⟩
      · exact walkName_of_nil hnone
      · rw [walkName_of_concat hlast, if_pos (hwhole above last hlast)]
  · rintro rfl
    rcases List.eq_nil_or_concat' (names path) with hnone | ⟨above, last, hlast⟩
    · rw [walkName_of_nil hnone]
      exact .whole fun above name h => by simp [hnone] at h
    · rw [walkName_of_concat hlast]
      split
      next hdots =>
        refine .whole fun above' name h => ?_
        have hsame := (List.append_inj' (hlast.symm.trans h) rfl).2
        rw [← (List.cons.inj hsame).1, hdots]
      next hname => exact .last hlast hname

/-- A file name with an extension: what follows its last dot, unless that dot comes first. -/
def HasExtension (name ext : String) : Prop :=
  ∃ stem, stem ≠ "" ∧ name = stem ++ "." ++ ext ∧ '.' ∉ ext.toList ∧ name ≠ ".."

theorem extension?_eq_some_iff {name ext : String} :
    extension? name = some ext ↔ HasExtension name ext := by
  unfold extension? splitName
  dsimp only
  -- the last dot is the first one from the end
  constructor
  · intro h
    have parts := List.takeWhile_append_dropWhile (p := (· != '.')) (l := name.toList.reverse)
    split at h
    next dot before hdrop =>
      split at h
      next => cases h
      next hkept =>
        obtain rfl := Option.some.inj h
        simp only [Bool.or_eq_true, List.isEmpty_iff, beq_iff_eq, not_or] at hkept
        have hdot : dot = '.' := by
          have := List.head?_dropWhile_not (· != '.') name.toList.reverse
          simpa [hdrop] using this
        rw [hdrop, hdot] at parts
        refine ⟨String.ofList before.reverse, by simpa using hkept.1, ?_, ?_, hkept.2⟩
        · rw [← String.toList_inj]
          simpa using (congrArg List.reverse parts).symm
        · intro hmem
          rw [String.toList_ofList, List.mem_reverse] at hmem
          simpa using List.mem_takeWhile_imp hmem
    next => cases h
  · rintro ⟨stem, hstem, hname, hdot, hdots⟩
    have hreversed : name.toList.reverse = ext.toList.reverse ++ '.' :: stem.toList.reverse := by
      simp [hname]
    have hext : ∀ c ∈ ext.toList.reverse, (c != '.') = true := by
      intro c hc
      have : c ≠ '.' := fun he => hdot (he ▸ List.mem_reverse.1 hc)
      simpa using this
    have htake : name.toList.reverse.takeWhile (· != '.') = ext.toList.reverse := by
      rw [hreversed, List.takeWhile_append_of_pos hext]
      simp
    have hdrop : name.toList.reverse.dropWhile (· != '.') = '.' :: stem.toList.reverse := by
      rw [hreversed, List.dropWhile_append_of_pos hext]
      simp
    rw [hdrop, htake]
    simp [hstem, hdots]

end Path

namespace Discovery

theorem isReachable_iff {input : String} {below : List String} :
    isReachable input below = true ↔ FileTree.Accepted (Path.join input below) := by
  rw [isReachable, Option.isNone_iff_eq_none, FileTree.refusal?_eq_none_iff]

theorem lowerAscii_eq_toLower : lowerAscii = Char.toLower := by
  funext c
  have upper : (decide ('A' ≤ c) && decide (c ≤ 'Z')) = true ↔
      c.val ≥ 'A'.val ∧ c.val ≤ 'Z'.val := by simp [Char.le_def]
  unfold lowerAscii Char.toLower
  by_cases h : c.val ≥ 'A'.val ∧ c.val ≤ 'Z'.val
  · rw [if_pos (upper.2 h), dif_pos h]
    have high : c.val.toNat ≤ 90 := h.2
    have lowered : (c.val + ('a'.val - 'A'.val)).toNat = c.toNat + 32 :=
      Nat.mod_eq_of_lt (show c.val.toNat + 32 < 2 ^ 32 by omega)
    rw [← lowered]
    exact Char.ofNat_toNat ⟨c.val + ('a'.val - 'A'.val), _⟩
  · rw [if_neg fun hupper => h (upper.1 hupper), dif_neg h]

theorem sameIgnoringCase_iff {a b : String} :
    sameIgnoringCase a b = true ↔ a.toList.map Char.toLower = b.toList.map Char.toLower := by
  rw [sameIgnoringCase, beq_iff_eq, lowerAscii_eq_toLower]

/-! ## What a folder contributes -/

/-- Folders contribute nothing of that name. -/
def Excluded (c : Config) (name : String) : Prop := name ∈ alwaysExcluded ∨ name ∈ c.excludes

instance (c : Config) (name : String) : Decidable (Excluded c name) :=
  inferInstanceAs (Decidable (_ ∨ _))

theorem excludes_iff {c : Config} {name : String} : excludes c name = true ↔ Excluded c name := by
  simp [excludes, Excluded]

/-- What the names and the items on the way ask of a file below the folder at `q`. -/
structure Admitted (c : Config) (t : FileTree) (q : Place) (below : List String) : Prop where
  reached : ∀ k < below.length, t.isFolder (q ++ below.take k) = true
  included : ∀ name ∈ below, ¬ Excluded c name
  visible : ∀ name ∈ below.dropLast, name.toList.head? ≠ some '.'
  extension : ∃ name ext, below.getLast? = some name ∧ Path.HasExtension name ext ∧
    ∃ listed ∈ c.extensions, listed.toList.map Char.toLower = ext.toList.map Char.toLower

/-- What a walk from the input at place `q` takes along the names `below`: an admitted file, in
folders that can be opened, of at most the given size. The size of a file whose own path is too
long cannot be asked for, and does not count. Nor does the name of the input, if it is that of a
link. -/
structure Selected (c : Config) (t : FileTree) (input : String) (q : Place)
    (below : List String) : Prop where
  named : (∀ name, Path.Called input name → ¬ Excluded c name) ∨ t.NamesLink input
  admitted : Admitted c t q below
  opened : ∀ k < below.length, FileTree.Accepted (Path.join input (below.take k))
  file : ∃ content, t.item? (q ++ below) = some (.file content) ∧
    (content.size ≤ c.maxFileSize ∨ ¬ FileTree.Accepted (Path.join input below))

/-- Whether a walk takes the item along these names. -/
def takes (c : Config) (input : String) (e : List String × Item) : Bool :=
  visits c input e.1 && match e.2 with
    | .file content => e.1.getLast?.any (hasListedExtension c) &&
        decide (sizeSeen input e.1 content ≤ c.maxFileSize)
    | _ => false

/-- The file along the names `below` from an input at place `q`. -/
def fileBelow (t : FileTree) (input : String) (q : Place) (below : List String) : SourceFile :=
  .reached t (Path.join input below) (q ++ below)

/-- The file that a finding is. -/
def file? : Except Log.Record SourceFile → Option SourceFile
  | .error _ => none
  | .ok file => some file

theorem contributed_eq (found : List (Except Log.Record SourceFile)) :
    contributed found = found.filterMap file? := rfl

/-- A warning is no file. -/
theorem bind_file?_unopened? (input : String) (below : List String) (item : Item) :
    (unopened? input below item).bind file? = none := by
  dsimp only [unopened?]
  cases FileTree.obstacle? (Path.join input below) item <;> rfl

/-- Of the items on a walk, it contributes exactly those that it takes. -/
theorem file?_ofItem (c : Config) (t : FileTree) (input : String) (q : Place)
    (below : List String) (item : Item) :
    (if visits c input below then ofItem c t input q below item else none).bind file? =
      if takes c input (below, item) then some (fileBelow t input q below) else none := by
  unfold takes
  cases visits c input below with
  | false => rfl
  | true =>
    cases item with
    | file content =>
      simp only [ofItem, select, Bool.true_and, if_true, Bool.and_eq_true, decide_eq_true_eq]
      by_cases hext : below.getLast?.any (hasListedExtension c) = true
      · by_cases hsize : sizeSeen input below content ≤ c.maxFileSize
        · simp [hext, hsize, file?, fileBelow]
        · simp [hext, hsize, file?]
      · simp [hext]
    | folder | closed =>
      simp only [ofItem, if_true]
      split
      · exact bind_file?_unopened? ..
      · rfl
    | link target => rfl

theorem leavesOut_eq_false_iff {c : Config} {t : FileTree} {input : String} :
    leavesOut c t input = false ↔
      (∀ name, Path.Called input name → ¬ Excluded c name) ∨ t.NamesLink input := by
  rw [leavesOut, Bool.and_eq_false_iff, Bool.not_eq_false', FileTree.namesLink_iff,
    ← Bool.not_eq_true, excludes_iff]
  simp only [Path.called_iff, forall_eq']

theorem contributed_ofFolder {c : Config} {t : FileTree} {input : String} (q : Place)
    (h : leavesOut c t input = false) :
    contributed (ofFolder c t input q) =
      ((t.itemsBelow q).filter (takes c input)).map fun e => fileBelow t input q e.1 := by
  have hroot : ((t.item? q).bind (unopened? input [])).toList.filterMap file? = [] := by
    cases t.item? q with
    | none => rfl
    | some item =>
      have hwarned := bind_file?_unopened? input [] item
      rw [Option.bind_some]
      cases hopened : unopened? input [] item with
      | none => rfl
      | some found =>
        rw [hopened] at hwarned
        simpa using hwarned
  rw [ofFolder, if_neg (by simp [h]), contributed_eq, List.filterMap_append, hroot,
    List.nil_append, List.filterMap_filterMap]
  induction t.itemsBelow q with
  | nil => rfl
  | cons e rest ih =>
    obtain ⟨below, item⟩ := e
    rw [List.filterMap_cons, file?_ofItem, List.filter_cons, ih]
    cases takes c input (below, item) <;> rfl

theorem contributed_ofFolder_leftOut {c : Config} {t : FileTree} {input : String} (q : Place)
    (h : leavesOut c t input = true) : contributed (ofFolder c t input q) = [] := by
  rw [ofFolder, if_pos h]
  rfl

/-- A file below a folder is what the path to it leads to. -/
theorem leads_fileBelow {t : FileTree} {input : String} {q : Place} {below : List String}
    {content : ByteArray} (ht : t.Named) (hq : t.resolve input = .ok q)
    (hfolders : ∀ k < below.length, t.isFolder (q ++ below.take k) = true)
    (hitem : t.item? (q ++ below) = some (.file content)) :
    t.Leads (Path.join input below) (q ++ below) := by
  have hnoLink : t.NoLink (q ++ below) := fun target hlink => by cases hitem.symm.trans hlink
  exact (FileTree.leads_of_resolve hq).join ht (by rw [hitem]; rfl) hnoLink hfolders

theorem nul_not_mem_below {t : FileTree} {input : String} {q : Place} {below : List String}
    (ht : t.Named) (hq : t.resolve input = .ok q) (hitem : (t.item? (q ++ below)).isSome = true) :
    '\x00' ∉ (Path.join input below).toList := by
  refine Path.not_mem_join (by decide) (FileTree.accepted_of_resolve hq).1 fun name hname => ?_
  exact (ht _ hitem name (List.mem_append_right q hname)).nul

/-- Where all places have short paths, a file below a folder is known by its place. -/
theorem fileBelow_eq {t : FileTree} {input : String} {q : Place} {below : List String}
    {content : ByteArray} (ht : t.Named) (hshort : t.Addressable) (hq : t.resolve input = .ok q)
    (hfolders : ∀ k < below.length, t.isFolder (q ++ below.take k) = true)
    (hitem : t.item? (q ++ below) = some (.file content)) :
    fileBelow t input q below =
      ⟨Path.withForwardSlashes (Path.join input below), q ++ below, none⟩ := by
  have hsome : (t.item? (q ++ below)).isSome = true := by rw [hitem]; rfl
  exact SourceFile.reached_of_leads hshort (leads_fileBelow ht hq hfolders hitem) hsome
    (nul_not_mem_below ht hq hsome)

theorem stands_of_mem_ofFolder {c : Config} {t : FileTree} {input : String} {q : Place}
    {f : SourceFile} (ht : t.Named) (hq : t.resolve input = .ok q)
    (h : f ∈ contributed (ofFolder c t input q)) : f.Stands t := by
  cases hnamed : leavesOut c t input with
  | true =>
    rw [contributed_ofFolder_leftOut q hnamed] at h
    cases h
  | false =>
    rw [contributed_ofFolder q hnamed] at h
    obtain ⟨⟨below, item⟩, hmem, rfl⟩ := List.mem_map.1 h
    obtain ⟨hmem, htakes⟩ := List.mem_filter.1 hmem
    obtain ⟨hitem, hne, hfolders⟩ := FileTree.mem_itemsBelow.1 hmem
    rw [← FileTree.item?_of_ne_nil (by simp [hne])] at hitem
    cases item with
    | file content =>
      have hsome : (t.item? (q ++ below)).isSome = true := by rw [hitem]; rfl
      exact ⟨_, _, rfl, leads_fileBelow ht hq hfolders hitem, hsome,
        nul_not_mem_below ht hq hsome⟩
    | folder | link | closed => simp [takes] at htakes

/-! ## What is selected -/

section Selected

variable {c : Config} {t : FileTree} {input : String} {q : Place} {below : List String}

/-- A path that is taken is taken up to every name along it. -/
theorem isReachable_dropLast_iff (hne : below ≠ []) :
    isReachable input below.dropLast = true ↔
      ∀ k < below.length, FileTree.Accepted (Path.join input (below.take k)) := by
  rw [isReachable_iff]
  constructor
  · intro h k hk
    -- the path of a folder further up is the start of the path of the last one
    have htake : below.take k = below.dropLast.take k := by
      rw [List.dropLast_eq_take, List.take_take, Nat.min_eq_left (by omega)]
    have hsplit : below.dropLast = below.take k ++ below.dropLast.drop k := by
      rw [htake, List.take_append_drop]
    obtain ⟨rest, hrest⟩ := Path.exists_join_append input (below.take k) (below.dropLast.drop k)
    rw [← hsplit] at hrest
    exact FileTree.Accepted.of_append (hrest ▸ h)
  · intro h
    have hlength := List.length_pos_iff.2 hne
    have hlast := h (below.length - 1) (by omega)
    rwa [← List.dropLast_eq_take] at hlast

theorem enters_iff {folders : List String} :
    enters c folders = true ↔
      ∀ name ∈ folders, ¬ Excluded c name ∧ name.toList.head? ≠ some '.' := by
  simp only [enters, Bool.and_eq_true, Bool.not_eq_true', List.any_eq_false, excludes_iff, isHidden,
    beq_iff_eq]
  exact ⟨fun h name hname => ⟨h.1 name hname, h.2 name hname⟩,
    fun h => ⟨fun name hname => (h name hname).1, fun name hname => (h name hname).2⟩⟩

/-- A walk comes along names of which none is excluded and no folder hidden, through folders that
can be opened. -/
theorem visits_iff (hne : below ≠ []) :
    visits c input below = true ↔
      (∀ name ∈ below, ¬ Excluded c name) ∧
      (∀ name ∈ below.dropLast, name.toList.head? ≠ some '.') ∧
      ∀ k < below.length, FileTree.Accepted (Path.join input (below.take k)) := by
  rw [← isReachable_dropLast_iff hne]
  obtain ⟨above, last, rfl⟩ : ∃ above last, below = above ++ [last] :=
    ⟨_, _, (List.dropLast_append_getLast hne).symm⟩
  have hlast : ((above ++ [last]).getLast?.any (excludes c)) = true ↔ Excluded c last := by
    simp [excludes_iff]
  rw [visits, Bool.and_eq_true, Bool.and_eq_true, Bool.not_eq_true', ← Bool.not_eq_true, hlast,
    enters_iff, List.dropLast_concat, List.forall_mem_append, List.forall_mem_singleton]
  constructor
  · rintro ⟨⟨hfolders, hreach⟩, hname⟩
    exact ⟨⟨fun name h => (hfolders name h).1, hname⟩, fun name h => (hfolders name h).2, hreach⟩
  · rintro ⟨⟨hfolders, hname⟩, hvisible, hreach⟩
    exact ⟨⟨fun name h => ⟨hfolders name h, hvisible name h⟩, hreach⟩, hname⟩

theorem hasListedExtension_iff :
    below.getLast?.any (hasListedExtension c) = true ↔
      ∃ name ext, below.getLast? = some name ∧ Path.HasExtension name ext ∧
        ∃ listed ∈ c.extensions, listed.toList.map Char.toLower = ext.toList.map Char.toLower := by
  simp only [Option.any_eq_true, hasListedExtension, Path.extension?_eq_some_iff, List.any_eq_true,
    sameIgnoringCase_iff]
  constructor
  · rintro ⟨name, hname, ext, hext, hlisted⟩
    exact ⟨name, ext, hname, hext, hlisted⟩
  · rintro ⟨name, ext, hname, hext, hlisted⟩
    exact ⟨name, hname, ext, hext, hlisted⟩

theorem sizeSeen_le_iff {content : ByteArray} :
    sizeSeen input below content ≤ c.maxFileSize ↔
      content.size ≤ c.maxFileSize ∨ ¬ FileTree.Accepted (Path.join input below) := by
  rw [sizeSeen, ← isReachable_iff]
  split
  next h => simp [h]
  next h => simp [h]

/-- What is selected below a folder is what the walk through its items takes. -/
theorem selected_iff (hq : t.isFolder q = true) :
    Selected c t input q below ↔ leavesOut c t input = false ∧
      ∃ e ∈ t.itemsBelow q, takes c input e = true ∧ e.1 = below := by
  constructor
  · intro h
    obtain ⟨content, hitem, hsize⟩ := h.file
    have hne : below ≠ [] := by
      rintro rfl
      rw [List.append_nil] at hitem
      simp [FileTree.isFolder, hitem] at hq
    have hvisits : visits c input below = true :=
      (visits_iff hne).2 ⟨h.admitted.included, h.admitted.visible, h.opened⟩
    rw [FileTree.item?_of_ne_nil (by simp [hne])] at hitem
    refine ⟨leavesOut_eq_false_iff.2 h.named, (below, .file content),
      FileTree.mem_itemsBelow.2 ⟨hitem, hne, h.admitted.reached⟩, ?_, rfl⟩
    simp [takes, hvisits, hasListedExtension_iff.2 h.admitted.extension, sizeSeen_le_iff.2 hsize]
  · rintro ⟨hnamed, ⟨below', item⟩, hmem, htakes, rfl⟩
    obtain ⟨hitem, hne, hreached⟩ := FileTree.mem_itemsBelow.1 hmem
    cases item with
    | file content =>
      simp only [takes, Bool.and_eq_true, decide_eq_true_eq] at htakes
      obtain ⟨hvisits, hextension, hsize⟩ := htakes
      obtain ⟨hincluded, hvisible, hopened⟩ := (visits_iff hne).1 hvisits
      rw [← FileTree.item?_of_ne_nil (by simp [hne])] at hitem
      exact ⟨leavesOut_eq_false_iff.1 hnamed,
        ⟨hreached, hincluded, hvisible, hasListedExtension_iff.1 hextension⟩, hopened,
        content, hitem, sizeSeen_le_iff.1 hsize⟩
    | folder | link | closed => simp [takes] at htakes

/-- What a folder contributes: the selected files, in the order of the names below it. -/
theorem exists_contributed_ofFolder (c : Config) (input : String) (hq : t.isFolder q = true) :
    ∃ belows : List Place, belows.Pairwise Place.Before ∧
      (∀ below, below ∈ belows ↔ Selected c t input q below) ∧
      contributed (ofFolder c t input q) = belows.map (fileBelow t input q) := by
  cases hnamed : leavesOut c t input with
  | true =>
    refine ⟨[], .nil, fun below => ?_, contributed_ofFolder_leftOut q hnamed⟩
    simp [selected_iff hq, hnamed]
  | false =>
    refine ⟨((t.itemsBelow q).filter (takes c input)).map Prod.fst, ?_, fun below => ?_, ?_⟩
    · rw [List.pairwise_map]
      exact (t.itemsBelow_before q).filter _
    · rw [selected_iff hq]
      simp [hnamed]
    · rw [contributed_ofFolder q hnamed, List.map_map]
      rfl

/-- A closed folder contributes nothing. -/
theorem contributed_ofFolder_closed (c : Config) (input : String)
    (hq : t.item? q = some .closed) : contributed (ofFolder c t input q) = [] := by
  cases hnamed : leavesOut c t input with
  | true => exact contributed_ofFolder_leftOut q hnamed
  | false =>
    have hnone : t.itemsBelow q = [] := by
      refine List.eq_nil_iff_forall_not_mem.2 fun e he => ?_
      obtain ⟨-, hne, hfolders⟩ := FileTree.mem_itemsBelow.1 he
      have hfolder := hfolders 0 (List.length_pos_iff.2 hne)
      rw [List.take_zero, List.append_nil, FileTree.isFolder, hq] at hfolder
      cases hfolder
    rw [contributed_ofFolder q hnamed, hnone]
    rfl

end Selected

end Discovery
end CobolCalls
