import CobolCalls.FileTree.Write
import CobolCalls.Proofs.TreeOrder

/-
  What writing a file does to a tree. Folders are made where nothing stood, each of them on the
  way that the path takes, and one place gets the content. All else stays as it was, and the path
  leads to the content afterwards.

  A walk along a path looks at folders and links and stops at the first thing that is neither
  (`Walks`). So it goes the same way in every tree that keeps the folders and the links (`Keeps`),
  and what is known of one step of an operation holds of the tree after all its steps.
-/

namespace CobolCalls.FileTree

variable {t t' t'' : FileTree}

/-! ## Walks -/

/-- The walk along names from a place to another, with so many links to follow at most. -/
inductive Walks (t : FileTree) : Nat → Place → List String → Place → Prop where
  | done {links : Nat} {p : Place} : Walks t links p [] p
  | shut {links : Nat} {p q : Place} {rest : List String} (closed : t.isClosed p = true)
    (onward : Walks t links p rest q) : Walks t links p ("" :: rest) q
  | here {links : Nat} {p q : Place} {name : String} {rest : List String}
    (folder : t.isFolder p = true) (hname : name = "" ∨ name = ".")
    (onward : Walks t links p rest q) : Walks t links p (name :: rest) q
  | up {links : Nat} {p q : Place} {rest : List String} (folder : t.isFolder p = true)
    (onward : Walks t links p.dropLast rest q) : Walks t links p (".." :: rest) q
  | link {links : Nat} {p q : Place} {name target : String} {rest : List String}
    (folder : t.isFolder p = true) (hname : OwnName name)
    (hitem : t.item? (p ++ [name]) = some (.link target))
    (onward : Walks t links (start target p) (steps target ++ rest) q) :
    Walks t (links + 1) p (name :: rest) q
  | enter {links : Nat} {p q : Place} {name : String} {rest : List String}
    (folder : t.isFolder p = true) (hname : OwnName name)
    (hitem : (t.item? (p ++ [name])).isSome = true) (hlink : t.NoLink (p ++ [name]))
    (onward : Walks t links (p ++ [name]) rest q) : Walks t links p (name :: rest) q
  | new {links : Nat} {p : Place} {name : String} (folder : t.isFolder p = true)
    (hname : OwnName name) (hitem : t.item? (p ++ [name]) = none) :
    Walks t links p [name] (p ++ [name])

/-- What is left of the names when those that lead elsewhere or are too long are sorted out. -/
theorem ownName_of_not {name : String} (hhere : ¬(name == "" || name == ".") = true)
    (hdots : ¬(name == "..") = true) (hlength : ¬name.utf8ByteSize > maxName) : OwnName name := by
  simp only [Bool.or_eq_true, beq_iff_eq, not_or] at hhere hdots
  exact ⟨hhere.1, hhere.2, hdots, Nat.not_lt.1 hlength⟩

/-- Whether or not a file is to be created, a path that leads somewhere leads there by a walk. -/
theorem walks_of_locateFrom {creating : Bool} {links : Nat} {p q : Place} {names : List String}
    (h : t.locateFrom creating links p names = .ok q) : t.Walks links p names q := by
  fun_induction locateFrom t creating links p names with
  | case1 links p =>
    cases h
    exact .done
  | case2 links p name rest hclosed ih =>
    rw [Bool.and_eq_true, beq_iff_eq] at hclosed
    rw [hclosed.1]
    exact .shut hclosed.2 (ih h)
  | case4 links p name rest hclosed hfolder hname ih =>
    exact .here (by simpa using hfolder) (by simpa using hname) (ih h)
  | case5 links p name rest hclosed hfolder hname hdots ih =>
    rw [eq_of_beq hdots]
    exact .up (by simpa using hfolder) (ih h)
  | case9 p name rest hclosed hfolder hname hdots hcreate hlength target hitem links ih =>
    exact .link (by simpa using hfolder) (ownName_of_not hname hdots hlength) hitem (ih h)
  | case10 links p name rest hclosed hfolder hname hdots hcreate hlength item hlink hitem ih =>
    refine .enter (by simpa using hfolder) (ownName_of_not hname hdots hlength) (by rw [hitem]; rfl)
      (fun target htarget => ?_) (ih h)
    rw [hitem] at htarget
    exact hlink target (Option.some.inj htarget)
  | case11 links p name rest hclosed hfolder hname hdots hcreate hlength hitem hrest =>
    cases h
    rw [List.isEmpty_iff.1 hrest]
    exact .new (by simpa using hfolder) (ownName_of_not hname hdots hlength) hitem
  | case3 | case6 | case7 | case8 | case12 => cases h

theorem Walks.locateFrom_eq {links : Nat} {p q : Place} {names : List String}
    (h : t.Walks links p names q) : t.locateFrom false links p names = .ok q := by
  induction h with
  | done => rw [locateFrom]
  | shut closed _ ih =>
    rw [locateFrom, closed]
    exact ih
  | here folder hname _ ih => rw [locateFrom_here folder hname, ih]
  | up folder _ ih => rw [locateFrom_up folder, ih]
  | link folder hname hitem _ ih => rw [locateFrom_link folder hname hitem, ih]
  | enter folder hname hitem hlink _ ih =>
    obtain ⟨item, hitem⟩ := Option.isSome_iff_exists.1 hitem
    rw [locateFrom_own folder hname hitem fun target he => hlink target (he ▸ hitem), ih]
  | new folder hname hitem =>
    obtain ⟨hempty, hdot, hdots, hshort⟩ := hname
    rw [locateFrom, folder, hitem]
    simp [hempty, hdot, hdots, Nat.not_lt.2 hshort]

/-- One more name, of something that is no link or of nothing. -/
theorem walks_name {links : Nat} {p : Place} {name : String} (hp : t.isFolder p = true)
    (hname : OwnName name) (hlink : t.NoLink (p ++ [name])) :
    t.Walks links p [name] (p ++ [name]) := by
  cases hitem : t.item? (p ++ [name]) with
  | none => exact .new hp hname hitem
  | some item => exact .enter hp hname (by rw [hitem]; rfl) hlink .done

theorem Walks.concat {links : Nat} {p q : Place} {names : List String} {name : String}
    (h : t.Walks links p names q) (hq : t.isFolder q = true) (hname : OwnName name)
    (hlink : t.NoLink (q ++ [name])) : t.Walks links p (names ++ [name]) (q ++ [name]) := by
  induction h with
  | done => exact walks_name hq hname hlink
  | shut closed _ ih => exact .shut closed (ih hq hlink)
  | here folder hhere _ ih => exact .here folder hhere (ih hq hlink)
  | up folder _ ih => exact .up folder (ih hq hlink)
  | link folder hown hitem _ ih =>
    have onward := ih hq hlink
    rw [List.append_assoc] at onward
    exact .link folder hown hitem onward
  | enter folder hown hitem hno _ ih => exact .enter folder hown hitem hno (ih hq hlink)
  | new folder hown hitem =>
    -- where nothing stands no walk goes on
    rw [isFolder, hitem] at hq
    cases hq

/-! ## Trees that grow -/

/-- Folders and links are as before, and a file is still a file. -/
structure Keeps (t t' : FileTree) : Prop where
  folder : ∀ p, t.isFolder p = true → t'.isFolder p = true
  closed : ∀ p, t.item? p = some .closed → t'.item? p = some .closed
  link : ∀ p target, t.item? p = some (.link target) → t'.item? p = some (.link target)
  file : ∀ p content, t.item? p = some (.file content) →
    ∃ content', t'.item? p = some (.file content')

theorem isFolder_iff {p : Place} : t.isFolder p = true ↔ t.item? p = some .folder := by
  unfold isFolder
  split
  next h => simp [h]
  next h => simpa using h

theorem isClosed_iff {p : Place} : t.isClosed p = true ↔ t.item? p = some .closed := by
  unfold isClosed
  split
  next h => simp [h]
  next h => simpa using h

theorem Keeps.noLink (h : t.Keeps t') {p : Place} (hsome : (t.item? p).isSome = true)
    (hp : t.NoLink p) : (t'.item? p).isSome = true ∧ t'.NoLink p := by
  cases hitem : t.item? p with
  | none => simp [hitem] at hsome
  | some item =>
    cases item with
    | folder =>
      have hfolder := h.folder p (isFolder_iff.2 hitem)
      exact ⟨by rw [isFolder_iff.1 hfolder]; rfl, noLink_of_isFolder hfolder⟩
    | file content =>
      obtain ⟨content', hfile⟩ := h.file p content hitem
      exact ⟨by rw [hfile]; rfl, fun target htarget => by simp [hfile] at htarget⟩
    | link target => exact absurd hitem (hp target)
    | closed =>
      have hclosed := h.closed p hitem
      exact ⟨by rw [hclosed]; rfl, fun target htarget => by simp [hclosed] at htarget⟩

/-- A walk leads to the same place in a tree that has grown. Where it led to nothing, there may
be something now, but no link. -/
theorem Keeps.walks (h : t.Keeps t') {links : Nat} {p q : Place} {names : List String}
    (hq : t'.NoLink q) (hwalk : t.Walks links p names q) : t'.Walks links p names q := by
  induction hwalk with
  | done => exact .done
  | shut closed _ ih => exact .shut (isClosed_iff.2 (h.closed _ (isClosed_iff.1 closed))) (ih hq)
  | here folder hname _ ih => exact .here (h.folder _ folder) hname (ih hq)
  | up folder _ ih => exact .up (h.folder _ folder) (ih hq)
  | link folder hname hitem _ ih =>
    exact .link (h.folder _ folder) hname (h.link _ _ hitem) (ih hq)
  | enter folder hname hitem hlink _ ih =>
    obtain ⟨hitem, hlink⟩ := h.noLink hitem hlink
    exact .enter (h.folder _ folder) hname hitem hlink (ih hq)
  | new folder hname _ => exact walks_name (h.folder _ folder) hname hq

/-- Something is put where nothing stood, or a file in the stead of a file. -/
theorem keeps_put {p : Place} {i : Item}
    (h : ∀ item, t.item? p = some item → ∃ old content, item = .file old ∧ i = .file content) :
    t.Keeps (t.put p i) := by
  have hne : p ≠ [] := by
    rintro rfl
    obtain ⟨old, -, he, -⟩ := h .folder rfl
    cases he
  have other {q : Place} {item : Item} (hitem : t.item? q = some item)
      (hfile : ∀ old, item ≠ .file old) : (t.put p i).item? q = some item := by
    rw [item?_put hne, if_neg, hitem]
    rintro rfl
    obtain ⟨old, -, he, -⟩ := h item hitem
    exact hfile old he
  refine ⟨fun q hq => isFolder_iff.2 (other (isFolder_iff.1 hq) (by simp)),
    fun q hq => other hq (by simp), fun q target hq => other hq (by simp), fun q old hq => ?_⟩
  rw [item?_put hne]
  split
  next he =>
    subst he
    obtain ⟨-, content, -, rfl⟩ := h _ hq
    exact ⟨content, rfl⟩
  next => exact ⟨old, hq⟩

theorem folderAt_eq_ok_iff {base p : Place} {names : List String} :
    t.folderAt base names = .ok p ↔
      t.Walks maxLinks base names p ∧ t.isFolder p = true := by
  unfold folderAt
  constructor
  · intro h
    cases hlocate : t.locateFrom false maxLinks base names with
    | error e => simp [hlocate, bind, Except.bind] at h
    | ok q =>
      simp only [hlocate, bind, Except.bind] at h
      split at h
      next hitem =>
        cases h
        exact ⟨walks_of_locateFrom hlocate, isFolder_iff.2 hitem⟩
      next => cases h
      next => cases h
  · rintro ⟨hwalk, hfolder⟩
    simp only [hwalk.locateFrom_eq, bind, Except.bind, isFolder_iff.1 hfolder]
    rfl

theorem Keeps.folderAt_eq (h : t.Keeps t') {base p : Place} {names : List String}
    (hp : t.folderAt base names = .ok p) : t'.folderAt base names = .ok p := by
  obtain ⟨hwalk, hfolder⟩ := folderAt_eq_ok_iff.1 hp
  have hfolder' := h.folder p hfolder
  exact folderAt_eq_ok_iff.2 ⟨h.walks (noLink_of_isFolder hfolder') hwalk, hfolder'⟩

/-! ## Making folders -/

/-- Folders are new where nothing stood, each of them where a part of the names leads from the
base; all else is as before. -/
structure AddsFolders (base : Place) (names : List String) (t t' : FileTree) : Prop where
  here : t'.here = t.here
  rooted : t.Rooted → t'.Rooted
  items : ∀ q, t'.item? q = t.item? q ∨ (t.item? q = none ∧ t'.item? q = some .folder ∧
    ∃ walked, walked <+: names ∧ t'.folderAt base walked = .ok q)

variable {base : Place} {names : List String}

theorem addsFolders_refl (base : Place) (names : List String) (t : FileTree) :
    AddsFolders base names t t :=
  ⟨rfl, id, fun _ => .inl rfl⟩

theorem AddsFolders.keeps (h : AddsFolders base names t t') : t.Keeps t' := by
  have same {q : Place} {item : Item} (hitem : t.item? q = some item) :
      t'.item? q = some item := by
    rcases h.items q with hq | ⟨hq, -⟩
    · rw [hq, hitem]
    · rw [hq] at hitem
      cases hitem
  exact ⟨fun p hp => isFolder_iff.2 (same (isFolder_iff.1 hp)), fun p hp => same hp,
    fun p target hp => same hp, fun p content hp => ⟨content, same hp⟩⟩

theorem AddsFolders.trans (h : AddsFolders base names t t') (h' : AddsFolders base names t' t'') :
    AddsFolders base names t t'' where
  here := h'.here.trans h.here
  rooted ht := h'.rooted (h.rooted ht)
  items q := by
    rcases h.items q with hq | ⟨hnone, hfolder, walked, hwalked, hq⟩
    · rw [← hq]
      exact h'.items q
    · have hq' := h'.keeps.folderAt_eq hq
      have hfolder' := isFolder_iff.1 (folderAt_eq_ok_iff.1 hq').2
      exact .inr ⟨hnone, hfolder', walked, hwalked, hq'⟩

theorem AddsFolders.mono (h : AddsFolders base names t t') {more : List String}
    (hmore : names <+: more) : AddsFolders base more t t' where
  here := h.here
  rooted := h.rooted
  items q := by
    refine (h.items q).imp_right ?_
    rintro ⟨hnone, hfolder, walked, hwalked, hq⟩
    exact ⟨hnone, hfolder, walked, hwalked.trans hmore, hq⟩

theorem makeFolder_eq_ok {above : List String} {name : String}
    (h : t.makeFolder base above name = .ok t') :
    ∃ p, t.folderAt base above = .ok p ∧ t.item? (p ++ [name]) = none ∧ name ≠ ".." ∧
      name.utf8ByteSize ≤ maxName ∧ t' = t.put (p ++ [name]) .folder := by
  unfold makeFolder at h
  cases hfolderAt : t.folderAt base above with
  | error e => simp [hfolderAt, bind, Except.bind] at h
  | ok p =>
    simp only [hfolderAt, bind, Except.bind] at h
    split at h
    next => cases h
    next hfree =>
      split at h
      next => cases h
      next hshort =>
        cases h
        simp only [Bool.or_eq_true, beq_iff_eq, not_or, Bool.not_eq_true,
          Option.isSome_eq_false_iff, Option.isNone_iff_eq_none] at hfree
        exact ⟨p, rfl, hfree.2, hfree.1, Nat.not_lt.1 hshort, rfl⟩

theorem addsFolders_makeFolder {above : List String} {name : String}
    (hname : name ≠ "" ∧ name ≠ ".") (h : t.makeFolder base above name = .ok t') :
    AddsFolders base (above ++ [name]) t t' := by
  obtain ⟨p, hp, hnone, hdots, hshort, rfl⟩ := makeFolder_eq_ok h
  obtain ⟨hwalk, hfolder⟩ := folderAt_eq_ok_iff.1 hp
  have hkeeps : t.Keeps (t.put (p ++ [name]) .folder) :=
    keeps_put fun item hitem => by simp [hnone] at hitem
  have hne : p ++ [name] ≠ [] := by simp
  have hnew : (t.put (p ++ [name]) .folder).item? (p ++ [name]) = some .folder := by
    rw [item?_put hne, if_pos rfl]
  have hled : (t.put (p ++ [name]) .folder).folderAt base (above ++ [name]) =
      .ok (p ++ [name]) := by
    have hfolder' := hkeeps.folder p hfolder
    have hnewFolder := isFolder_iff.2 hnew
    exact folderAt_eq_ok_iff.2 ⟨(hkeeps.walks (noLink_of_isFolder hfolder') hwalk).concat hfolder'
      ⟨hname.1, hname.2, hdots, hshort⟩ (noLink_of_isFolder hnewFolder), hnewFolder⟩
  refine ⟨rfl, fun ht => ?_, fun q => ?_⟩
  · refine ht.put ?_ ?_ .folder
    · rwa [List.dropLast_concat]
    · rw [isFolder, hnone]
  · by_cases hq : q = p ++ [name]
    · subst hq
      exact .inr ⟨hnone, hnew, _, List.prefix_refl _, hled⟩
    · rw [item?_put hne, if_neg hq]
      exact .inl rfl

/-- One step: a folder is made unless there is one. -/
theorem addsFolders_ensureFolder (t : FileTree) (base : Place) (above : List String)
    {name : String} (hname : name ≠ "" ∧ name ≠ ".") :
    AddsFolders base (above ++ [name]) t (t.ensureFolder base above name).1 := by
  unfold ensureFolder
  split
  next t' hmake => exact addsFolders_makeFolder hname hmake
  next =>
    split
    · exact addsFolders_refl ..
    · exact addsFolders_refl ..
  next => exact addsFolders_refl ..

/-- All steps: a folder is made and those above it. -/
theorem addsFolders_makeFolders (t : FileTree) (base : Place) {names : List String}
    (hnames : ∀ name ∈ names, name ≠ "" ∧ name ≠ ".") :
    AddsFolders base names.reverse t (t.makeFolders base names).1 := by
  induction names generalizing t with
  | nil => exact addsFolders_refl ..
  | cons name above ih =>
    have step (t : FileTree) : AddsFolders base (name :: above).reverse t
        (t.ensureFolder base above.reverse name).1 := by
      rw [List.reverse_cons]
      exact addsFolders_ensureFolder t base above.reverse (hnames name List.mem_cons_self)
    have upper (t : FileTree) : AddsFolders base (name :: above).reverse t
        (t.makeFolders base above).1 := by
      refine (ih t fun name hname => hnames name (List.mem_cons_of_mem _ hname)).mono ?_
      rw [List.reverse_cons]
      exact List.prefix_append ..
    -- the folders above are made only if the first attempt misses them, and then it is repeated
    have first := step t
    rw [makeFolders]
    split
    next t₁ hfirst =>
      rw [hfirst] at first
      have made := upper t₁
      split
      next t₂ hmade =>
        rw [hmade] at made
        exact (first.trans made).trans (step t₂)
      next => exact first.trans made
    next => exact first

/-! ## Writing a file -/

theorem ne_of_mem_parts {path name : String} (h : name ∈ Path.parts path) : name ≠ "" := by
  obtain ⟨chars, hchars, rfl⟩ := List.mem_map.1 h
  have hfilled := (List.mem_filter.1 hchars).2
  intro hempty
  have hnil : chars = [] := by simpa using congrArg String.toList hempty
  rw [hnil] at hfilled
  cases hfilled

theorem ne_of_mem_names {path name : String} (h : name ∈ Path.names path) :
    name ≠ "" ∧ name ≠ "." := by
  obtain ⟨hpart, hdot⟩ := List.mem_filter.1 h
  exact ⟨ne_of_mem_parts hpart, by simpa using hdot⟩

/-- The folders that the names of a path lead to, up to its last name. -/
def OnTheWay (t : FileTree) (path : String) (q : Place) : Prop :=
  ∃ walked, walked <+: (Path.names path).dropLast ∧
    t.folderAt (start path t.here) walked = .ok q

/-- What a tree is after a file was written: the path leads to the content, where nothing or a
file stood before. Nothing else differs but folders where nothing stood, on the way of the
path. -/
structure Written (t t' : FileTree) (path : String) (p : Place) (content : ByteArray) : Prop where
  here : t'.here = t.here
  resolve : t'.resolve path = .ok p
  item : t'.item? p = some (.file content)
  before : t.item? p = none ∨ ∃ old, t.item? p = some (.file old)
  others : ∀ q, q ≠ p → t'.item? q = t.item? q ∨
    (t.item? q = none ∧ t'.item? q = some .folder ∧ t'.OnTheWay path q)

variable {path : String} {content : ByteArray}

theorem write_eq_ok (h : t.write path content = (t', none)) :
    ∃ p, refusal? path = none ∧ path ≠ "" ∧
      t.Walks maxLinks (start path t.here) (steps path) p ∧
      (t.isFolder p = false ∧ t.isClosed p = false) ∧ t' = t.put p (.file content) := by
  unfold write at h
  cases hplace : t.writePlace path with
  | error e => simp [hplace] at h
  | ok p =>
    simp only [hplace, Prod.mk.injEq, and_true] at h
    unfold writePlace at hplace
    cases hlocate : t.locate true path with
    | error e => simp [hlocate, bind, Except.bind] at hplace
    | ok q =>
      simp only [hlocate, bind, Except.bind] at hplace
      split at hplace
      next => cases hplace
      next hfolder =>
        cases hplace
        unfold locate at hlocate
        split at hlocate
        next => cases hlocate
        next hrefusal =>
          split at hlocate
          next => cases hlocate
          next hne =>
            exact ⟨p, hrefusal, by simpa using hne, walks_of_locateFrom hlocate,
              by simpa using hfolder, h.symm⟩

theorem Rooted.noLink_walks (ht : t.Rooted) {links : Nat} {p q : Place} {names : List String}
    (hp : t.NoLink p) (h : t.Walks links p names q) : t.NoLink q :=
  ht.noLink_locateFrom hp h.locateFrom_eq

/-- What is written into an existing folder. -/
theorem Rooted.written_write (ht : t.Rooted) (h : t.write path content = (t', none)) :
    ∃ p, Written t t' path p content ∧ t.Keeps t' ∧ ∀ q, q ≠ p → t'.item? q = t.item? q := by
  obtain ⟨p, hrefusal, hne, hwalk, ⟨hfolder, hclosed⟩, rfl⟩ := write_eq_ok h
  have hlink : t.NoLink p :=
    ht.noLink_walks (noLink_of_isFolder (isFolder_start path ht.here)) hwalk
  have hroot : p ≠ [] := by
    rintro rfl
    cases hfolder
  have hbefore : t.item? p = none ∨ ∃ old, t.item? p = some (.file old) := by
    cases hitem : t.item? p with
    | none => exact .inl rfl
    | some item =>
      cases item with
      | file old => exact .inr ⟨old, rfl⟩
      | folder => rw [isFolder_iff.2 hitem] at hfolder; cases hfolder
      | closed => rw [isClosed_iff.2 hitem] at hclosed; cases hclosed
      | link target => exact absurd hitem (hlink target)
  have hnew : (t.put p (.file content)).item? p = some (.file content) := by
    rw [item?_put hroot, if_pos rfl]
  have hothers (q : Place) (hq : q ≠ p) : (t.put p (.file content)).item? q = t.item? q := by
    rw [item?_put hroot, if_neg hq]
  have hkeeps : t.Keeps (t.put p (.file content)) := by
    refine keeps_put fun item hitem => ?_
    rcases hbefore with hnone | ⟨old, hold⟩
    · rw [hnone] at hitem
      cases hitem
    · rw [hold] at hitem
      exact ⟨old, content, (Option.some.inj hitem).symm, rfl⟩
  have hlink' : (t.put p (.file content)).NoLink p := by
    intro target htarget
    rw [hnew] at htarget
    cases htarget
  refine ⟨p, ⟨rfl, ?_, hnew, hbefore, fun q hq => .inl (hothers q hq)⟩, hkeeps, hothers⟩
  exact resolve_of_locateFrom hrefusal hne (hkeeps.walks hlink' hwalk).locateFrom_eq
    (by rw [hnew]; rfl)

theorem addsFolders_makeFoldersFor (t : FileTree) (path : String) :
    AddsFolders (start path t.here) (Path.names path).dropLast t (t.makeFoldersFor path).1 := by
  unfold makeFoldersFor
  split
  next => exact addsFolders_refl ..
  next =>
    have hnames : ∀ name ∈ (Path.names path).dropLast.reverse, name ≠ "" ∧ name ≠ "." :=
      fun name hname => ne_of_mem_names (List.dropLast_subset _ (List.mem_reverse.1 hname))
    have made := addsFolders_makeFolders t (start path t.here) hnames
    rw [List.reverse_reverse] at made
    rwa [List.tail_reverse]

/-- What is written after its folders were made. -/
theorem Rooted.written_writeWithFolders (ht : t.Rooted)
    (h : t.writeWithFolders path content = (t', none)) : ∃ p, Written t t' path p content := by
  have made := addsFolders_makeFoldersFor t path
  unfold writeWithFolders at h
  split at h
  next t₁ hmake =>
    rw [hmake] at made
    obtain ⟨p, written, hkeeps, hothers⟩ := (made.rooted ht).written_write h
    refine ⟨p, written.here.trans made.here, written.resolve, written.item, ?_, fun q hq => ?_⟩
    · rcases made.items p with hp | ⟨hnone, -⟩
      · rw [← hp]
        exact written.before
      · exact .inl hnone
    · -- the folders were made before the write, which keeps the ways to them
      rw [hothers q hq]
      refine (made.items q).imp_right ?_
      rintro ⟨hnone, hfolder, walked, hwalked, hled⟩
      refine ⟨hnone, hfolder, walked, hwalked, ?_⟩
      rw [written.here, made.here]
      exact hkeeps.folderAt_eq hled
  next hfailed => exact absurd h (hfailed t')

end CobolCalls.FileTree
