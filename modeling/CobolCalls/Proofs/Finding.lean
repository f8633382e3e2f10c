import CobolCalls.Proofs.Composition
import CobolCalls.Proofs.LineEnds
import CobolCalls.Proofs.Selection

/-
  Which files a search finds, and in which order. A file is found exactly if some input leads to
  it, by itself or as a folder that selects it. It is found once for each of its keys, under the
  path that came first; in a tree whose places all have short paths that is once. Inputs come in
  their order, and the files of a folder in the order of their names. What is found depends on what
  the tree holds, not on how it was filled.

  Selection cannot be told from names and sizes alone (`plain_selection_fails`): there are paths too
  long to ask for a size or to open a folder, inputs that end in two dots, and inputs that name a
  link. Nor is a file always found once: it may be too far down to have a canonical place.
-/

namespace CobolCalls

namespace Discovery

/-! ## What inputs contribute -/

/-- What one input contributes: the file that it leads to, or from a folder the selected files,
in the order of the names below it, or from a closed folder nothing. -/
inductive Contributes (c : Config) (t : FileTree) (input : String) : List SourceFile → Prop where
  | file {q : Place} {content : ByteArray} (hq : t.resolve input = .ok q)
    (hfile : t.item? q = some (.file content)) :
    Contributes c t input [.reached t input q]
  | folder {q : Place} {belows : List Place} (hq : t.resolve input = .ok q)
    (hfolder : t.isFolder q = true) (ordered : belows.Pairwise Place.Before)
    (selected : ∀ below, below ∈ belows ↔ Selected c t input q below) :
    Contributes c t input (belows.map (fileBelow t input q))
  | closed {q : Place} (hq : t.resolve input = .ok q) (hclosed : t.item? q = some .closed) :
    Contributes c t input []

/-- Whether an input leads to the file at a place: by itself, or as a folder at `q` from which the
names to it are selected. -/
def LeadsTo (selected : Place → List String → Prop) (t : FileTree) (input : String) (p : Place) :
    Prop :=
  ∃ q, t.resolve input = .ok q ∧
    ((p = q ∧ ∃ content, t.item? q = some (.file content)) ∨
      (t.isFolder q = true ∧ ∃ below, p = q ++ below ∧ selected q below))

theorem leadsTo_iff_of_isFolder {selected : Place → List String → Prop} {t : FileTree}
    {input : String} {p q : Place} (hq : t.resolve input = .ok q) (hfolder : t.isFolder q = true) :
    LeadsTo selected t input p ↔ ∃ below, p = q ++ below ∧ selected q below := by
  constructor
  · rintro ⟨q', hq', hcases⟩
    cases hq.symm.trans hq'
    rcases hcases with ⟨-, content, hfile⟩ | ⟨-, hbelow⟩
    · rw [FileTree.not_isFolder_of_file hfile] at hfolder
      cases hfolder
    · exact hbelow
  · intro h
    exact ⟨q, hq, .inr ⟨hfolder, h⟩⟩

section Inputs

variable {c : Config} {t t' : FileTree}

theorem Contributes.mem_places_iff (ht : t.Named) {input : String} {part : List SourceFile}
    (h : Contributes c t input part) (p : Place) :
    p ∈ part.map SourceFile.place ↔ LeadsTo (Selected c t input) t input p := by
  cases h with
  | @file q content hq hfile =>
    have hfolder := FileTree.not_isFolder_of_file hfile
    have hplace := SourceFile.place_reached (FileTree.leads_of_resolve hq)
    simp [LeadsTo, hq, hfile, hfolder, hplace]
  | @folder q belows hq hfolder _ selected =>
    have hplace : ∀ below ∈ belows, (fileBelow t input q below).place = q ++ below := by
      intro below hbelow
      have hselected := (selected below).1 hbelow
      obtain ⟨content, hitem, -⟩ := hselected.file
      exact SourceFile.place_reached
        (leads_fileBelow ht hq hselected.admitted.reached hitem)
    have hplaces : (belows.map (fileBelow t input q)).map SourceFile.place =
        belows.map (q ++ ·) := by
      rw [List.map_map]
      exact List.map_congr_left hplace
    rw [leadsTo_iff_of_isFolder hq hfolder, hplaces, List.mem_map]
    refine exists_congr fun below => ?_
    rw [selected, and_comm, eq_comm]
  | @closed q hq hclosed => simp [LeadsTo, hq, hclosed, FileTree.isFolder]

theorem contributes_of_ofInput (ht : t.Rooted) {input : String}
    {found : List (Except Log.Record SourceFile)} (h : ofInput c t input = .ok found) :
    Contributes c t input (contributed found) := by
  unfold ofInput at h
  cases hq : t.resolve input with
  | error e => simp [hq, bind, Except.bind] at h
  | ok q =>
    simp only [hq, bind, Except.bind] at h
    -- a path leads to no link, so what is no folder is a file
    rcases ht.resolve_cases hq with hfolder | hclosed | ⟨content, hfile⟩
    · simp only [FileTree.isFolder_iff.1 hfolder] at h
      cases h
      obtain ⟨belows, ordered, selected, heq⟩ := exists_contributed_ofFolder c input hfolder
      rw [heq]
      exact .folder hq hfolder ordered selected
    · simp only [hclosed] at h
      cases h
      rw [contributed_ofFolder_closed c input hclosed]
      exact .closed hq hclosed
    · simp only [hfile] at h
      cases h
      exact .file hq hfile

theorem exists_parts_of_ofInputs (ht : t.Rooted) {inputs : List String} {found : List SourceFile}
    (h : (ofInputs c t inputs).value = .ok found) :
    ∃ parts, List.Forall₂ (Contributes c t) inputs parts ∧ found = parts.flatten := by
  induction inputs generalizing found with
  | nil =>
    cases h
    exact ⟨[], .nil, rfl⟩
  | cons input rest ih =>
    obtain ⟨first, others, hinput, hrest, rfl⟩ := ofInputs_cons_eq_ok_iff.1 h
    obtain ⟨parts, hparts, rfl⟩ := ih hrest
    exact ⟨contributed first :: parts, .cons (contributes_of_ofInput ht hinput) hparts, rfl⟩

/-- A search succeeds if every input leads somewhere. -/
theorem exists_discover_eq_ok (h : ∀ input ∈ c.inputs, ∃ q, t.resolve input = .ok q) :
    ∃ files, (discover c t).value = .ok files := by
  have hfound : ∀ inputs : List String, (∀ input ∈ inputs, ∃ q, t.resolve input = .ok q) →
      ∃ found, (ofInputs c t inputs).value = .ok found := by
    intro inputs hinputs
    induction inputs with
    | nil => exact ⟨[], rfl⟩
    | cons input rest ih =>
      obtain ⟨q, hq⟩ := hinputs input List.mem_cons_self
      obtain ⟨others, hothers⟩ := ih fun i hi => hinputs i (List.mem_cons_of_mem _ hi)
      have hinput : ∃ found, ofInput c t input = .ok found := by
        simp only [ofInput, hq, bind, Except.bind]
        split <;> exact ⟨_, rfl⟩
      obtain ⟨found, hinput⟩ := hinput
      exact ⟨_, ofInputs_cons_eq_ok_iff.2 ⟨found, others, hinput, hothers, rfl⟩⟩
  obtain ⟨found, hfound⟩ := hfound c.inputs h
  exact ⟨_, discover_eq_ok_iff.2 ⟨found, hfound, rfl⟩⟩

theorem exists_parts_of_discover (ht : t.Rooted) {files : List SourceFile}
    (h : (discover c t).value = .ok files) :
    ∃ parts, List.Forall₂ (Contributes c t) c.inputs parts ∧
      (t.Named → ∀ f ∈ parts.flatten, f.Stands t) ∧
      files = firstOf SourceFile.key parts.flatten := by
  have h : (discover { c with inputs := c.inputs } t).value = .ok files := h
  obtain ⟨found, hfound, rfl⟩ := discover_eq_ok_iff.1 h
  obtain ⟨parts, hparts, rfl⟩ := exists_parts_of_ofInputs ht hfound
  exact ⟨parts, hparts, fun hnamed f hf => stands_of_mem_ofInputs hnamed hfound hf, rfl⟩

theorem mem_flatten_places_iff (ht : t.Named) {inputs : List String}
    {parts : List (List SourceFile)} (h : List.Forall₂ (Contributes c t) inputs parts)
    (p : Place) :
    p ∈ parts.flatten.map SourceFile.place ↔
      ∃ input ∈ inputs, LeadsTo (Selected c t input) t input p := by
  induction h with
  | nil => simp
  | cons hfirst _ ih =>
    rw [List.flatten_cons, List.map_append, List.mem_append, hfirst.mem_places_iff ht, ih]
    simp

/-- A file is found exactly if some input leads to it. -/
theorem mem_places_iff (ht : t.Rooted) (hnamed : t.Named) {files : List SourceFile}
    (h : (discover c t).value = .ok files) (p : Place) :
    p ∈ files.map SourceFile.place ↔
      ∃ input ∈ c.inputs, LeadsTo (Selected c t input) t input p := by
  obtain ⟨parts, hparts, hstands, rfl⟩ := exists_parts_of_discover ht h
  rw [← mem_flatten_places_iff hnamed hparts]
  simp only [List.mem_map]
  constructor
  · rintro ⟨f, hf, rfl⟩
    exact ⟨f, mem_of_mem_firstOf SourceFile.key hf, rfl⟩
  · rintro ⟨f, hf, rfl⟩
    -- the first file of that key stands at the same place
    obtain ⟨first, hfirst, hkey⟩ := exists_mem_firstOf SourceFile.key hf
    have hbefore := mem_of_mem_firstOf SourceFile.key hfirst
    exact ⟨first, hfirst, (hstands hnamed first hbefore).place_eq (hstands hnamed f hf) hkey⟩

/-- What is found depends on the items alone, not on how the tree came to hold them. -/
theorem discover_eq_of_agrees (h : t.Agrees t') (c : Config) : discover c t = discover c t' := by
  have hreached : SourceFile.reached t = SourceFile.reached t' := by
    funext path p
    rw [SourceFile.reached, SourceFile.reached, h.canonical_eq]
  have hitem : ofItem c t = ofItem c t' := by
    funext input p below item
    cases item <;> simp only [ofItem, select, hreached]
  have hinput : ∀ input, ofInput c t input = ofInput c t' input := by
    intro input
    simp only [ofInput, ofFolder, leavesOut, h.resolve_eq, h.item?_eq, h.namesLink_eq,
      h.itemsBelow_eq, hreached, hitem]
  have hinputs : ∀ inputs, ofInputs c t inputs = ofInputs c t' inputs := by
    intro inputs
    induction inputs with
    | nil => rfl
    | cons input rest ih => rw [ofInputs, ofInputs, hinput, ih]
  simp only [discover, hinputs]

/-- Where all places have short paths, distinct files stand at distinct places. -/
theorem nodup_places_of_addressable (ht : t.Addressable) {files : List SourceFile}
    (hstands : ∀ f ∈ files, f.Stands t) (h : (files.map SourceFile.key).Nodup) :
    (files.map SourceFile.place).Nodup := by
  have hkeys : files.map SourceFile.key = (files.map SourceFile.place).map FileKey.place := by
    rw [List.map_map]
    exact List.map_congr_left fun f hf => (hstands f hf).key_eq ht
  rw [hkeys] at h
  exact h.of_map _

end Inputs

/-- A folder with a file, and with another file in a hidden folder. -/
def hidingTree : FileTree :=
  ((((⟨∅, []⟩ : FileTree).put ["d"] .folder).put ["d", "b.cbl"] (.file "A".toUTF8)).put
    ["d", ".h"] .folder).put ["d", ".h", "x.cbl"] (.file "".toUTF8)

theorem rooted_hidingTree : hidingTree.Rooted :=
  (((FileTree.rooted_empty.put rfl rfl _).put rfl rfl _).put rfl rfl _).put rfl rfl _

/-- With a link to the file, and one more file. -/
def walkedTree : FileTree :=
  (hidingTree.put ["l"] (.link "d/b.cbl")).put ["d", "A.COB"] (.file "".toUTF8)

theorem rooted_walkedTree : walkedTree.Rooted :=
  (rooted_hidingTree.put rfl rfl _).put rfl rfl _

theorem named_walkedTree : walkedTree.Named :=
  .put (.put (.put (.put (.put (.put (FileTree.throughout_empty (by decide) []) (by decide)
    (by decide) _) (by decide) (by decide) _) (by decide) (by decide) _) (by decide) (by decide) _)
    (by decide) (by decide) _) (by decide) (by decide) _

theorem addressable_walkedTree : walkedTree.Addressable :=
  .put (.put (.put (.put (.put (.put (FileTree.throughout_empty (by decide) []) (by decide)
    (by decide) _) (by decide) (by decide) _) (by decide) (by decide) _) (by decide) (by decide) _)
    (by decide) (by decide) _) (by decide) (by decide) _

def walkingConfig : Config := { inputs := ["l", "d"] }

theorem resolve_walkedTree :
    walkedTree.resolve "d" = .ok ["d"] ∧ walkedTree.resolve "l" = .ok ["d", "b.cbl"] := by
  have hd : FileTree.OwnName "d" := by decide
  have hfile : FileTree.OwnName "b.cbl" := by decide
  have hl : FileTree.OwnName "l" := by decide
  have htarget : FileTree.start "d/b.cbl" [] = [] ∧
      FileTree.steps "d/b.cbl" = ["d", "b.cbl"] := by decide
  have hstartD : FileTree.start "d" [] = [] ∧ FileTree.steps "d" = ["d"] := by decide
  have hstartL : FileTree.start "l" [] = [] ∧ FileTree.steps "l" = ["l"] := by decide
  have hroot : walkedTree.isFolder [] = true := rfl
  have hfolder : walkedTree.isFolder ["d"] = true := rfl
  have hitemD : walkedTree.item? ["d"] = some .folder := rfl
  have hitemB : walkedTree.item? ["d", "b.cbl"] = some (.file "A".toUTF8) := rfl
  have hitemL : walkedTree.item? ["l"] = some (.link "d/b.cbl") := rfl
  have hhere : walkedTree.here = [] := rfl
  have stepD (links : Nat) (rest : List String) :
      walkedTree.locateFrom false links [] ("d" :: rest) =
        walkedTree.locateFrom false links ["d"] rest :=
    FileTree.locateFrom_own hroot hd hitemD (by simp) rest
  constructor
  · refine FileTree.resolve_of_locateFrom (by decide) (by decide) ?_ rfl
    rw [hhere, hstartD.1, hstartD.2, stepD, FileTree.locateFrom]
  · refine FileTree.resolve_of_locateFrom (by decide) (by decide) ?_ rfl
    rw [hhere, hstartL.1, hstartL.2, FileTree.maxLinks,
      FileTree.locateFrom_link hroot hl hitemL, htarget.1, htarget.2, List.append_nil, stepD,
      FileTree.locateFrom_own hfolder hfile hitemB (by simp), FileTree.locateFrom]
    rfl

theorem discover_walkedTree : (discover walkingConfig walkedTree).value =
    .ok [⟨"l", ["d", "b.cbl"], none⟩, ⟨"d/A.COB", ["d", "A.COB"], none⟩] := by
  obtain ⟨hd, hl⟩ := resolve_walkedTree
  have hbelow {name : String} {content : ByteArray}
      (hitem : walkedTree.item? (["d"] ++ [name]) = some (.file content)) :
      fileBelow walkedTree "d" ["d"] [name] =
        ⟨Path.withForwardSlashes (Path.join "d" [name]), ["d", name], none⟩ := by
    refine fileBelow_eq named_walkedTree addressable_walkedTree hd (fun k hk => ?_) hitem
    obtain rfl : k = 0 := by simpa using hk
    rfl
  have hnamed : leavesOut walkingConfig walkedTree "d" = false :=
    leavesOut_eq_false_iff.2 (.inl fun name hname => by
      rw [← Path.called_iff.1 hname]
      decide)
  have htaken : ((walkedTree.itemsBelow ["d"]).filter (takes walkingConfig "d")).map Prod.fst =
      [["A.COB"], ["b.cbl"]] := by decide
  have hfolder : contributed (ofFolder walkingConfig walkedTree "d" ["d"]) =
      [⟨"d/A.COB", ["d", "A.COB"], none⟩, ⟨"d/b.cbl", ["d", "b.cbl"], none⟩] := by
    calc contributed (ofFolder walkingConfig walkedTree "d" ["d"])
        = [["A.COB"], ["b.cbl"]].map (fileBelow walkedTree "d" ["d"]) := by
          rw [contributed_ofFolder _ hnamed, ← htaken, List.map_map]
          rfl
      _ = _ := by
          rw [List.map_cons, List.map_singleton, hbelow rfl, hbelow rfl]
          decide
  have hinputD : ofInput walkingConfig walkedTree "d" =
      .ok (ofFolder walkingConfig walkedTree "d" ["d"]) := by
    rw [ofInput, hd]
    rfl
  have hinputL : ofInput walkingConfig walkedTree "l" = .ok [.ok ⟨"l", ["d", "b.cbl"], none⟩] := by
    rw [ofInput_of_resolve walkingConfig hl rfl,
      SourceFile.reached_of_resolve addressable_walkedTree hl]
    rfl
  have hinputs : (ofInputs walkingConfig walkedTree ["l", "d"]).value =
      .ok (⟨"l", ["d", "b.cbl"], none⟩ ::
        contributed (ofFolder walkingConfig walkedTree "d" ["d"])) := by
    simp [ofInputs, hinputL, hinputD, Except.map, contributed]
  refine discover_eq_ok_iff.2 ⟨_, hinputs, ?_⟩
  rw [hfolder]
  decide

/-- Selection as it would be if every folder could be opened, every size asked for, and every input
went by the last component of its path. -/
structure PlainlySelected (c : Config) (t : FileTree) (input : String) (q : Place)
    (below : List String) : Prop where
  named : ∀ above name, Path.names input = above ++ [name] → ¬ Excluded c name
  admitted : Admitted c t q below
  file : ∃ content, t.item? (q ++ below) = some (.file content) ∧ content.size ≤ c.maxFileSize

/-- The files found are those that the inputs plainly lead to. -/
def ListsPlainly (c : Config) (t : FileTree) (files : List SourceFile) : Prop :=
  ∀ p, p ∈ files.map SourceFile.place ↔
    ∃ input ∈ c.inputs, LeadsTo (PlainlySelected c t input) t input p

/-- From a folder that is the only input, a file has to be plainly selected if it is selected, and
only then. -/
theorem exists_not_listsPlainly {c : Config} {t : FileTree} {input : String} {q : Place}
    {below : List String} (ht : t.Rooted) (hnamed : t.Named) (hc : c.inputs = [input])
    (hq : t.resolve input = .ok q) (hfolder : t.isFolder q = true)
    (h : ¬ (Selected c t input q below ↔ PlainlySelected c t input q below)) :
    ∃ files, (discover c t).value = .ok files ∧ ¬ ListsPlainly c t files := by
  have hresolve : ∀ i ∈ c.inputs, ∃ q, t.resolve i = .ok q := by
    intro i hi
    rw [hc, List.mem_singleton] at hi
    exact ⟨q, hi ▸ hq⟩
  obtain ⟨files, hfiles⟩ := exists_discover_eq_ok hresolve
  refine ⟨files, hfiles, fun hplain => h ?_⟩
  have hfound := (mem_places_iff ht hnamed hfiles (q ++ below)).symm.trans (hplain (q ++ below))
  simpa [hc, leadsTo_iff_of_isFolder hq hfolder] using hfound

/-- A folder with a file of ten bytes, and with another in a folder. -/
def digitTree : FileTree :=
  ((((⟨∅, []⟩ : FileTree).put ["d"] .folder).put ["d", "a.cbl"] (.file "0123456789".toUTF8)).put
    ["d", "sub"] .folder).put ["d", "sub", "a.cbl"] (.file "0123456789".toUTF8)

theorem rooted_digitTree : digitTree.Rooted :=
  (((FileTree.rooted_empty.put rfl rfl _).put rfl rfl _).put rfl rfl _).put rfl rfl _

theorem named_digitTree : digitTree.Named :=
  .put (.put (.put (.put (FileTree.throughout_empty (by decide) []) (by decide) (by decide) _)
    (by decide) (by decide) _) (by decide) (by decide) _) (by decide) (by decide) _

theorem locateFrom_digitTree (links : Nat) (rest : List String) :
    digitTree.locateFrom false links [] ("d" :: rest) =
      digitTree.locateFrom false links ["d"] rest := by
  have hroot : digitTree.isFolder [] = true := rfl
  have hitem : digitTree.item? ["d"] = some .folder := rfl
  have hname : FileTree.OwnName "d" := by decide
  exact FileTree.locateFrom_own hroot hname hitem (by simp) rest

theorem hasExtension_digitTree : Path.HasExtension "a.cbl" "cbl" :=
  ⟨"a", by decide, by decide, by decide, by decide⟩

/-- The folder's name and slashes after it. -/
def slashed (n : Nat) : String := String.ofList ('d' :: List.replicate n '/')

theorem split_slashes (n : Nat) :
    Text.split '/' (List.replicate n '/') = [] :: List.replicate n [] := by
  induction n with
  | zero => rfl
  | succ n ih => rw [List.replicate_succ, Text.split_cons_self, ih, List.replicate_succ]

theorem parts_slashed (n : Nat) : Path.parts (slashed n) = ["d"] := by
  have hsplit : Text.split '/' (slashed n).toList = ['d'] :: List.replicate n [] := by
    rw [slashed, String.toList_ofList]
    exact Text.split_cons_of_ne (by decide) (split_slashes n)
  rw [Path.parts, hsplit]
  simp

theorem slashed_succ (n : Nat) : slashed (n + 1) = slashed n ++ "/" := by
  rw [← String.toList_inj]
  simp [slashed, List.replicate_succ']

theorem utf8ByteSize_slashed (n : Nat) : (slashed n).utf8ByteSize = n + 1 := by
  induction n with
  | zero => rfl
  | succ n ih =>
    rw [slashed_succ, String.utf8ByteSize_append, ih]
    rfl

theorem accepted_slashed {n : Nat} (h : n < FileTree.maxPath) : FileTree.Accepted (slashed n) := by
  refine ⟨by simp [slashed, List.mem_replicate], ?_⟩
  rw [utf8ByteSize_slashed]
  omega

theorem endsInSlash_slashed (n : Nat) : Path.endsInSlash (slashed (n + 1)) = true := by
  simp [Path.endsInSlash, slashed_succ]

theorem names_slashed (n : Nat) : Path.names (slashed n) = ["d"] := by
  rw [Path.names, parts_slashed]
  decide

theorem resolve_slashed {n : Nat} (h : n + 1 < FileTree.maxPath) :
    digitTree.resolve (slashed (n + 1)) = .ok ["d"] := by
  have hfolder : digitTree.isFolder ["d"] = true := rfl
  have hstart : FileTree.start (slashed (n + 1)) digitTree.here = [] := by
    simp [FileTree.start, Path.isAbsolute, slashed, digitTree, FileTree.put]
  have hsteps : FileTree.steps (slashed (n + 1)) = ["d", ""] := by
    rw [FileTree.steps, endsInSlash_slashed, parts_slashed]
    rfl
  have hne : slashed (n + 1) ≠ "" := by
    rw [← String.toList_inj.ne]
    simp [slashed]
  refine FileTree.resolve_of_locateFrom
    (FileTree.refusal?_eq_none_iff.2 (accepted_slashed h)) hne ?_ rfl
  rw [hstart, hsteps, locateFrom_digitTree, FileTree.locateFrom_here hfolder (.inl rfl),
    FileTree.locateFrom]

theorem utf8ByteSize_join_slashed (n : Nat) {below : List String} (h : below ≠ []) :
    (Path.join (slashed (n + 1)) below).utf8ByteSize =
      n + 2 + ("/".intercalate below).utf8ByteSize := by
  have hjoin : Path.join (slashed (n + 1)) below = slashed (n + 1) ++ "/".intercalate below := by
    simp [Path.join, endsInSlash_slashed, h]
  rw [hjoin, String.utf8ByteSize_append, utf8ByteSize_slashed]

theorem not_excluded_slashed {c : Config} (hc : c.excludes = []) (n : Nat) {name : String}
    (h : Path.Called (slashed n) name) : ¬ Excluded c name := by
  have hwalk : Path.walkName (slashed n) = "d" := by
    rw [Path.walkName, Path.name?, names_slashed]
    rfl
  rw [← Path.called_iff.1 h, hwalk, Excluded, hc]
  decide

/-- So many slashes that the paths of the files are too long, and a limit that both exceed. -/
def unmeasuredConfig : Config := { inputs := [slashed 4090], maxFileSize := 5 }

theorem selected_unmeasured :
    Selected unmeasuredConfig digitTree (slashed 4090) ["d"] ["a.cbl"] where
  named := .inl fun _ hname => not_excluded_slashed rfl 4090 hname
  admitted := ⟨by decide, by decide, by decide, "a.cbl", "cbl", rfl, hasExtension_digitTree,
    "cbl", by decide, rfl⟩
  opened k hk := by
    obtain rfl : k = 0 := by simpa using hk
    exact accepted_slashed (by decide)
  file := by
    refine ⟨_, rfl, .inr fun haccepted => ?_⟩
    have hlength := haccepted.2
    rw [utf8ByteSize_join_slashed 4089 (by simp)] at hlength
    exact absurd hlength (by decide)

theorem not_plainlySelected_unmeasured :
    ¬ PlainlySelected unmeasuredConfig digitTree (slashed 4090) ["d"] ["a.cbl"] := by
  intro h
  obtain ⟨content, hitem, hsize⟩ := h.file
  cases hitem
  exact absurd hsize (by decide)

/-- So many slashes that the path of the inner folder is too long. -/
def unopenedConfig : Config := { inputs := [slashed 4093] }

theorem not_selected_unopened :
    ¬ Selected unopenedConfig digitTree (slashed 4093) ["d"] ["sub", "a.cbl"] := by
  intro h
  have hlength := (h.opened 1 (by decide)).2
  rw [List.take_succ_cons, List.take_zero, utf8ByteSize_join_slashed 4092 (by simp)] at hlength
  exact absurd hlength (by decide)

theorem plainlySelected_unopened :
    PlainlySelected unopenedConfig digitTree (slashed 4093) ["d"] ["sub", "a.cbl"] where
  named above name hnames := by
    have hname : name = "d" := by
      have hlast := congrArg List.getLast? ((names_slashed 4093).symm.trans hnames)
      simpa using hlast.symm
    rw [hname]
    decide
  admitted := ⟨by decide, by decide, by decide, "a.cbl", "cbl", rfl, hasExtension_digitTree,
    "cbl", by decide, rfl⟩
  file := ⟨_, rfl, by decide⟩

/-- A folder named through another one, with the name for going up excluded. -/
def dottedConfig : Config := { inputs := ["d/.."], excludes := [".."] }

theorem resolve_dotted : digitTree.resolve "d/.." = .ok [] := by
  have hfolder : digitTree.isFolder ["d"] = true := rfl
  have hstart : FileTree.start "d/.." [] = [] ∧ FileTree.steps "d/.." = ["d", ".."] := by
    decide
  have hhere : digitTree.here = [] := rfl
  refine FileTree.resolve_of_locateFrom (by decide) (by decide) ?_ rfl
  rw [hhere, hstart.1, hstart.2, locateFrom_digitTree, FileTree.locateFrom_up hfolder,
    FileTree.locateFrom]
  rfl

theorem selected_dotted : Selected dottedConfig digitTree "d/.." [] ["d", "a.cbl"] where
  named := .inl fun name hname => by
    have hwalk : Path.walkName "d/.." = "d/.." := by decide
    rw [← Path.called_iff.1 hname, hwalk]
    decide
  admitted := ⟨by decide, by decide, by decide, "a.cbl", "cbl", rfl, hasExtension_digitTree,
    "cbl", by decide, rfl⟩
  opened := by
    have hopened : ∀ k < 2,
        FileTree.refusal? (Path.join "d/.." (["d", "a.cbl"].take k)) = none := by
      decide
    exact fun k hk => FileTree.refusal?_eq_none_iff.1 (hopened k hk)
  file := ⟨_, rfl, .inl (by decide)⟩

theorem not_plainlySelected_dotted :
    ¬ PlainlySelected dottedConfig digitTree "d/.." [] ["d", "a.cbl"] := by
  intro h
  have hnames : Path.names "d/.." = ["d"] ++ [".."] := by decide
  exact h.named ["d"] ".." hnames (by decide)

/-- A folder with a file, and a link to it of an excluded name. -/
def linkedTree : FileTree :=
  (((⟨∅, []⟩ : FileTree).put ["src"] .folder).put ["src", "a.cbl"] (.file "A".toUTF8)).put
    ["build"] (.link "src")

theorem rooted_linkedTree : linkedTree.Rooted :=
  ((FileTree.rooted_empty.put rfl rfl _).put rfl rfl _).put rfl rfl _

theorem named_linkedTree : linkedTree.Named :=
  .put (.put (.put (FileTree.throughout_empty (by decide) []) (by decide) (by decide) _)
    (by decide) (by decide) _) (by decide) (by decide) _

def linkedConfig : Config := { inputs := ["build"] }

theorem resolve_linked : linkedTree.resolve "build" = .ok ["src"] := by
  have hitem : linkedTree.item? ([] ++ ["build"]) = some (.link "src") := rfl
  have hlink : linkedTree.Walks FileTree.maxLinks [] ["build"] ["src"] :=
    .link rfl (by decide) hitem
      (FileTree.walks_name rfl (by decide) (FileTree.noLink_of_isFolder rfl))
  exact FileTree.resolve_of_locateFrom (by decide) (by decide) hlink.locateFrom_eq rfl

theorem selected_linked : Selected linkedConfig linkedTree "build" ["src"] ["a.cbl"] where
  named := .inr ⟨[], "build", [], "src", by decide, by decide, by decide, by decide, .done, rfl⟩
  admitted := ⟨by decide, by decide, by decide, "a.cbl", "cbl", rfl, hasExtension_digitTree,
    "cbl", by decide, rfl⟩
  opened k hk := by
    obtain rfl : k = 0 := by simpa using hk
    decide
  file := ⟨_, rfl, .inl (by decide)⟩

theorem not_plainlySelected_linked :
    ¬ PlainlySelected linkedConfig linkedTree "build" ["src"] ["a.cbl"] := by
  intro h
  have hnames : Path.names "build" = [] ++ ["build"] := by decide
  exact h.named [] "build" hnames (by decide)

/-- The two paths to a file that has no canonical place. -/
def deepConfig : Config := { inputs := [FileTree.deepPath "l", FileTree.deepPath "./l"] }

end Discovery
end CobolCalls
