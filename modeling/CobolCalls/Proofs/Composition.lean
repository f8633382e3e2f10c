import CobolCalls.Proofs.Closure
import CobolCalls.Proofs.Merging
import CobolCalls.Proofs.Selection

/-
  Analyses compose over their inputs. If the inputs of one analysis and those of another are given
  to a third, one list after the other, then it finds the files of the first and, of the second,
  those of other keys; it succeeds if both do; and its graph has the nodes of their graphs merged,
  and their edges unless a file that both found has its repeats kept.

  The key of a file is its place, whichever path leads there, or the path itself if the place is too
  far down to be canonical. Its graph depends on the key alone, so a file found again brings nothing
  that was not inserted before: no new node, and no new edge where repeats are dropped. A file too
  far down has as many keys as there are paths to it, and is listed for each.
-/

namespace CobolCalls

/-! ## Files found -/

namespace Discovery

/-- Of the files of one key the first is listed, in order. -/
theorem distinct_eq_firstOf (seen : List FileKey) (files : List SourceFile) :
    distinct seen files = (firstOf SourceFile.key files).filter fun f => f.key ∉ seen := by
  induction files generalizing seen with
  | nil => rfl
  | cons f rest ih =>
    rw [distinct, firstOf, List.filter_cons, List.filter_filter, ih, ih]
    by_cases hseen : f.key ∈ seen
    · rw [if_pos (List.contains_iff_mem.2 hseen), if_neg (by simpa using hseen)]
      refine List.filter_congr fun g _ => ?_
      by_cases hg : g.key = f.key <;> simp [hg, hseen]
    · rw [if_neg fun hcontains => hseen (List.contains_iff_mem.1 hcontains),
        if_pos (by simpa using hseen)]
      refine congrArg (f :: ·) (List.filter_congr fun g _ => ?_)
      simp [Bool.and_comm]

/-- What an input contributes does not depend on the other inputs. -/
theorem ofInputs_with_inputs (c : Config) (t : FileTree) (others inputs : List String) :
    ofInputs { c with inputs := others } t inputs = ofInputs c t inputs := by
  induction inputs with
  | nil => rfl
  | cons input rest ih =>
    have hinput : ofInput { c with inputs := others } t input = ofInput c t input := rfl
    rw [ofInputs, ofInputs, hinput, ih]

theorem ofInputs_cons_eq_ok_iff {c : Config} {t : FileTree} {input : String}
    {rest : List String} {files : List SourceFile} :
    (ofInputs c t (input :: rest)).value = .ok files ↔
      ∃ found others, ofInput c t input = .ok found ∧ (ofInputs c t rest).value = .ok others ∧
        contributed found ++ others = files := by
  rw [ofInputs]
  cases ofInput c t input with
  | error e => simp
  | ok found =>
    dsimp only
    cases (ofInputs c t rest).value <;> simp [Except.map]

theorem ofInputs_append {c : Config} {t : FileTree} {xs ys : List String}
    {found others : List SourceFile} (hxs : (ofInputs c t xs).value = .ok found)
    (hys : (ofInputs c t ys).value = .ok others) :
    (ofInputs c t (xs ++ ys)).value = .ok (found ++ others) := by
  induction xs generalizing found with
  | nil =>
    cases hxs
    exact hys
  | cons input rest ih =>
    obtain ⟨first, more, hinput, hrest, rfl⟩ := ofInputs_cons_eq_ok_iff.1 hxs
    rw [List.append_assoc]
    exact ofInputs_cons_eq_ok_iff.2 ⟨first, more ++ others, hinput, ih hrest, rfl⟩

theorem ofInput_of_resolve (c : Config) {t : FileTree} {path : String} {p : Place}
    {content : ByteArray} (hp : t.resolve path = .ok p) (hfile : t.item? p = some (.file content)) :
    ofInput c t path = .ok [.ok (.reached t path p)] := by
  simp [ofInput, hp, hfile, bind, Except.bind, pure, Except.pure]

theorem stands_of_mem_ofInput {c : Config} {t : FileTree} {input : String} (ht : t.Named)
    {found : List (Except Log.Record SourceFile)} (h : ofInput c t input = .ok found)
    {f : SourceFile} (hf : f ∈ contributed found) : f.Stands t := by
  unfold ofInput at h
  cases hq : t.resolve input with
  | error e => simp [hq, bind, Except.bind] at h
  | ok q =>
    simp only [hq, bind, Except.bind] at h
    split at h
    next content hfile =>
      cases h
      obtain rfl : f = .reached t input q := by simpa [contributed] using hf
      exact ⟨input, q, rfl, FileTree.leads_of_resolve hq, by rw [hfile]; rfl,
        (FileTree.accepted_of_resolve hq).1⟩
    next =>
      cases h
      exact stands_of_mem_ofFolder ht hq hf

theorem stands_of_mem_ofInputs {c : Config} {t : FileTree} {inputs : List String} (ht : t.Named)
    {found : List SourceFile} (h : (ofInputs c t inputs).value = .ok found) {f : SourceFile}
    (hf : f ∈ found) : f.Stands t := by
  induction inputs generalizing found with
  | nil =>
    cases h
    cases hf
  | cons input rest ih =>
    obtain ⟨first, others, hinput, hrest, rfl⟩ := ofInputs_cons_eq_ok_iff.1 h
    rcases List.mem_append.1 hf with hf | hf
    · exact stands_of_mem_ofInput ht hinput hf
    · exact ih hrest hf

end Discovery

theorem discover_eq_ok_iff {c : Config} {t : FileTree} {inputs : List String}
    {files : List SourceFile} :
    (discover { c with inputs := inputs } t).value = .ok files ↔
      ∃ found, (Discovery.ofInputs c t inputs).value = .ok found ∧
        firstOf SourceFile.key found = files := by
  have hdistinct (found : List SourceFile) :
      Discovery.distinct [] found = firstOf SourceFile.key found := by
    rw [Discovery.distinct_eq_firstOf]
    simp
  unfold discover
  rw [Discovery.ofInputs_with_inputs]
  dsimp only
  cases (Discovery.ofInputs c t inputs).value with
  | error e => simp
  | ok found => simp [hdistinct]

/-- Whether the file has the key of none of these files. -/
def SourceFile.newTo (found : List SourceFile) (f : SourceFile) : Bool :=
  f.key ∉ found.map SourceFile.key

/-- The files of more inputs are those of the first, and of the others those not found yet. -/
theorem discover_append {c : Config} {t : FileTree} {xs ys : List String}
    {fx fy : List SourceFile} (hx : (discover { c with inputs := xs } t).value = .ok fx)
    (hy : (discover { c with inputs := ys } t).value = .ok fy) :
    (discover { c with inputs := xs ++ ys } t).value =
      .ok (fx ++ fy.filter (SourceFile.newTo fx)) := by
  obtain ⟨found, hfound, rfl⟩ := discover_eq_ok_iff.1 hx
  obtain ⟨others, hothers, rfl⟩ := discover_eq_ok_iff.1 hy
  refine discover_eq_ok_iff.2 ⟨found ++ others, Discovery.ofInputs_append hfound hothers, ?_⟩
  rw [firstOf_append]
  refine congrArg _ (List.filter_congr fun f _ => ?_)
  rw [SourceFile.newTo, decide_eq_decide, mem_keys_firstOf]

theorem discover_of_resolve (c : Config) {t : FileTree} {path : String} {p : Place}
    {content : ByteArray} (hp : t.resolve path = .ok p) (hfile : t.item? p = some (.file content)) :
    (discover { c with inputs := [path] } t).value = .ok [.reached t path p] := by
  refine discover_eq_ok_iff.2 ⟨[.reached t path p], ?_, rfl⟩
  rw [Discovery.ofInputs, Discovery.ofInput_of_resolve c hp hfile]
  rfl

/-- A file without a canonical place is listed for each path to it. -/
theorem discover_deepTree (c : Config) (content : ByteArray) :
    (discover { c with inputs := [FileTree.deepPath "l", FileTree.deepPath "./l"] }
        (FileTree.deepTree content)).value =
      .ok [.reached (FileTree.deepTree content) (FileTree.deepPath "l") FileTree.deepPlace,
        .reached (FileTree.deepTree content) (FileTree.deepPath "./l") FileTree.deepPlace] := by
  have hitem := FileTree.item?_deepPlace content
  have hplain := discover_of_resolve c (FileTree.resolve_deepTree content (.inl rfl)) hitem
  have hdotted := discover_of_resolve c (FileTree.resolve_deepTree content (.inr rfl)) hitem
  have hboth := discover_append hplain hdotted
  have hkey := FileTree.key_deepTree_ne content
  rwa [List.filter_cons_of_pos (by simpa [SourceFile.newTo] using hkey.symm)] at hboth

/-- Whatever is found is what some path leads to. -/
theorem stands_of_mem_discover {c : Config} {t : FileTree} {files : List SourceFile} (ht : t.Named)
    (h : (discover c t).value = .ok files) {f : SourceFile} (hf : f ∈ files) : f.Stands t := by
  have h : (discover { c with inputs := c.inputs } t).value = .ok files := h
  obtain ⟨found, hfound, rfl⟩ := discover_eq_ok_iff.1 h
  exact Discovery.stands_of_mem_ofInputs ht hfound (mem_of_mem_firstOf SourceFile.key hf)

/-- A file at a place where none was found has a new key, and if all places have short paths no
other file has one. -/
theorem newTo_of_place {c c' : Config} {t : FileTree} {fx fy : List SourceFile} (ht : t.Named)
    (hx : (discover c t).value = .ok fx) (hy : (discover c' t).value = .ok fy) {f : SourceFile}
    (hf : f ∈ fy) :
    (f.place ∉ fx.map SourceFile.place → f.newTo fx = true) ∧
      (t.Addressable → f.newTo fx = true → f.place ∉ fx.map SourceFile.place) := by
  have hstands := stands_of_mem_discover ht hy hf
  simp only [SourceFile.newTo, decide_eq_true_eq, List.mem_map, not_exists, not_and]
  constructor
  · intro hplaces g hg hkey
    exact hplaces g hg ((stands_of_mem_discover ht hx hg).place_eq hstands hkey)
  · intro hshort hkeys g hg hplace
    refine hkeys g hg ?_
    rw [(stands_of_mem_discover ht hx hg).key_eq hshort, hstands.key_eq hshort, hplace]

/-! ## Files read -/

namespace FileAnalysis

/-- Reading the file succeeds with this analysis. -/
def Yields (c : Config) (t : FileTree) (f : SourceFile) (a : FileAnalysis) : Prop :=
  (ofFile c t f).value = .ok a

/-- A file that is read has the graph of its content. -/
theorem Yields.path_graph {c : Config} {t : FileTree} {f : SourceFile} {a : FileAnalysis}
    (h : Yields c t f a) :
    a.summary.path = f.path ∧ ∃ content, f.content t = .ok content ∧
      CallGraph.ofSource (c.optionsFor (Text.Utf8.decode content)) (Text.Utf8.decode content) =
        .ok a.graph := by
  unfold Yields ofFile at h
  split at h
  next => cases h
  next content hcontent =>
    refine ⟨?_, content, hcontent, ofText_graph h⟩
    unfold ofText at h
    dsimp only at h
    split at h
    next => cases h
    next =>
      cases h
      rfl

theorem Yields.graph_eq {c : Config} {t : FileTree} {f f' : SourceFile} {a a' : FileAnalysis}
    (h : Yields c t f a) (h' : Yields c t f' a') (hkey : f.key = f'.key) :
    a.graph = a'.graph := by
  obtain ⟨-, content, hcontent, hgraph⟩ := h.path_graph
  obtain ⟨-, content', hcontent', hgraph'⟩ := h'.path_graph
  cases SourceFile.content_eq_of_key_eq hkey hcontent hcontent'
  exact Except.ok.inj (hgraph.symm.trans hgraph')

/-- Reading files succeeds exactly when each of them is read. -/
theorem ofFiles_eq_ok_iff {c : Config} {t : FileTree} {files : List SourceFile}
    {analyses : List FileAnalysis} :
    (ofFiles c t files).value = .ok analyses ↔ List.Forall₂ (Yields c t) files analyses := by
  induction files generalizing analyses with
  | nil => simp [ofFiles, eq_comm]
  | cons f rest ih =>
    rw [List.forall₂_cons_left_iff]
    simp only [← ih, Yields, ofFiles]
    cases (ofFile c t f).value with
    | error e => simp
    | ok first =>
      cases (ofFiles c t rest).value with
      | error e => simp [Except.map]
      | ok others =>
        simp only [Except.map, Except.ok.injEq]
        constructor
        · rintro rfl
          exact ⟨first, others, rfl, rfl, rfl⟩
        · rintro ⟨_, _, rfl, rfl, rfl⟩
          rfl

/-- Files are read one by one, so those that stay are read as before. -/
theorem yields_filter {c : Config} {t : FileTree} {files : List SourceFile}
    {analyses : List FileAnalysis} (h : List.Forall₂ (Yields c t) files analyses)
    (keeps : SourceFile → Bool) :
    List.Forall₂ (Yields c t) (files.filter keeps)
      (((files.zip analyses).filter fun e => keeps e.1).map Prod.snd) := by
  induction h with
  | nil => exact .nil
  | @cons f a files analyses hfirst _ ih =>
    rw [List.zip_cons_cons, List.filter_cons, List.filter_cons]
    dsimp only
    cases keeps f with
    | true => exact .cons hfirst ih
    | false => exact ih

theorem exists_yields_of_mem {c : Config} {t : FileTree} {files : List SourceFile}
    {analyses : List FileAnalysis} (h : List.Forall₂ (Yields c t) files analyses)
    {f : SourceFile} (hf : f ∈ files) : ∃ a ∈ analyses, Yields c t f a := by
  induction h with
  | nil => cases hf
  | @cons _ a _ _ hfirst _ ih =>
    rcases List.mem_cons.1 hf with rfl | hf
    · exact ⟨a, List.mem_cons_self, hfirst⟩
    · obtain ⟨b, hb, hread⟩ := ih hf
      exact ⟨b, List.mem_cons_of_mem a hb, hread⟩

/-- A file that was found before has brought its graph. -/
theorem graph_mem_of_found {c : Config} {t : FileTree} {fx fy : List SourceFile}
    {analysesX analysesY : List FileAnalysis} (hx : List.Forall₂ (Yields c t) fx analysesX)
    (hy : List.Forall₂ (Yields c t) fy analysesY) {e : SourceFile × FileAnalysis}
    (he : e ∈ fy.zip analysesY) (hfound : e.1.newTo fx = false) :
    e.2.graph ∈ analysesX.map (·.graph) := by
  have hkey : e.1.key ∈ fx.map SourceFile.key := by
    simpa [SourceFile.newTo] using hfound
  obtain ⟨f, hf, hkey⟩ := List.mem_map.1 hkey
  obtain ⟨a, ha, hfirst⟩ := exists_yields_of_mem hx hf
  rw [← hfirst.graph_eq (List.forall₂_zip hy he) hkey]
  exact List.mem_map_of_mem ha

end FileAnalysis

/-! ## Graphs that bring nothing new -/

section Seen

variable {α β κ : Type} [DecidableEq κ] (key : β → κ)

/-- Behind elements that have all its keys, a part may be left out. -/
theorem firstOf_append_filter (xs : List β) (f : α → List β) (parts : List α) (keeps : α → Bool)
    (h : ∀ a ∈ parts, keeps a = false → ∀ b ∈ f a, key b ∈ xs.map key) :
    firstOf key (xs ++ (parts.filter keeps).flatMap f) = firstOf key (xs ++ parts.flatMap f) := by
  have hnew : (((parts.filter keeps).flatMap f).filter fun b => key b ∉ xs.map key) =
      (parts.flatMap f).filter fun b => key b ∉ xs.map key := by
    induction parts with
    | nil => rfl
    | cons a parts ih =>
      have hrest := ih fun a' ha' => h a' (List.mem_cons_of_mem a ha')
      rw [List.filter_cons]
      cases hkeeps : keeps a with
      | true =>
        rw [if_pos rfl, List.flatMap_cons, List.flatMap_cons, List.filter_append,
          List.filter_append, hrest]
      | false =>
        have hseen : ((f a).filter fun b => key b ∉ xs.map key) = [] := by
          rw [List.filter_eq_nil_iff]
          intro b hb
          have := h a List.mem_cons_self hkeeps b hb
          simpa using this
        rw [if_neg Bool.false_ne_true, List.flatMap_cons, List.filter_append, hseen, hrest,
          List.nil_append]
  have hfilter := firstOf_filter key fun k => decide (k ∉ xs.map key)
  rw [firstOf_append, firstOf_append, ← hfilter, ← hfilter, hnew]

end Seen

namespace CallGraph

/-- Merging a graph again adds no node, and no edge where repeats are dropped. -/
theorem merge_append_filter {α : Type} (repeats : Bool) (graphs : List CallGraph)
    (graph : α → CallGraph) (others : List α) (keeps : α → Bool)
    (h : ∀ a ∈ others, keeps a = false → graph a ∈ graphs) :
    (merge repeats (graphs ++ (others.filter keeps).map graph)).nodes =
        (merge repeats (graphs ++ others.map graph)).nodes ∧
      (repeats = false →
        (merge repeats (graphs ++ (others.filter keeps).map graph)).edges =
          (merge repeats (graphs ++ others.map graph)).edges) := by
  have hseen {β : Type} (f : CallGraph → List β) {a : α} (ha : a ∈ others)
      (hkeeps : keeps a = false) {b : β} (hb : b ∈ f (graph a)) : b ∈ graphs.flatMap f :=
    List.mem_flatMap.2 ⟨graph a, h a ha hkeeps, hb⟩
  have hkept := collects_merge repeats (graphs ++ (others.filter keeps).map graph)
  have hall := collects_merge repeats (graphs ++ others.map graph)
  constructor
  · rw [← Array.toList_inj, hkept.nodes_eq, hall.nodes_eq, List.flatMap_append,
      List.flatMap_append, List.flatMap_map, List.flatMap_map]
    refine firstOf_append_filter Node.id _ _ others keeps fun a ha hkeeps n hn => ?_
    exact List.mem_map_of_mem (hseen _ ha hkeeps hn)
  · rintro rfl
    rw [← Array.toList_inj, hkept.edges_eq, hall.edges_eq, List.flatMap_append,
      List.flatMap_append, List.flatMap_map, List.flatMap_map]
    refine firstOf_append_filter Edge.pair _ _ others keeps fun a ha hkeeps e he => ?_
    exact List.mem_map_of_mem (hseen _ ha hkeeps he)

end CallGraph

/-! ## Files in the working folder -/

namespace FileTree

/-- A name that is a path of its own and leads to where it stands. -/
structure PlainName (name : String) : Prop where
  refusal_eq : refusal? name = none
  steps_eq : steps name = [name]
  relative : Path.isAbsolute name = false
  short : name.utf8ByteSize ≤ maxName
  other : name ≠ "" ∧ name ≠ "." ∧ name ≠ ".."

theorem plainName_A : PlainName "A" := by constructor <;> decide

variable {t : FileTree} {name : String} {content : ByteArray}

theorem locateFrom_file (hname : PlainName name) (hitem : t.item? [name] = some (.file content))
    (links : Nat) : t.locateFrom false links [] [name] = .ok [name] := by
  have hroot : t.isFolder [] = true := rfl
  obtain ⟨hempty, hdot, hdots⟩ := hname.other
  rw [locateFrom, hroot, List.nil_append, hitem]
  simp [locateFrom, hempty, hdot, hdots, Nat.not_lt.2 hname.short]

/-- The name of a file leads to it from the root. -/
theorem resolve_file (hname : PlainName name) (hhere : t.here = [])
    (hitem : t.item? [name] = some (.file content)) : t.resolve name = .ok [name] := by
  have hstart : start name t.here = [] := by simp [start, hname.relative, hhere]
  have hfilled : name.isEmpty = false := by simpa using hname.other.1
  have hlocate : t.locate false name = .ok [name] := by
    simp [locate, hname.refusal_eq, hname.steps_eq, hstart, hfilled,
      locateFrom_file hname hitem]
  rw [resolve, hlocate]
  simp [bind, Except.bind, hitem, pure, Except.pure]

end FileTree

/-! ## Whole analyses -/

namespace Analysis

open CallGraph (merge_groups merge_append_filter)

/-- The inputs decide which files are found, not how they are read. -/
theorem run_with_inputs_eq_ok_iff {c : Config} {t : FileTree} {inputs : List String}
    {a : Analysis} :
    (run { c with inputs := inputs } t).outcome = .ok a ↔
      ∃ files analyses, (discover { c with inputs := inputs } t).value = .ok files ∧ files ≠ [] ∧
        List.Forall₂ (FileAnalysis.Yields c t) files analyses ∧ merge c analyses = a := by
  have hyields :
      FileAnalysis.Yields { c with inputs := inputs } t = FileAnalysis.Yields c t := rfl
  simp only [run_eq_ok_iff, FileAnalysis.ofFiles_eq_ok_iff, hyields]
  rfl

section Found

variable {c : Config} {t : FileTree} {fx fy : List SourceFile}
  {analysesX analysesY : List FileAnalysis}

/-- Of the analyses `analysesY` of the files `fy`, those of files that are new to `fx`. -/
def ofNew (fx fy : List SourceFile) (analysesY : List FileAnalysis) : List FileAnalysis :=
  ((fy.zip analysesY).filter fun e => e.1.newTo fx).map Prod.snd

theorem merge_ofNew_files (c : Config) (fx fy : List SourceFile)
    (analysesX analysesY : List FileAnalysis) :
    (merge c (analysesX ++ ofNew fx fy analysesY)).files = (merge c analysesX).files ++
      ((fy.zip (merge c analysesY).files).filter fun e => e.1.newTo fx).map Prod.snd := by
  simp only [merge, ofNew, List.map_append, List.zip_map_right, List.filter_map, List.map_map]
  rfl

/-- Leaving out the files that were found before changes no node of what is merged, nor an edge
where repeats are dropped or nothing was left out. -/
theorem merge_ofNew_graph (hx : List.Forall₂ (FileAnalysis.Yields c t) fx analysesX)
    (hy : List.Forall₂ (FileAnalysis.Yields c t) fy analysesY) :
    (merge c (analysesX ++ ofNew fx fy analysesY)).graph.nodes =
        (CallGraph.merge c.options.keepsRepeats
          [(merge c analysesX).graph, (merge c analysesY).graph]).nodes ∧
      (c.options.keepsRepeats = false ∨ (∀ f ∈ fy, f.newTo fx = true) →
        (merge c (analysesX ++ ofNew fx fy analysesY)).graph.edges =
          (CallGraph.merge c.options.keepsRepeats
            [(merge c analysesX).graph, (merge c analysesY).graph]).edges) := by
  have hnew : (merge c (analysesX ++ ofNew fx fy analysesY)).graph =
      CallGraph.merge c.options.keepsRepeats (analysesX.map (·.graph) ++
        ((fy.zip analysesY).filter fun e => e.1.newTo fx).map fun e => e.2.graph) := by
    simp only [merge, ofNew, List.map_append, List.map_map]
    rfl
  have hzip : (fy.zip analysesY).map (fun e => e.2.graph) = analysesY.map (·.graph) := by
    have hsnd := congrArg (List.map FileAnalysis.graph) (List.map_snd_zip hy.length_eq.ge)
    rwa [List.map_map] at hsnd
  -- all graphs merged are the two merged graphs, merged
  have hgroups := merge_groups c.options.keepsRepeats
    [analysesX.map (·.graph), analysesY.map (·.graph)]
  rw [List.flatten_cons, List.flatten_singleton] at hgroups
  obtain ⟨hnodes, hedges⟩ := merge_append_filter c.options.keepsRepeats (analysesX.map (·.graph))
    (fun e : SourceFile × FileAnalysis => e.2.graph) (fy.zip analysesY) (fun e => e.1.newTo fx)
    fun e he hfound => FileAnalysis.graph_mem_of_found hx hy he hfound
  rw [hzip] at hnodes hedges
  refine ⟨(congrArg CallGraph.nodes hnew).trans (hnodes.trans hgroups.1.symm), fun h => ?_⟩
  refine (congrArg CallGraph.edges hnew).trans (Eq.trans ?_ hgroups.2.symm)
  rcases h with hdrops | hnew
  · exact hedges hdrops
  · have hall : ((fy.zip analysesY).filter fun e => e.1.newTo fx) = fy.zip analysesY := by
      rw [List.filter_eq_self]
      exact fun e he => hnew e.1 (List.of_mem_zip he).1
    rw [hall, hzip]

end Found

theorem exists_yields_of_resolve (c : Config) {t : FileTree} {path : String} {p : Place}
    (hp : t.resolve path = .ok p) (hfile : t.item? p = some (.file callingSource.toUTF8)) :
    ∃ a, FileAnalysis.Yields c t (.reached t path p) a := by
  refine exists_ofFile_calling c ?_
  rw [SourceFile.content_reached hp, FileTree.contentAt, hfile]

/-- A file and a link to it. -/
def aliasedTree : FileTree :=
  ((⟨∅, []⟩ : FileTree).put ["A"] (.file callingSource.toUTF8)).put ["L"] (.link "A")

theorem named_aliasedTree : aliasedTree.Named :=
  .put (.put (FileTree.throughout_empty (by simp) []) (by simp) (by decide) _) (by simp)
    (by decide) _

theorem addressable_aliasedTree : aliasedTree.Addressable :=
  .put (.put (FileTree.throughout_empty FileTree.accepted_root []) (by simp) (by decide) _)
    (by simp) (by decide) _

theorem resolve_aliasedTree {path : String} (h : path = "A" ∨ path = "L") :
    aliasedTree.resolve path = .ok ["A"] := by
  have hfile : aliasedTree.item? ["A"] = some (.file callingSource.toUTF8) := rfl
  rcases h with rfl | rfl
  · exact FileTree.resolve_file FileTree.plainName_A rfl hfile
  · have hlink : aliasedTree.Walks FileTree.maxLinks [] ["L"] ["A"] := by
      have hitem : aliasedTree.item? ([] ++ ["L"]) = some (.link "A") := rfl
      have hnoLink : aliasedTree.NoLink ["A"] := fun target h => by cases hfile.symm.trans h
      exact .link rfl (by decide) hitem (FileTree.walks_name rfl (by decide) hnoLink)
    exact FileTree.resolve_of_locateFrom (by decide) (by decide) hlink.locateFrom_eq rfl

def resolvingConfig : Config := { options := { keepsRepeats := false }, resolvesFields := true }

end Analysis
end CobolCalls
