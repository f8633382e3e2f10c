import CobolCalls.Config
import CobolCalls.Proofs.ReportText

/-
  Configurations survive their JSON form in any layout. The members of a record may stand in any
  order, members of other names may stand among them, and a member that is as by default may be
  left out; the same holds of the options inside, whose renames may come in any order.

  A layout is told from the members that are written (`LaysOut`). What it says of a single member
  (`LaysOut.optional_eq`) is all that the reader of a record asks for.
-/

namespace CobolCalls.Json

/-! ## Members of a record -/

variable {names : List String} {byDefault written given : List (String × Json)}

/-- The given members lay out those written: some that are as by default are left out, others of
names that the record does not have are added, and the order does not matter. -/
def LaysOut (names : List String) (byDefault written given : List (String × Json)) : Prop :=
  ∃ kept unknown : List (String × Json), kept.Sublist written ∧
    (∀ m ∈ written, m ∈ kept ∨ m ∈ byDefault) ∧ (∀ m ∈ unknown, m.1 ∉ names) ∧
    given.Perm (kept ++ unknown)

theorem laysOut_self (names : List String) (byDefault written : List (String × Json)) :
    LaysOut names byDefault written written := by
  refine ⟨written, [], .refl _, fun m hm => .inl hm, by simp, ?_⟩
  rw [List.append_nil]

theorem countP_name_le_one {members : List (String × Json)}
    (h : (members.map Prod.fst).Nodup) (name : String) : members.countP (·.1 == name) ≤ 1 := by
  have hcount := List.nodup_iff_count_le_one.1 h name
  rwa [List.count, List.countP_map] at hcount

/-- A name that comes at most once is looked up by membership. -/
theorem lookup_eq_some_iff_of_countP {members : List (String × Json)} {name : String} {j : Json}
    (h : members.countP (·.1 == name) ≤ 1) :
    members.lookup name = some j ↔ (name, j) ∈ members := by
  induction members with
  | nil => simp
  | cons m rest ih =>
    obtain ⟨key, value⟩ := m
    rw [List.countP_cons] at h
    rw [Dict.lookup_cons_eq_ite, List.mem_cons, Prod.mk.injEq]
    by_cases hkey : name = key
    · subst hkey
      have hnone : rest.countP (·.1 == name) = 0 := by
        simp only [beq_self_eq_true, if_true] at h
        omega
      have hother : (name, j) ∉ rest := fun hmem => by
        simpa using List.countP_eq_zero.1 hnone _ hmem
      simp [hother, eq_comm]
    · rw [if_neg hkey, ih (by omega)]
      simp [hkey]

theorem LaysOut.countP_le_one (h : LaysOut names byDefault written given)
    (hwritten : (written.map Prod.fst).Nodup) {name : String} (hname : name ∈ names) :
    given.countP (·.1 == name) ≤ 1 := by
  obtain ⟨kept, unknown, hkept, -, hunknown, hperm⟩ := h
  have hzero : unknown.countP (·.1 == name) = 0 := by
    refine List.countP_eq_zero.2 fun m hm heq => ?_
    exact hunknown m hm (eq_of_beq heq ▸ hname)
  rw [hperm.countP_eq, List.countP_append, hzero]
  exact hkept.countP_le.trans (countP_name_le_one hwritten name)

/-- A member is read from a layout as it is read from what was written. -/
theorem LaysOut.optional_eq {α : Type} {read : Json → Option α} {x y : α} {name : String}
    (h : LaysOut names byDefault written given) (hwritten : (written.map Prod.fst).Nodup)
    (hdefault : (byDefault.map Prod.fst).Nodup) (hname : name ∈ names)
    (hx : required read (written.lookup name) = some x)
    (hy : required read (byDefault.lookup name) = some y) :
    optional y read (given.lookup name) = some x := by
  obtain ⟨j, hj, hx⟩ := Option.bind_eq_some_iff.1 hx
  have hlookup (v : Json) : given.lookup name = some v ↔ (name, v) ∈ given :=
    lookup_eq_some_iff_of_countP (h.countP_le_one hwritten hname)
  obtain ⟨kept, unknown, hkept, hleft, hunknown, hperm⟩ := h
  cases hgiven : given.lookup name with
  | some v =>
    have hmem : (name, v) ∈ kept ++ unknown := hperm.mem_iff.1 ((hlookup v).1 hgiven)
    rcases List.mem_append.1 hmem with hmem | hmem
    · have hv := (Dict.lookup_eq_some_iff hwritten).2 (hkept.subset hmem)
      cases hv.symm.trans hj
      exact hx
    · exact absurd hname (hunknown _ hmem)
  | none =>
    rcases hleft _ ((Dict.lookup_eq_some_iff hwritten).1 hj) with hmem | hmem
    · -- what was kept would be found
      have hfound := (hlookup j).2 (hperm.mem_iff.2 (List.mem_append_left _ hmem))
      cases hgiven.symm.trans hfound
    · rw [(Dict.lookup_eq_some_iff hdefault).2 hmem] at hy
      exact hy.symm.trans hx

theorem LaysOut.slots?_eq (h : LaysOut names byDefault written given)
    (hwritten : (written.map Prod.fst).Nodup) :
    slots? names (.obj given) = some (names.map fun name => given.lookup name) := by
  rw [slots?, if_pos]
  rw [List.all_eq_true]
  intro name hname
  exact decide_eq_true (h.countP_le_one hwritten hname)

end CobolCalls.Json

namespace CobolCalls

/-! ## Options -/

namespace Options

/-- The JSON form of renames in some order. -/
def renamesForm (renames : List (String × String)) : Json :=
  .obj (renames.map fun e => (e.1, .str e.2))

/-- A layout of the options, with their renames in any order. -/
def LaidOut (o : Options) (j : Json) : Prop :=
  ∃ renames given, renames.Perm o.renames.entries ∧ j = .obj given ∧
    Json.LaysOut memberNames (members {} (renamesForm [])) (o.members (renamesForm renames)) given

theorem laidOut_toJson (o : Options) : o.LaidOut o.toJson :=
  ⟨o.renames.entries, _, .refl _, rfl, Json.laysOut_self ..⟩

theorem nodup_members (o : Options) (renames : Json) :
    ((o.members renames).map Prod.fst).Nodup := by
  show memberNames.Nodup
  decide

theorem asDict?_renames {o : Options} {renames : List (String × String)}
    (h : renames.Perm o.renames.entries) :
    Json.asDict? Json.asString? (renamesForm renames) = some o.renames := by
  have hentries : (renames.map fun e => (e.1, Json.str e.2)).mapM
      (fun m : String × Json => (Json.asString? m.2).map (m.1, ·)) = some renames :=
    Json.mapM_map_eq_some fun _ _ => rfl
  rw [renamesForm, Json.asDict?, hentries, Option.map_some, Dict.ofList_of_perm h]

theorem LaidOut.ofJson?_eq {o : Options} {j : Json} (h : o.LaidOut j) : ofJson? j = some o := by
  obtain ⟨renames, given, hrenames, rfl, hgiven⟩ := h
  have hwritten := o.nodup_members (renamesForm renames)
  have hdefault := nodup_members {} (renamesForm [])
  have hslots : Json.slots? memberNames (.obj given) =
      some [given.lookup "allow_duplicate_edges", given.lookup "namespace_procedures",
        given.lookup "replacements"] := hgiven.slots?_eq hwritten
  have hrepeats : Json.optional defaultKeepsRepeats Json.asBool?
      (given.lookup "allow_duplicate_edges") = some o.keepsRepeats :=
    hgiven.optional_eq hwritten hdefault (by decide) rfl rfl
  have hnamespaced : Json.optional false Json.asBool? (given.lookup "namespace_procedures") =
      some o.namespaced := hgiven.optional_eq hwritten hdefault (by decide) rfl rfl
  have hreplaced : Json.optional ∅ (Json.asDict? Json.asString?) (given.lookup "replacements") =
      some o.renames :=
    hgiven.optional_eq hwritten hdefault (by decide) (asDict?_renames hrenames) rfl
  rw [ofJson?, hslots]
  simp only [Option.bind_eq_bind, Option.bind_some, hrepeats, hnamespaced, hreplaced]
  rfl

end Options

/-! ## Configurations -/

theorem Format.ofJson?_toJson (f : Format) : Format.ofJson? f.toJson = some f := by
  cases f <;> rfl

namespace Config

/-- A layout of the configuration, with any layout of its options. -/
def LaidOut (c : Config) (j : Json) : Prop :=
  ∃ options given, c.options.LaidOut options ∧ j = .obj given ∧
    Json.LaysOut memberNames (members {} ({} : Options).toJson) (c.members options) given

theorem laidOut_toJson (c : Config) : c.LaidOut c.toJson :=
  ⟨c.options.toJson, _, c.options.laidOut_toJson, rfl, Json.laysOut_self ..⟩

theorem nodup_members (c : Config) (options : Json) :
    ((c.members options).map Prod.fst).Nodup := by
  show ["exclude_patterns", "extensions", "format", "inputs", "max_file_size", "output_path",
    "parse", "quiet", "resolve_fields", "verbose"].Nodup
  decide

theorem asList?_ofStrings (items : List String) :
    Json.asList? Json.asString? (Json.ofStrings items) = some items :=
  Json.asList?_map fun _ _ => rfl

theorem outputPath?_form (path : Option String) :
    outputPath? ((path.map .str).getD .null) = some path := by
  cases path <;> rfl

theorem LaidOut.ofJson?_eq {c : Config} {j : Json} (h : c.LaidOut j) : ofJson? j = some c := by
  obtain ⟨options, given, hoptions, rfl, hgiven⟩ := h
  have hwritten := c.nodup_members options
  have hdefault := nodup_members {} ({} : Options).toJson
  have slot {α : Type} (read : Json → Option α) (name : String) (x y : α)
      (hname : name ∈ memberNames)
      (hx : Json.required read ((c.members options).lookup name) = some x)
      (hy : Json.required read ((members {} ({} : Options).toJson).lookup name) = some y) :
      Json.optional y read (given.lookup name) = some x :=
    hgiven.optional_eq hwritten hdefault hname hx hy
  have hinputs := slot (Json.asList? Json.asString?) "inputs" c.inputs [] (by decide)
    (asList?_ofStrings _) rfl
  have hpath := slot outputPath? "output_path" c.outputPath none (by decide)
    (outputPath?_form _) rfl
  have hformat := slot Format.ofJson? "format" c.format .json (by decide)
    (Format.ofJson?_toJson _) rfl
  have hoptions := slot Options.ofJson? "parse" c.options {} (by decide) hoptions.ofJson?_eq rfl
  have hresolves := slot Json.asBool? "resolve_fields" c.resolvesFields false (by decide) rfl rfl
  have hextensions := slot (Json.asList? Json.asString?) "extensions" c.extensions
    defaultExtensions (by decide) (asList?_ofStrings _) rfl
  have hexcludes := slot (Json.asList? Json.asString?) "exclude_patterns" c.excludes [] (by decide)
    (asList?_ofStrings _) rfl
  have hsize := slot Json.asNat? "max_file_size" c.maxFileSize defaultMaxFileSize (by decide)
    rfl rfl
  have hverbose := slot Json.asBool? "verbose" c.verbose false (by decide) rfl rfl
  have hquiet := slot Json.asBool? "quiet" c.quiet false (by decide) rfl rfl
  have hslots := hgiven.slots?_eq hwritten
  rw [ofJson?, hslots]
  simp only [memberNames, List.map_cons, List.map_nil, givesOutputPath, Bool.not_true,
    Bool.false_eq_true, if_false, Option.bind_eq_bind, Option.bind_some, hinputs, hpath, hformat,
    hoptions, hresolves, hextensions, hexcludes, hsize, hverbose, hquiet]
  rfl

/-- The configuration that a text describes. -/
def read? (text : String) : Option Config := Json.parse? text >>= ofJson?

theorem read?_of_parse? {c : Config} {text : String} {j : Json} (h : c.LaidOut j)
    (hparse : Json.parse? text = some j) : read? text = some c := by
  rw [read?, hparse, Option.bind_eq_bind, Option.bind_some, h.ofJson?_eq]

theorem fits_toJson {c : Config} (h : c.maxFileSize ≤ Json.maxNat) :
    Json.Fits Json.maxDepth c.toJson := by
  have hoptions : Json.Fits 126 c.options.toJson := by
    refine .obj fun m hm => ?_
    simp only [Options.members, List.mem_cons, List.not_mem_nil, or_false] at hm
    rcases hm with rfl | rfl | rfl
    · exact .bool _
    · exact .bool _
    · exact Json.fits_ofDict fun e _ => .str e.2
  have hpath : Json.Fits 126 ((c.outputPath.map .str).getD .null) := by
    cases c.outputPath with
    | none => exact .null
    | some path => exact .str path
  refine .obj fun m hm => ?_
  simp only [members, List.mem_cons, List.not_mem_nil, or_false] at hm
  rcases hm with rfl | rfl | rfl | rfl | rfl | rfl | rfl | rfl | rfl | rfl
  · exact Json.fits_ofStrings _
  · exact Json.fits_ofStrings _
  · exact .str _
  · exact Json.fits_ofStrings _
  · exact Json.fits_ofNat h
  · exact hpath
  · exact hoptions
  all_goals exact .bool _

/-- **Configurations survive their JSON form in any layout.** Every layout of a configuration is
read as it, and so is every text that spells a layout, with blanks behind it. The form in which a
configuration is written is a layout of it, and its text is read back. -/
theorem laid_out_forms_read_back (c : Config) :
    (∀ j, c.LaidOut j → ofJson? j = some c ∧
      ∀ text after, Json.Spelled Json.maxDepth text (.value j) → Json.Blank after →
        read? (String.ofList (text ++ after)) = some c) ∧
    c.LaidOut c.toJson ∧
    (c.maxFileSize ≤ Json.maxNat →
      read? c.toJson.pretty = some c ∧ read? c.toJson.compact = some c) := by
  refine ⟨fun j hj => ⟨hj.ofJson?_eq, fun text after htext hafter => ?_⟩, c.laidOut_toJson,
    fun hsize => ⟨?_, ?_⟩⟩
  · exact read?_of_parse? hj (htext.parse?_eq hafter)
  · exact read?_of_parse? c.laidOut_toJson (fits_toJson hsize).parse?_pretty
  · exact read?_of_parse? c.laidOut_toJson (fits_toJson hsize).parse?_compact

/-- A configuration with two renames and the largest size. -/
def renamingConfig : Config where
  inputs := ["a\"b"]
  options := { namespaced := true, renames := ⟨[("X", "Y"), ("Z", "é")], by decide⟩ }
  maxFileSize := Json.maxNat
  quiet := true

/-- A form of its options, backwards: a member that is as by default left out, another added. -/
def renamingOptionsForm : Json :=
  .obj [("inputs", .bool false), ("replacements", .obj [("Z", .str "é"), ("X", .str "Y")]),
    ("namespace_procedures", .bool true)]

/-- A form of it, backwards: with a note that comes twice, and without most of what is as by
default. -/
def renamingForm : Json :=
  .obj [("note", .null), ("note", .arr [.obj [("parse", .null)], .num (.neg 1)]),
    ("verbose", .bool false), ("quiet", .bool true), ("parse", renamingOptionsForm),
    ("max_file_size", .num (.nat Json.maxNat)), ("inputs", .arr [.str "a\"b"])]

theorem laidOut_renamingOptionsForm : renamingConfig.options.LaidOut renamingOptionsForm := by
  refine ⟨[("Z", "é"), ("X", "Y")], _, List.reverse_perm [("X", "Y"), ("Z", "é")], rfl,
    [("namespace_procedures", .bool true),
      ("replacements", .obj [("Z", .str "é"), ("X", .str "Y")])],
    [("inputs", .bool false)], .cons _ (.cons_cons _ (.cons_cons _ .slnil)), ?_, ?_,
    List.perm_reverse.1 (.of_eq rfl)⟩
  · simp [Options.members, Options.renamesForm, renamingConfig]
  · simp [Options.memberNames]

theorem laidOut_renamingForm : renamingConfig.LaidOut renamingForm := by
  refine ⟨renamingOptionsForm, _, laidOut_renamingOptionsForm, rfl,
    [("inputs", .arr [.str "a\"b"]), ("max_file_size", .num (.nat Json.maxNat)),
      ("parse", renamingOptionsForm), ("quiet", .bool true), ("verbose", .bool false)],
    [("note", .arr [.obj [("parse", .null)], .num (.neg 1)]), ("note", .null)], ?_, ?_, ?_,
    List.perm_reverse.1 (.of_eq rfl)⟩
  · exact .cons _ (.cons _ (.cons _ (.cons_cons _ (.cons_cons _ (.cons _ (.cons_cons _
      (.cons_cons _ (.cons _ (.cons_cons _ .slnil)))))))))
  · simp [members, renamingConfig, Json.ofStrings, Json.ofNat]
  · simp [memberNames]

theorem fits_renamingForm : Json.Fits Json.maxDepth renamingForm := by
  have hrenames : Json.Fits 125 (.obj [("Z", .str "é"), ("X", .str "Y")]) := by
    refine .obj ?_
    simp only [List.forall_mem_cons, List.not_mem_nil, false_implies, implies_true, and_true]
    exact ⟨.str _, .str _⟩
  have hoptions : Json.Fits 126 renamingOptionsForm := by
    refine .obj ?_
    simp only [List.forall_mem_cons, List.not_mem_nil, false_implies, implies_true, and_true]
    exact ⟨.bool _, hrenames, .bool _⟩
  have hnote : Json.Fits 126 (.arr [.obj [("parse", .null)], .num (.neg 1)]) := by
    refine .arr ?_
    simp only [List.forall_mem_cons, List.not_mem_nil, false_implies, implies_true, and_true]
    exact ⟨.obj (by simpa using .null), .num ⟨by decide, by decide⟩⟩
  refine .obj ?_
  simp only [List.forall_mem_cons, List.not_mem_nil, false_implies, implies_true, and_true]
  exact ⟨.null, hnote, .bool _, .bool _, hoptions, .num (Nat.le_refl _),
    Json.fits_ofStrings ["a\"b"]⟩

/-- The form out of order and the form as it is written. -/
theorem renamingForm_reads_back :
    renamingConfig.LaidOut renamingForm ∧ ofJson? renamingForm = some renamingConfig ∧
      read? (String.ofList (Json.Layout.pretty.chars 0 renamingForm ++ ['\n'])) =
        some renamingConfig ∧
      read? renamingConfig.toJson.pretty = some renamingConfig := by
  obtain ⟨layouts, -, written⟩ := laid_out_forms_read_back renamingConfig
  obtain ⟨form, texts⟩ := layouts renamingForm laidOut_renamingForm
  exact ⟨laidOut_renamingForm, form,
    texts _ _ (fits_renamingForm.spelled .pretty 0) (by simp [Json.Blank, Json.isSpace]),
    (written (Nat.le_refl _)).1⟩

end Config
end CobolCalls
