import CobolCalls.CommandLine.Command

/-
  What is known of arguments once they are read. An option is taken in by one function only, which
  looks at its value first, so whatever way its value was written, every value that a reading holds
  has passed the check of its option. Until an option is settled it waits, with the value it may
  have got; that it is one of the options of the grammar is the other half of the invariant.

  The values of `--replace` therefore all are renames, and which rename a value is can be said
  without the function that reads it: what stands on the two sides of the first equals sign.
-/

namespace CobolCalls

theorem exists_of_bind_eq_ok {ε α β : Type} {x : Except ε α} {f : α → Except ε β} {b : β}
    (h : x >>= f = .ok b) : ∃ a, x = .ok a ∧ f a = .ok b := by
  cases x with
  | error e => cases h
  | ok a => exact ⟨a, rfl, h⟩

/-! ## Checked values -/

namespace CommandLine

/-- An option of this name lets the value pass. -/
def Grammar.Allows (g : Grammar) (name value : String) : Prop :=
  ∃ a ∈ g.options, a.name = name ∧ a.check a.shown value = none

namespace Reading

/-- Every value taken in has passed its check, and an option that waits can be checked. -/
structure Checked (g : Grammar) (r : Reading) : Prop where
  given : ∀ e ∈ r.given, g.Allows e.1 e.2
  pending : ∀ a value, r.pending = .option a value → a ∈ g.options

variable {g : Grammar} {r r' : Reading} {a : Argument}

theorem checked_empty (g : Grammar) : Checked g {} where
  given := by simp
  pending := by simp

theorem Checked.nothing (hr : Checked g r) : Checked g { r with pending := .nothing } where
  given := hr.given
  pending := by simp

theorem Checked.take (hr : Checked g r) (ha : a ∈ g.options) {value : String}
    (h : r.take a value = .ok r') : Checked g r' := by
  unfold Reading.take at h
  split at h
  next => cases h
  next =>
    split at h
    next => cases h
    next hcheck =>
      cases h
      refine ⟨fun e he => ?_, hr.pending⟩
      rcases List.mem_cons.1 he with rfl | he
      · exact ⟨a, ha, rfl, hcheck⟩
      · exact hr.given e he

theorem Checked.takePositionals (hr : Checked g r) {values : List String}
    (h : r.takePositionals g values = .ok r') : Checked g r' := by
  unfold Reading.takePositionals at h
  split at h
  next => cases h
  next =>
    cases h
    exact ⟨hr.given, hr.pending⟩

theorem Checked.settle (hr : Checked g r) (h : r.settle g = .ok r') : Checked g r' := by
  unfold Reading.settle at h
  dsimp only at h
  split at h
  next =>
    cases h
    exact hr.nothing
  next => cases h
  next a value hpending => exact hr.nothing.take (hr.pending a _ hpending) h
  next => exact hr.nothing.takePositionals h

theorem Checked.readOption (hr : Checked g r) (ha : a ∈ g.options) {attached : Option String}
    (h : r.readOption g a attached = .ok r') : Checked g r' := by
  unfold Reading.readOption at h
  split at h
  next => cases h
  next =>
    obtain ⟨settled, hsettle, htake⟩ := exists_of_bind_eq_ok h
    exact (hr.settle hsettle).take ha htake
  next =>
    obtain ⟨settled, hsettle, htake⟩ := exists_of_bind_eq_ok h
    exact (hr.settle hsettle).take ha htake
  next =>
    -- the value comes with the next argument, and is checked when the option is settled
    obtain ⟨settled, hsettle, hwaits⟩ := exists_of_bind_eq_ok h
    cases hwaits
    refine ⟨(hr.settle hsettle).given, fun b value hb => ?_⟩
    cases hb
    exact ha

theorem Checked.readLong (hr : Checked g r) {text : List Char}
    (h : r.readLong g text = .ok r') : Checked g r' := by
  unfold Reading.readLong at h
  dsimp only at h
  split at h
  next a ha => exact hr.readOption (List.mem_of_find?_eq_some ha) h
  next => cases h

theorem Checked.readShort (hr : Checked g r) {letters : List Char}
    (h : r.readShort g letters = .ok r') : Checked g r' := by
  induction letters generalizing r with
  | nil =>
    cases h
    exact hr
  | cons letter rest ih =>
    unfold Reading.readShort at h
    split at h
    next => cases h
    next a ha =>
      have hmem := List.mem_of_find?_eq_some ha
      split at h
      next => exact hr.readOption hmem h
      next =>
        obtain ⟨next, hflag, hrest⟩ := exists_of_bind_eq_ok h
        exact ih (hr.readOption hmem hflag) hrest

theorem Checked.readPlain (hr : Checked g r) {text : String}
    (h : r.readPlain g text = .ok r') : Checked g r' := by
  unfold Reading.readPlain at h
  split at h
  next a hpending =>
    cases h
    refine ⟨hr.given, fun b value hb => ?_⟩
    cases hb
    exact hr.pending a none hpending
  next =>
    split at h
    next =>
      cases h
      exact ⟨hr.given, by simp⟩
    next => cases h
  next =>
    split at h
    next =>
      obtain ⟨settled, hsettle, hwaits⟩ := exists_of_bind_eq_ok h
      cases hwaits
      exact ⟨(hr.settle hsettle).given, by simp⟩
    next => cases h

theorem Checked.readTrailing (hr : Checked g r) {text : String}
    (h : r.readTrailing g text = .ok r') : Checked g r' := by
  unfold Reading.readTrailing at h
  split at h
  next => exact hr.settle h
  next => exact hr.readPlain h

theorem Checked.readArgument (hr : Checked g r) {text : String}
    (h : r.readArgument g text = .ok r') : Checked g r' := by
  unfold Reading.readArgument at h
  split at h
  next => exact hr.readLong h
  next => exact hr.readShort h
  next => exact hr.readPlain h

/-- All arguments: each is one step, and the end settles what still waits. -/
theorem Checked.readAll (hr : Checked g r) {trailing : Bool} {arguments : List String}
    (h : r.readAll g trailing arguments = .ok r') : Checked g r' := by
  induction arguments generalizing r trailing with
  | nil =>
    obtain ⟨settled, hsettle, hend⟩ := exists_of_bind_eq_ok h
    split at hend
    next => cases hend
    next =>
      cases hend
      exact hr.settle hsettle
  | cons text rest ih =>
    unfold Reading.readAll at h
    split at h
    next =>
      obtain ⟨next, hstep, hrest⟩ := exists_of_bind_eq_ok h
      exact ih (hr.readTrailing hstep) hrest
    next =>
      split at h
      next => exact ih hr h
      next =>
        obtain ⟨next, hstep, hrest⟩ := exists_of_bind_eq_ok h
        exact ih (hr.readArgument hstep) hrest

end Reading

theorem Grammar.allows_of_read {g : Grammar} {arguments : List String} {r : Reading}
    (h : g.read arguments = .ok r) {name value : String} (hvalue : value ∈ r.values name) :
    g.Allows name value := by
  obtain ⟨e, he, rfl⟩ := List.mem_map.1 hvalue
  obtain ⟨hmem, hname⟩ := List.mem_filter.1 he
  rw [← beq_iff_eq.1 hname]
  exact ((Reading.checked_empty g).readAll h).given e (List.mem_reverse.1 hmem)

end CommandLine

/-! ## Renames -/

theorem Text.splitFirst_eq_iff {separator : Char} {text source target : List Char} :
    splitFirst separator text = (source, some target) ↔
      text = source ++ separator :: target ∧ separator ∉ source := by
  constructor
  · intro h
    obtain ⟨hsource, htarget⟩ := Prod.mk.inj h
    have hsplit := List.takeWhile_append_dropWhile (p := (· != separator)) (l := text)
    have hstop := List.head?_dropWhile_not (· != separator) text
    cases hdrop : text.dropWhile (· != separator) with
    | nil =>
      rw [hdrop] at htarget
      cases htarget
    | cons c rest =>
      rw [hdrop] at htarget hsplit hstop
      cases htarget
      have hc : c = separator := by simpa using hstop
      rw [hsource, hc] at hsplit
      refine ⟨hsplit.symm, fun hmem => ?_⟩
      rw [← hsource] at hmem
      simpa using List.all_eq_true.1 List.all_takeWhile separator hmem
  · rintro ⟨rfl, hmem⟩
    have hbefore : ∀ c ∈ source, (c != separator) = true := by
      intro c hc
      rw [bne_iff_ne]
      rintro rfl
      exact hmem hc
    rw [splitFirst, List.takeWhile_append_of_pos hbefore, List.dropWhile_append_of_pos hbefore]
    simp

/-- The argument is `FROM=TO`, where `x` and `y` are the two sides without the blanks around
them, and neither is empty. -/
def Renames (argument x y : String) : Prop :=
  ∃ source target, argument.toList = source ++ '=' :: target ∧ '=' ∉ source ∧
    x = String.ofList (Text.trim source) ∧ y = String.ofList (Text.trim target) ∧
    x ≠ "" ∧ y ≠ ""

theorem rename?_eq_some_iff {argument x y : String} :
    rename? argument = some (x, y) ↔ Renames argument x y := by
  have hempty (text : List Char) : text.isEmpty = false ↔ String.ofList text ≠ "" := by
    cases text <;> simp
  unfold rename? Renames
  constructor
  · intro h
    split at h
    next source target hsplit =>
      obtain ⟨htext, hmem⟩ := Text.splitFirst_eq_iff.1 hsplit
      dsimp only at h
      split at h
      next => cases h
      next hfilled =>
        cases h
        rw [Bool.or_eq_true, not_or, Bool.not_eq_true, Bool.not_eq_true, hempty, hempty] at hfilled
        exact ⟨source, target, htext, hmem, rfl, rfl, hfilled⟩
    next => cases h
  · rintro ⟨source, target, htext, hmem, rfl, rfl, hx, hy⟩
    rw [Text.splitFirst_eq_iff.2 ⟨htext, hmem⟩]
    dsimp only
    rw [(hempty _).2 hx, (hempty _).2 hy]
    rfl

/-- What `--replace` is given always is a rename. -/
theorem CommandLine.exists_renames_of_read {arguments : List String} {r : Reading}
    (h : analyzeGrammar.read arguments = .ok r) {argument : String}
    (hargument : argument ∈ r.values "replace") : ∃ x y, Renames argument x y := by
  obtain ⟨a, ha, hname, hcheck⟩ := Grammar.allows_of_read h hargument
  have honly : ∀ a ∈ analyzeGrammar.options, a.name = "replace" → a.check = checkRename := by
    simp [analyzeGrammar, helpFlag, output]
  rw [honly a ha hname, checkRename] at hcheck
  split at hcheck
  next hsome =>
    obtain ⟨⟨x, y⟩, hxy⟩ := Option.isSome_iff_exists.1 hsome
    exact ⟨x, y, rename?_eq_some_iff.1 hxy⟩
  next => cases hcheck

end CobolCalls
