import CobolCalls.Session

/-
  How the command `analyze` ends. `Ends` lists the three ways: its rename map cannot be used, its
  analysis fails, or the result is emitted. A result that has a text is emitted as that text,
  whatever its format: printed, or written to a file and the folders above it.
-/

namespace CobolCalls.Session

open CommandLine (Analyze)

/-- The path that the result goes to. -/
def outputOf (t : FileTree) (a : Analyze) : String :=
  a.output.getD (defaultOutput t a.paths a.format)

/-- The analysis that the command runs, given the renames of its map. -/
def configFor (t : FileTree) (a : Analyze) (renames : Dict String) : Config :=
  configOf a (outputOf t a) renames

variable {timing : Timing} {t : FileTree} {a : Analyze}

/-- The outcomes of the command, with what leads to each. -/
inductive Ends (timing : Timing) (t : FileTree) (a : Analyze) : Outcome → Prop where
  | unrenamed {e : Failure} : loadRenames t a.renameMap = .error e →
      Ends timing t a { failure := some e, tree := t }
  | failed {renames : Dict String} {e : AnalysisError} (log : List Log.Record) :
      loadRenames t a.renameMap = .ok renames →
      (Analysis.run (configFor t a renames) t).outcome = .error e →
      Ends timing t a { log, failure := some (.analysis e), tree := t }
  | emitted {renames : Dict String} {result : Analysis} (log : List Log.Record) :
      loadRenames t a.renameMap = .ok renames →
      (Analysis.run (configFor t a renames) t).outcome = .ok result →
      Ends timing t a { emit (configFor t a renames) result timing t (outputOf t a) with log }

theorem ends_analyze (timing : Timing) (t : FileTree) (a : Analyze) :
    Ends timing t a (analyze timing t a) := by
  unfold analyze
  dsimp only
  split
  next e hload => exact .unrenamed hload
  next renames hload =>
    split
    next e hrun => exact .failed _ hload hrun
    next result hrun => exact .emitted _ hload hrun

theorem exists_of_loadRenames_eq_error {path : Option String} {e : Failure}
    (h : loadRenames t path = .error e) : ∃ path cause, e = .renameMap path cause := by
  cases path with
  | none => cases h
  | some path =>
    rw [loadRenames] at h
    cases hread : t.read path with
    | error cause =>
      rw [hread] at h
      cases h
      exact ⟨path, _, rfl⟩
    | ok content =>
      simp only [hread] at h
      cases hrenames : renamesOf content with
      | error cause =>
        rw [hrenames] at h
        cases h
        exact ⟨path, cause, rfl⟩
      | ok renames =>
        rw [hrenames] at h
        cases h

/-! ## Emitting a result -/

variable {c : Config} {result : Analysis} {text : String}

/-- A result is saved as its text. -/
theorem saveResult_of_text (h : resultText c result timing = .ok text) (path : String) :
    saveResult c result timing t path = ((t.writeWithFolders path text.toUTF8).1,
      (t.writeWithFolders path text.toUTF8).2.map (.file path)) := by
  cases hformat : c.format with
  | json =>
    simp only [resultText, hformat, Except.ok.injEq] at h
    simp only [saveResult, hformat, Report.save, h]
  | dot =>
    simp only [resultText, hformat] at h
    cases hdot : result.graph.dot with
    | error e =>
      rw [hdot] at h
      cases h
    | ok drawing =>
      rw [hdot] at h
      have htext : drawing = text := Except.ok.inj h
      simp only [saveResult, hformat, CallGraph.saveDot, hdot, htext]

theorem emit_standardOutput (h : resultText c result timing = .ok text) :
    emit c result timing t standardOutput = { stdout := text ++ "\n", tree := t } := by
  simp [emit, h]

/-- Emitting to a file fails only where writing does, and leaves what writing leaves. -/
theorem emit_file (h : resultText c result timing = .ok text) {path : String}
    (hpath : path ≠ standardOutput) :
    (emit c result timing t path).tree = (t.writeWithFolders path text.toUTF8).1 ∧
      (emit c result timing t path).failure =
        (t.writeWithFolders path text.toUTF8).2.map fun e => .result (.file path e) := by
  unfold emit
  rw [if_neg (by simpa using hpath), saveResult_of_text h]
  generalize t.writeWithFolders path text.toUTF8 = change
  obtain ⟨after, failure⟩ := change
  cases failure with
  | none => exact ⟨rfl, rfl⟩
  | some e => exact ⟨rfl, rfl⟩

end CobolCalls.Session
