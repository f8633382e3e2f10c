import CobolCalls.Proofs.Composition

/-
  Why an analysis has no result: an input leads nowhere, the inputs hold no source, or one of the
  files found cannot be read or has no call graph. `Hindered` lists these causes with the error
  that tells each. An analysis that fails does so for the cause that its error tells
  (`hindered_of_run`), and it fails if there is any (`Hindered.run_ne_ok`).
-/

namespace CobolCalls

namespace Discovery

theorem ofInput_eq_error_iff {c : Config} {t : FileTree} {input : String} {cause : FileError} :
    ofInput c t input = .error cause ↔ t.resolve input = .error cause := by
  unfold ofInput
  cases t.resolve input with
  | error e => simp [bind, Except.bind]
  | ok p =>
    simp only [bind, Except.bind]
    split <;> simp [pure, Except.pure]

/-- A search fails at an input that leads nowhere. -/
theorem ofInputs_eq_error {c : Config} {t : FileTree} {inputs : List String} {e : AnalysisError}
    (h : (ofInputs c t inputs).value = .error e) :
    ∃ input ∈ inputs, ∃ cause, t.resolve input = .error cause ∧ e = .file input cause := by
  induction inputs with
  | nil => cases h
  | cons input rest ih =>
    rw [ofInputs] at h
    cases hinput : ofInput c t input with
    | error cause =>
      rw [hinput] at h
      cases h
      exact ⟨input, List.mem_cons_self, cause, ofInput_eq_error_iff.1 hinput, rfl⟩
    | ok found =>
      rw [hinput] at h
      cases hrest : (ofInputs c t rest).value with
      | ok files =>
        simp only [hrest] at h
        cases h
      | error e' =>
        simp only [hrest] at h
        cases h
        obtain ⟨other, hother, hcause⟩ := ih hrest
        exact ⟨other, List.mem_cons_of_mem input hother, hcause⟩

/-- An input that leads nowhere ends every search, whatever stands before it. -/
theorem exists_ofInputs_eq_error {c : Config} {t : FileTree} {inputs : List String}
    {input : String} {cause : FileError} (hinput : input ∈ inputs)
    (hcause : t.resolve input = .error cause) : ∃ e, (ofInputs c t inputs).value = .error e := by
  induction inputs with
  | nil => cases hinput
  | cons first rest ih =>
    rw [ofInputs]
    cases hfirst : ofInput c t first with
    | error e => exact ⟨_, rfl⟩
    | ok found =>
      rcases List.mem_cons.1 hinput with rfl | hinput
      · rw [ofInput_eq_error_iff.2 hcause] at hfirst
        cases hfirst
      · obtain ⟨e, he⟩ := ih hinput
        exact ⟨e, by simp [he, Except.map]⟩

end Discovery

theorem discover_eq_error_iff {c : Config} {t : FileTree} {e : AnalysisError} :
    (discover c t).value = .error e ↔ (Discovery.ofInputs c t c.inputs).value = .error e := by
  unfold discover
  dsimp only
  cases (Discovery.ofInputs c t c.inputs).value <;> simp

namespace FileAnalysis

theorem ofText_eq_error {c : Config} {path source : String} {e : AnalysisError}
    (h : (ofText c path source).value = .error e) :
    ∃ cause, CallGraph.ofSource (c.optionsFor source) source = .error cause ∧
      e = .source path cause := by
  unfold ofText at h
  dsimp only at h
  split at h
  next cause hcause =>
    cases h
    exact ⟨cause, hcause, rfl⟩
  next => cases h

theorem ofFile_eq_error {c : Config} {t : FileTree} {f : SourceFile} {e : AnalysisError}
    (h : (ofFile c t f).value = .error e) :
    (∃ cause, f.content t = .error cause ∧ e = .file f.path cause) ∨
      ∃ content cause, f.content t = .ok content ∧
        CallGraph.ofSource (c.optionsFor (Text.Utf8.decode content)) (Text.Utf8.decode content) =
          .error cause ∧ e = .source f.path cause := by
  unfold ofFile at h
  split at h
  next cause hcause =>
    cases h
    exact .inl ⟨cause, hcause, rfl⟩
  next content hcontent =>
    obtain ⟨cause, hcause, he⟩ := ofText_eq_error h
    exact .inr ⟨content, cause, hcontent, hcause, he⟩

theorem ofFiles_eq_error {c : Config} {t : FileTree} {files : List SourceFile} {e : AnalysisError}
    (h : (ofFiles c t files).value = .error e) : ∃ f ∈ files, (ofFile c t f).value = .error e := by
  induction files with
  | nil => cases h
  | cons f rest ih =>
    rw [ofFiles] at h
    dsimp only at h
    cases hfirst : (ofFile c t f).value with
    | error e' =>
      rw [hfirst] at h
      cases h
      exact ⟨f, List.mem_cons_self, hfirst⟩
    | ok a =>
      rw [hfirst] at h
      cases hrest : (ofFiles c t rest).value with
      | ok others =>
        simp only [hrest] at h
        cases h
      | error e' =>
        simp only [hrest] at h
        cases h
        obtain ⟨other, hother, he⟩ := ih hrest
        exact ⟨other, List.mem_cons_of_mem f hother, he⟩

end FileAnalysis

namespace Analysis

/-- What keeps an analysis from a result, with the error that tells it. -/
inductive Hindered (c : Config) (t : FileTree) : AnalysisError → Prop where
  /-- An input leads nowhere. -/
  | missing {input : String} {cause : FileError} : input ∈ c.inputs →
      t.resolve input = .error cause → Hindered c t (.file input cause)
  /-- The inputs hold no source. -/
  | noSources : (discover c t).value = .ok [] → Hindered c t (.noSources c.inputs)
  | unread {files : List SourceFile} {f : SourceFile} {cause : FileError} :
      (discover c t).value = .ok files → f ∈ files → f.content t = .error cause →
      Hindered c t (.file f.path cause)
  /-- A file has no call graph. -/
  | faulty {files : List SourceFile} {f : SourceFile} {content : ByteArray} {cause : SourceError} :
      (discover c t).value = .ok files → f ∈ files → f.content t = .ok content →
      CallGraph.ofSource (c.optionsFor (Text.Utf8.decode content)) (Text.Utf8.decode content) =
        .error cause →
      Hindered c t (.source f.path cause)

variable {c : Config} {t : FileTree} {e : AnalysisError}

/-- An analysis fails for the cause that its error tells. -/
theorem hindered_of_run (h : (run c t).outcome = .error e) : Hindered c t e := by
  unfold run at h
  dsimp only at h
  split at h
  next e' hfound =>
    cases h
    obtain ⟨input, hinput, cause, hcause, rfl⟩ :=
      Discovery.ofInputs_eq_error (discover_eq_error_iff.1 hfound)
    exact .missing hinput hcause
  next hfound =>
    cases h
    exact .noSources hfound
  next files hne hfound =>
    split at h
    next e' hparsed =>
      cases h
      obtain ⟨f, hf, he⟩ := FileAnalysis.ofFiles_eq_error hparsed
      obtain ⟨cause, hcause, rfl⟩ | ⟨content, cause, hcontent, hcause, rfl⟩ :=
        FileAnalysis.ofFile_eq_error he
      · exact .unread hfound hf hcause
      · exact .faulty hfound hf hcontent hcause
    next => cases h

/-- With a cause to fail there is no result. -/
theorem Hindered.run_ne_ok (h : Hindered c t e) (a : Analysis) : (run c t).outcome ≠ .ok a := by
  intro hrun
  obtain ⟨files, analyses, hfound, hne, hparsed, -⟩ := run_eq_ok_iff.1 hrun
  have hread := FileAnalysis.ofFiles_eq_ok_iff.1 hparsed
  cases h with
  | missing hinput hcause =>
    obtain ⟨e, he⟩ := Discovery.exists_ofInputs_eq_error (c := c) hinput hcause
    rw [discover_eq_error_iff.2 he] at hfound
    cases hfound
  | noSources hnone =>
    rw [hnone] at hfound
    cases hfound
    exact hne rfl
  | unread hfound' hf hcause =>
    cases hfound.symm.trans hfound'
    obtain ⟨a, -, hyields⟩ := FileAnalysis.exists_yields_of_mem hread hf
    obtain ⟨-, content, hcontent, -⟩ := hyields.path_graph
    rw [hcause] at hcontent
    cases hcontent
  | faulty hfound' hf hcontent hcause =>
    cases hfound.symm.trans hfound'
    obtain ⟨a, -, hyields⟩ := FileAnalysis.exists_yields_of_mem hread hf
    obtain ⟨-, content, hcontent', hgraph⟩ := hyields.path_graph
    cases hcontent.symm.trans hcontent'
    rw [hcause] at hgraph
    cases hgraph

end Analysis
end CobolCalls
