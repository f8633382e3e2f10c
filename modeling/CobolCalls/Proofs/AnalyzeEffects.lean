import CobolCalls.Proofs.Dictionaries
import CobolCalls.Proofs.Finding
import CobolCalls.Proofs.Rendering
import CobolCalls.Proofs.TreeWriting

/-
  The command `analyze` touches only its output. If its rename map cannot be used or its analysis
  fails, it prints nothing and leaves the tree as it was. If it succeeds, the tree differs in the
  file that its output path leads to and in folders made on the way there, and what it leaves is
  the text of the result, printed or in that file.

  The analysis does not look at the output path or at how much is to be shown, and neither does
  the text of its result, which tells the time besides. So runs that ask for the same analysis
  leave the same text, up to the times in it.
-/

namespace CobolCalls

/-! ## What an analysis does not look at -/

section Unread

variable (c : Config) (t : FileTree) (path : Option String) (format : Format)
  (verbose quiet : Bool)

theorem Discovery.ofInputs_with_output (inputs : List String) :
    ofInputs { c with outputPath := path, format := format, verbose := verbose, quiet := quiet }
      t inputs = ofInputs c t inputs := by
  induction inputs with
  | nil => rfl
  | cons input rest ih =>
    have hinput : ofInput
        { c with outputPath := path, format := format, verbose := verbose, quiet := quiet } t
        input = ofInput c t input := rfl
    rw [ofInputs, ofInputs, hinput, ih]

theorem FileAnalysis.ofFiles_with_output (files : List SourceFile) :
    ofFiles { c with outputPath := path, format := format, verbose := verbose, quiet := quiet }
      t files = ofFiles c t files := by
  induction files with
  | nil => rfl
  | cons f rest ih =>
    have hfirst : ofFile
        { c with outputPath := path, format := format, verbose := verbose, quiet := quiet } t f =
        ofFile c t f := rfl
    rw [ofFiles, ofFiles, hfirst, ih]

theorem Analysis.run_with_output :
    run { c with outputPath := path, format := format, verbose := verbose, quiet := quiet } t =
      run c t := by
  have hfound : discover
      { c with outputPath := path, format := format, verbose := verbose, quiet := quiet } t =
      discover c t := by
    unfold discover
    rw [Discovery.ofInputs_with_output]
  unfold run
  rw [hfound]
  simp only [FileAnalysis.ofFiles_with_output]
  rfl

end Unread

/-! ## Results up to times -/

namespace Report

/-- The parts of a report's metadata that tell the time. -/
def timeNames : List String := ["analysed_at", "analysis_duration_ms", "phase_timings"]

/-- Two reports differ in times only. -/
structure AgreesButTimes (r r' : Report) : Prop where
  version : r.version = r'.version
  metadata : ∀ name, name ∉ timeNames → r.metadata.get? name = r'.metadata.get? name
  stats : r.stats = r'.stats
  files : r.files = r'.files
  nodes : r.nodes = r'.nodes
  edges : r.edges = r'.edges

theorem agreesButTimes_ofGraph (c : Config) (g : CallGraph) (files : List FileSummary)
    (timing timing' : Timing) :
    (ofGraph c g files timing).AgreesButTimes (ofGraph c g files timing') where
  version := rfl
  metadata name hname := by
    simp only [timeNames, List.mem_cons, List.not_mem_nil, or_false, not_or] at hname
    obtain ⟨hmoment, hduration, hphases⟩ := hname
    simp only [ofGraph, metadataOf, Dict.get?_ofList, List.reverse_cons, List.reverse_nil,
      List.nil_append, List.cons_append, Dict.lookup_cons_eq_ite, if_neg hmoment,
      if_neg hduration, if_neg hphases]
  stats := rfl
  files := rfl
  nodes := rfl
  edges := rfl

end Report

/-- Two texts of a result in one format that differ in times only. -/
inductive SameResult : Format → String → String → Prop where
  | json {r r' : Report} (h : r.AgreesButTimes r') : SameResult .json r.text r'.text
  | dot (text : String) : SameResult .dot text text

namespace Session

open CommandLine (Analyze)

variable {t : FileTree} {a : Analyze} {timing : Timing}

theorem sameResult_resultText {c : Config} {result : Analysis} {timing timing' : Timing}
    {text text' : String} (h : resultText c result timing = .ok text)
    (h' : resultText c result timing' = .ok text') : SameResult c.format text text' := by
  unfold resultText at h h'
  cases hformat : c.format with
  | json =>
    rw [hformat] at h h'
    rw [← Except.ok.inj h, ← Except.ok.inj h']
    exact .json (Report.agreesButTimes_ofGraph ..)
  | dot =>
    rw [hformat] at h h'
    cases h.symm.trans h'
    exact .dot text

/-! ## How the command ends -/

/-- The rename map cannot be used, or the analysis cannot succeed. -/
def Barred (t : FileTree) (a : Analyze) : Prop :=
  (∃ e, loadRenames t a.renameMap = .error e) ∨
    ∃ renames e, loadRenames t a.renameMap = .ok renames ∧
      Analysis.Hindered (configFor t a renames) t e

/-- The rename map is loaded and the analysis has a result. -/
def Succeeds (t : FileTree) (a : Analyze) : Prop :=
  ∃ renames result, loadRenames t a.renameMap = .ok renames ∧
    (Analysis.run (configFor t a renames) t).outcome = .ok result

theorem barred_or_succeeds (t : FileTree) (a : Analyze) : Barred t a ∨ Succeeds t a := by
  cases hload : loadRenames t a.renameMap with
  | error e => exact .inl (.inl ⟨e, hload⟩)
  | ok renames =>
    cases hrun : (Analysis.run (configFor t a renames) t).outcome with
    | error e => exact .inl (.inr ⟨renames, e, hload, Analysis.hindered_of_run hrun⟩)
    | ok result => exact .inr ⟨renames, result, hload, hrun⟩

theorem Barred.analyze_eq (h : Barred t a) (timing : Timing) :
    (analyze timing t a).exitCode = 1 ∧ (analyze timing t a).stdout = "" ∧
      (analyze timing t a).tree = t := by
  have hends := ends_analyze timing t a
  generalize analyze timing t a = o at hends ⊢
  cases hends with
  | unrenamed hload =>
    obtain ⟨path, cause, rfl⟩ := exists_of_loadRenames_eq_error hload
    exact ⟨rfl, rfl, rfl⟩
  | failed log hload hrun => exact ⟨rfl, rfl, rfl⟩
  | emitted log hload hrun =>
    rcases h with ⟨e, he⟩ | ⟨renames, e, hload', he⟩
    · cases hload.symm.trans he
    · cases hload.symm.trans hload'
      exact absurd hrun (he.run_ne_ok _)

/-- The text is emitted: printed with a newline, or written with the folders above its file. -/
def Emits (t : FileTree) (path text : String) (o : Outcome) : Prop :=
  if path = standardOutput then o.stdout = text ++ "\n" ∧ o.tree = t
  else t.writeWithFolders path text.toUTF8 = (o.tree, none)

/-- A command that succeeds has emitted the text of its result. -/
theorem exists_emits_of_exitCode (h : (analyze timing t a).exitCode = 0) :
    ∃ renames result text, loadRenames t a.renameMap = .ok renames ∧
      (Analysis.run (configFor t a renames) t).outcome = .ok result ∧
      resultText (configFor t a renames) result timing = .ok text ∧
      Emits t (outputOf t a) text (analyze timing t a) := by
  have hends := ends_analyze timing t a
  generalize analyze timing t a = o at hends h ⊢
  cases hends with
  | unrenamed hload =>
    obtain ⟨path, cause, rfl⟩ := exists_of_loadRenames_eq_error hload
    cases h
  | failed log hload hrun => cases h
  | @emitted renames result log hload hrun =>
    obtain ⟨text, htext⟩ := exists_resultText hrun timing
    refine ⟨renames, result, text, hload, hrun, htext, ?_⟩
    unfold Emits
    split
    next hpath =>
      rw [hpath, emit_standardOutput htext]
      exact ⟨rfl, rfl⟩
    next hpath =>
      obtain ⟨htree, hfailure⟩ := emit_file (t := t) htext hpath
      rw [Outcome.exitCode] at h
      generalize emit (configFor t a renames) result timing t (outputOf t a) = emitted at *
      generalize t.writeWithFolders (outputOf t a) text.toUTF8 = change at *
      obtain ⟨after, stopped⟩ := change
      cases stopped with
      | none => rw [htree]
      | some e =>
        simp only [hfailure] at h
        cases h

/-! ## What a run leaves -/

/-- What a run leaves at its output path: what it prints, less the final newline, or what is read
from the file. -/
def Leaves (o : Outcome) (path text : String) : Prop :=
  if path = standardOutput then o.stdout = text ++ "\n" else o.tree.read path = .ok text.toUTF8

/-- A tree differs only in the file that the path leads to and in folders on the way there. -/
def Touches (t t' : FileTree) (path : String) : Prop :=
  if path = standardOutput then t' = t else ∃ p content, t.Written t' path p content

theorem Emits.leaves_touches (ht : t.Rooted) {path text : String} {o : Outcome}
    (h : Emits t path text o) : Leaves o path text ∧ Touches t o.tree path := by
  unfold Leaves Touches
  unfold Emits at h
  split at h
  next hpath =>
    rw [if_pos hpath, if_pos hpath]
    exact h
  next hpath =>
    rw [if_neg hpath, if_neg hpath]
    obtain ⟨p, hwritten⟩ := ht.written_writeWithFolders h
    refine ⟨?_, p, _, hwritten⟩
    rw [FileTree.read, hwritten.resolve]
    simp only [bind, Except.bind, FileTree.contentAt, hwritten.item]

/-- Two commands ask for the same analysis, wherever its result goes and however much is
shown. -/
def AsksAlike (a a' : Analyze) : Prop :=
  ∃ output verbose quiet, a' = { a with output := output, verbose := verbose, quiet := quiet }

theorem AsksAlike.run_eq {a a' : Analyze} (h : AsksAlike a a') (renames : Dict String) :
    Analysis.run (configFor t a' renames) t = Analysis.run (configFor t a renames) t := by
  obtain ⟨output, verbose, quiet, rfl⟩ := h
  exact Analysis.run_with_output (configFor t a renames) t _ a.format verbose quiet

theorem AsksAlike.resultText_eq {a a' : Analyze} (h : AsksAlike a a') (renames : Dict String)
    (result : Analysis) (timing : Timing) :
    resultText (configFor t a' renames) result timing =
      resultText (configFor t a renames) result timing := by
  obtain ⟨output, verbose, quiet, rfl⟩ := h
  rfl

/-- Runs that ask for the same analysis leave the same text, up to the times in it. -/
theorem AsksAlike.exists_leaves {a a' : Analyze} (halike : AsksAlike a a') (ht : t.Rooted)
    {timing timing' : Timing} (h : (analyze timing t a).exitCode = 0)
    (h' : (analyze timing' t a').exitCode = 0) :
    ∃ text text', Leaves (analyze timing t a) (outputOf t a) text ∧
      Leaves (analyze timing' t a') (outputOf t a') text' ∧ SameResult a.format text text' ∧
      (timing = timing' → text = text') := by
  obtain ⟨renames, result, text, hload, hrun, htext, hemits⟩ := exists_emits_of_exitCode h
  obtain ⟨renames', result', text', hload', hrun', htext', hemits'⟩ := exists_emits_of_exitCode h'
  have hmap : a'.renameMap = a.renameMap := by
    obtain ⟨output, verbose, quiet, rfl⟩ := halike
    rfl
  rw [hmap] at hload'
  cases hload.symm.trans hload'
  rw [halike.run_eq] at hrun'
  cases hrun.symm.trans hrun'
  rw [halike.resultText_eq] at htext'
  refine ⟨text, text', (hemits.leaves_touches ht).1, (hemits'.leaves_touches ht).1,
    sameResult_resultText htext htext', ?_⟩
  rintro rfl
  exact Except.ok.inj (htext.symm.trans htext')

/-- **The command `analyze` touches only its output.** Arguments that cannot be understood leave
the tree as it was. A command that is barred ends with exit code 1, prints nothing and leaves the
tree as it was. One that ends with exit code 0 changes the file that its output path leads to and
makes folders on the way there, or changes nothing if it prints its result; and the text that it
leaves is, up to the times in it, that of every other run that asks for the same analysis,
wherever the result goes and however much is shown. -/
theorem analyze_touches_only_its_output {t : FileTree} (ht : t.Rooted) (arguments : List String) :
    (∀ timing e, CommandLine.parse ("analyze" :: arguments) = .error e →
      (run timing t ("analyze" :: arguments)).tree = t) ∧
    ∀ a, CommandLine.parse ("analyze" :: arguments) = .ok (.analyze a) →
      (Barred t a ∨ Succeeds t a) ∧
      (Barred t a → ∀ timing, (run timing t ("analyze" :: arguments)).exitCode = 1 ∧
        (run timing t ("analyze" :: arguments)).stdout = "" ∧
        (run timing t ("analyze" :: arguments)).tree = t) ∧
      ∀ timing, (run timing t ("analyze" :: arguments)).exitCode = 0 →
        Touches t (run timing t ("analyze" :: arguments)).tree (outputOf t a) ∧
        ∀ timing' others a', CommandLine.parse ("analyze" :: others) = .ok (.analyze a') →
          AsksAlike a a' → (run timing' t ("analyze" :: others)).exitCode = 0 →
          ∃ text text', Leaves (run timing t ("analyze" :: arguments)) (outputOf t a) text ∧
            Leaves (run timing' t ("analyze" :: others)) (outputOf t a') text' ∧
            SameResult a.format text text' ∧ (timing = timing' → text = text') := by
  have hrun {arguments : List String} {a : Analyze} (timing : Timing)
      (h : CommandLine.parse arguments = .ok (.analyze a)) :
      run timing t arguments = analyze timing t a := by
    rw [run, h]
  refine ⟨fun timing e he => ?_, fun a ha =>
    ⟨barred_or_succeeds t a, fun hbarred timing => ?_, fun timing hzero => ?_⟩⟩
  · rw [run, he]
  · rw [hrun timing ha]
    exact hbarred.analyze_eq timing
  · rw [hrun timing ha] at hzero ⊢
    obtain ⟨renames, result, text, -, -, -, hemits⟩ := exists_emits_of_exitCode hzero
    refine ⟨(hemits.leaves_touches ht).2, fun timing' others a' ha' halike hzero' => ?_⟩
    rw [hrun timing' ha'] at hzero' ⊢
    exact halike.exists_leaves ht hzero hzero'

/-! ### A result in a new folder -/

/-- The result goes to a folder that is not there yet. -/
def drawingArguments : List String := ["A", "-o", "out/A.dot", "-f", "dot", "--quiet"]

/-- The same result, printed. -/
def printingArguments : List String := ["--format=dot", "--output=-", "--verbose", "A"]

theorem parse_drawingArguments : CommandLine.parse ("analyze" :: drawingArguments) =
    .ok (.analyze
      { paths := ["A"], output := some "out/A.dot", format := .dot, quiet := true }) := by
  with_unfolding_all rfl

theorem parse_printingArguments : CommandLine.parse ("analyze" :: printingArguments) =
    .ok (.analyze { paths := ["A"], output := some "-", format := .dot, verbose := true }) := by
  with_unfolding_all rfl

theorem rooted_callingTree : Analysis.callingTree.Rooted :=
  FileTree.rooted_empty.put rfl rfl _

open FileTree in
theorem makeFoldersFor_callingTree : Analysis.callingTree.makeFoldersFor "out/A.dot" =
    (Analysis.callingTree.put ["out"] .folder, none) := by
  have hrefusal : refusal? (Path.above "out/A.dot") = none := by decide
  have hnames : (Path.names "out/A.dot").reverse.tail = ["out"] := by decide
  have hstart : start "out/A.dot" Analysis.callingTree.here = [] := by decide
  have hroot : Analysis.callingTree.folderAt [] [] = .ok [] := folderAt_eq_ok_iff.2 ⟨.done, rfl⟩
  have hmake : Analysis.callingTree.makeFolder [] [] "out" =
      .ok (Analysis.callingTree.put ["out"] .folder) := by
    rw [makeFolder, hroot]
    rfl
  simp only [makeFoldersFor, hrefusal, hnames, hstart, makeFolders, ensureFolder, List.reverse_nil,
    hmake]

open FileTree in
theorem write_drawing (content : ByteArray) :
    (Analysis.callingTree.writeWithFolders "out/A.dot" content).2 = none := by
  have hrefusal : refusal? "out/A.dot" = none := by decide
  have hsteps : steps "out/A.dot" = ["out", "A.dot"] := by decide
  have hlocate : (Analysis.callingTree.put ["out"] .folder).locate true "out/A.dot" =
      .ok ["out", "A.dot"] := by
    have hstart : start "out/A.dot" (Analysis.callingTree.put ["out"] .folder).here = [] := by
      decide
    have hroot : (Analysis.callingTree.put ["out"] .folder).isFolder [] = true := rfl
    have hfolder : (Analysis.callingTree.put ["out"] .folder).isFolder ["out"] = true := rfl
    have hitem : (Analysis.callingTree.put ["out"] .folder).item? ["out"] = some .folder := rfl
    have hnew : (Analysis.callingTree.put ["out"] .folder).item? ["out", "A.dot"] = none := rfl
    have hshort : "out".utf8ByteSize ≤ maxName ∧ "A.dot".utf8ByteSize ≤ maxName := by decide
    have hlast : (Analysis.callingTree.put ["out"] .folder).locateFrom true maxLinks ["out"]
        ["A.dot"] = .ok ["out", "A.dot"] := by
      simp [locateFrom, hfolder, hnew, Nat.not_lt.2 hshort.2]
    have hwalk : (Analysis.callingTree.put ["out"] .folder).locateFrom true maxLinks []
        ["out", "A.dot"] = .ok ["out", "A.dot"] := by
      rw [locateFrom, List.nil_append, hitem, hlast]
      simp [hroot, Nat.not_lt.2 hshort.1]
    simp [locate, hrefusal, hsteps, hstart, hwalk]
  have hfree : (Analysis.callingTree.put ["out"] .folder).isFolder ["out", "A.dot"] = false ∧
      (Analysis.callingTree.put ["out"] .folder).isClosed ["out", "A.dot"] = false := ⟨rfl, rfl⟩
  have hplace : (Analysis.callingTree.put ["out"] .folder).writePlace "out/A.dot" =
      .ok ["out", "A.dot"] := by
    rw [writePlace, hlocate]
    simp [bind, Except.bind, hfree, pure, Except.pure]
  simp only [writeWithFolders, makeFoldersFor_callingTree, write, hplace]

theorem exitCode_of_write {renames : Dict String} {result : Analysis}
    (hload : loadRenames t a.renameMap = .ok renames)
    (hrun : (Analysis.run (configFor t a renames) t).outcome = .ok result)
    (hpath : outputOf t a = standardOutput ∨
      ∀ content, (t.writeWithFolders (outputOf t a) content).2 = none) :
    (analyze timing t a).exitCode = 0 := by
  have hends := ends_analyze timing t a
  generalize analyze timing t a = o at hends ⊢
  cases hends with
  | unrenamed hload' => cases hload.symm.trans hload'
  | failed log hload' hrun' =>
    cases hload.symm.trans hload'
    cases hrun.symm.trans hrun'
  | emitted log hload' hrun' =>
    obtain ⟨text, htext⟩ := exists_resultText hrun' timing
    rw [Outcome.exitCode]
    by_cases hprint : outputOf t a = standardOutput
    · rw [hprint, emit_standardOutput htext]
      rfl
    · rw [(emit_file htext hprint).2, hpath.resolve_left hprint]
      rfl

theorem barred_missing : Barred Analysis.callingTree { paths := ["B"] } := by
  have hname : FileTree.PlainName "B" := by constructor <;> decide
  have hmissing : Analysis.callingTree.resolve "B" = .error .notFound := by
    have hstart : FileTree.start "B" Analysis.callingTree.here = [] := by decide
    have hwalk : Analysis.callingTree.Walks FileTree.maxLinks [] ["B"] ["B"] :=
      .new rfl ⟨hname.other.1, hname.other.2.1, hname.other.2.2, hname.short⟩ rfl
    have hlocate : Analysis.callingTree.locate false "B" = .ok ["B"] := by
      simp [FileTree.locate, hname.refusal_eq, hname.steps_eq, hstart, hwalk.locateFrom_eq]
    rw [FileTree.resolve, hlocate]
    rfl
  exact .inr ⟨∅, _, rfl, .missing List.mem_cons_self hmissing⟩

theorem exitCode_drawing (timing : Timing) :
    (run timing Analysis.callingTree ("analyze" :: drawingArguments)).exitCode = 0 := by
  obtain ⟨result, hresult⟩ := Analysis.exists_run_callingTree
  rw [← Analysis.run_with_output _ _ (some "out/A.dot") .dot false true] at hresult
  rw [run, parse_drawingArguments]
  exact exitCode_of_write rfl hresult (.inr write_drawing)

theorem exitCode_printing (timing : Timing) :
    (run timing Analysis.callingTree ("analyze" :: printingArguments)).exitCode = 0 := by
  obtain ⟨result, hresult⟩ := Analysis.exists_run_callingTree
  rw [← Analysis.run_with_output _ _ (some "-") .dot true false] at hresult
  rw [run, parse_printingArguments]
  exact exitCode_of_write rfl hresult (.inl rfl)

/-- A missing input, a drawing in a new folder, and the same drawing printed. -/
theorem drawing_touches_only_its_output :
    ((run ⟨"", 0, ∅⟩ Analysis.callingTree ["analyze", "B"]).exitCode = 1 ∧
      (run ⟨"", 0, ∅⟩ Analysis.callingTree ["analyze", "B"]).tree = Analysis.callingTree) ∧
    Touches Analysis.callingTree
      (run ⟨"", 0, ∅⟩ Analysis.callingTree ("analyze" :: drawingArguments)).tree "out/A.dot" ∧
    ∃ text,
      Leaves (run ⟨"", 0, ∅⟩ Analysis.callingTree ("analyze" :: drawingArguments)) "out/A.dot"
        text ∧
      Leaves (run ⟨"", 0, ∅⟩ Analysis.callingTree ("analyze" :: printingArguments)) "-" text := by
  have hparse : CommandLine.parse ["analyze", "B"] = .ok (.analyze { paths := ["B"] }) := by
    with_unfolding_all rfl
  obtain ⟨-, hmissing⟩ := analyze_touches_only_its_output rooted_callingTree ["B"]
  obtain ⟨-, hbarred, -⟩ := hmissing _ hparse
  obtain ⟨hexit, -, htree⟩ := hbarred barred_missing ⟨"", 0, ∅⟩
  obtain ⟨-, hdrawing⟩ := analyze_touches_only_its_output rooted_callingTree drawingArguments
  obtain ⟨-, -, hsucceeds⟩ := hdrawing _ parse_drawingArguments
  obtain ⟨htouches, halike⟩ := hsucceeds ⟨"", 0, ∅⟩ (exitCode_drawing _)
  obtain ⟨text, text', hleaves, hleaves', -, hsame⟩ := halike ⟨"", 0, ∅⟩ printingArguments _
    parse_printingArguments ⟨some "-", true, false, rfl⟩ (exitCode_printing _)
  cases hsame rfl
  exact ⟨⟨hexit, htree⟩, htouches, text, hleaves, hleaves'⟩

end Session
end CobolCalls
