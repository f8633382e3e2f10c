import CobolCalls.AnalysisError
import CobolCalls.FileTree.Write
import CobolCalls.Report

/-
  Writing the result of an analysis to a file. Missing folders are made.
-/

namespace CobolCalls

/-- Writes a report. -/
def Report.save (r : Report) (t : FileTree) (path : String) : FileTree.Change :=
  t.writeWithFolders path r.text.toUTF8

/-- Draws a graph and writes the drawing. A graph that cannot be drawn changes no file. -/
def CallGraph.saveDot (g : CallGraph) (t : FileTree) (path : String) :
    FileTree × Option AnalysisError :=
  match g.dot with
  | .error e => (t, some (.render e))
  | .ok text =>
    let (t, failure) := t.writeWithFolders path text.toUTF8
    (t, failure.map (.file path))

end CobolCalls
