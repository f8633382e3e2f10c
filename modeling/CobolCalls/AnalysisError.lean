import CobolCalls.CallGraph.Dot
import CobolCalls.CallGraph.Source
import CobolCalls.FileTree.Basic

/-
  Why an analysis fails.
-/

namespace CobolCalls

inductive AnalysisError where
  /-- The inputs hold no source file. -/
  | noSources (inputs : List String)
  /-- A path cannot be read or written. -/
  | file (path : String) (cause : FileError)
  /-- A file has no call graph. -/
  | source (path : String) (cause : SourceError)
  /-- The graph cannot be drawn. -/
  | render (cause : RenderError)
deriving DecidableEq

def AnalysisError.message : AnalysisError → String
  | noSources inputs => "no source files found in " ++ ", ".intercalate inputs
  | file path cause => s!"failed to read {path}: {cause.message}"
  | source path cause => s!"{path}: {cause.message}"
  | render cause => cause.message

end CobolCalls
