/-
  Log records. They are part of what an analysis returns; the outer layer decides which of them
  are shown.
-/

namespace CobolCalls.Log

inductive Level where
  | debug
  | info
  | warn
deriving DecidableEq

def Level.name : Level → String
  | debug => "DEBUG"
  | info => "INFO"
  | warn => "WARN"

/-- The part of an analysis that a record comes from. -/
inductive Origin where
  /-- Reading the lines of one source. -/
  | source
  /-- Collecting the files. -/
  | discovery
  /-- Reading one file. -/
  | file
  /-- The whole run. -/
  | run
deriving DecidableEq

/-- How the origin is shown. -/
def Origin.target : Origin → String
  | source => "ccgraph_core::scanner"
  | discovery => "ccgraph_core::phases::discovery"
  | file => "ccgraph_core::phases::parsing"
  | run => "ccgraph_core::pipeline"

structure Record where
  level : Level
  origin : Origin
  message : String
deriving DecidableEq

end CobolCalls.Log

namespace CobolCalls

/-- A value with the records that were made on the way to it. -/
structure Logged (α : Type) where
  log : List Log.Record
  value : α

end CobolCalls
