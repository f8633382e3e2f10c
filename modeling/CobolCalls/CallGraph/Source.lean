import CobolCalls.CallGraph.Basic
import CobolCalls.Log
import CobolCalls.Options
import CobolCalls.Outline

/-
  The call graph of one source. Each event of the outline adds what it mentions: a performed
  section, a called or linked program, and, once it closes, the section itself with its fields.
  Options decide the labels and the names, never what is read.
-/

namespace CobolCalls

/-- Why a source has no call graph. -/
inductive SourceError where
  | mismatchedEnd (beginLine endLine : Nat) (expected found : String)
  | beforeProgram (line : Nat) (procedure : String)
  | unterminatedSection (beginLine : Nat) (procedure : String)
  | unterminatedLink (beginLine : Nat)
deriving DecidableEq

namespace SourceError

def message : SourceError → String
  | mismatchedEnd beginLine endLine expected found =>
    s!"line {endLine}: section exit {found}-99-FIM does not close section {expected}" ++
      s!" opened at line {beginLine}"
  | beforeProgram line procedure =>
    s!"line {line}: section {procedure} appears before any PROGRAM-ID"
  | unterminatedSection beginLine procedure =>
    s!"section {procedure} opened at line {beginLine} has no matching -99-FIM exit"
  | unterminatedLink beginLine =>
    s!"EXEC CICS LINK opened at line {beginLine} has no matching END-EXEC"

/-- The line to look at. -/
def line : SourceError → Nat
  | mismatchedEnd _ endLine _ _ => endLine
  | beforeProgram line _ => line
  | unterminatedSection beginLine _ => beginLine
  | unterminatedLink beginLine => beginLine

end SourceError

/-- The id of a section's node. -/
def Options.label (o : Options) (p : Procedure) : String :=
  p.name.label (if o.namespaced then some p.program else none)

/-- A section named before any program has no label but its own name. -/
def Fault.error (o : Options) : Fault → SourceError
  | mismatchedEnd beginLine endLine expected found =>
    .mismatchedEnd beginLine endLine expected found
  | beforeProgram line found => .beforeProgram line (found.label none)
  | unterminatedSection beginLine procedure => .unterminatedSection beginLine (o.label procedure)
  | unterminatedLink beginLine => .unterminatedLink beginLine

namespace CallGraph

/-- A mentioned node and the edge that leads to it. -/
def mention (g : CallGraph) (source target : String) (node : NodeKind) (edge : EdgeKind) :
    CallGraph :=
  ((g.addNode target node {}).2.addEdge source target edge).2

/-- Adds what an event mentions. A performed section belongs to the program of the section that
performs it. -/
def record (o : Options) (g : CallGraph) : Event → CallGraph
  | .performs p target => g.mention (o.label p) (o.label ⟨p.program, target⟩) .procedure .perform
  | .calls p target => g.mention (o.label p) (o.resolve target) .batchProgram .call
  | .links p target => g.mention (o.label p) (o.resolve target) .onlineProgram .remoteLink
  | .closes p fields => (g.addNode (o.label p) .procedure ⟨fields⟩).2
  | _ => g

def ofOutline (o : Options) (outline : Outline) : Except SourceError CallGraph :=
  match outline.fault with
  | some fault => .error (fault.error o)
  | none =>
    .ok (outline.events.foldl (fun g (_, event) => g.record o event) (empty o.keepsRepeats))

/-- The call graph of a source text. -/
def ofSource (o : Options) (source : String) : Except SourceError CallGraph :=
  ofOutline o (Outline.ofSource source)

end CallGraph

/-! ## Log -/

def Event.logRecord (o : Options) (n : Nat) : Event → Log.Record
  | .program name => ⟨.debug, .source, s!"line {n}: program {name}"⟩
  | .opens p => ⟨.debug, .source, s!"line {n}: section {o.label p} begins"⟩
  | .performs p target =>
    let performed : Procedure := ⟨p.program, target⟩
    ⟨.debug, .source, s!"line {n}: {o.label p} performs {o.label performed}"⟩
  | .calls p target => ⟨.debug, .source, s!"line {n}: {o.label p} calls {o.resolve target}"⟩
  | .links p target => ⟨.debug, .source, s!"line {n}: {o.label p} links to {o.resolve target}"⟩
  | .strays p found =>
    let inner := found.label none
    ⟨.warn, .source, s!"line {n}: section {inner} starts inside open section {o.label p}"⟩
  | .closes p _ => ⟨.debug, .source, s!"line {n}: section {o.label p} ends"⟩

def Outline.log (o : Options) (outline : Outline) : List Log.Record :=
  outline.events.map fun (n, event) => event.logRecord o n

end CobolCalls
