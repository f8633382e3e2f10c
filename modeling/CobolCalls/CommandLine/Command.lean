import CobolCalls.CommandLine.Grammar
import CobolCalls.Config
import CobolCalls.Text.Blank

/-
  The commands: `analyze` builds the call graph of files and folders, `fields` lists the literal
  values of a file's fields.
-/

namespace CobolCalls

/-! ## Renames -/

/-- A rename written as `FROM=TO`. Blanks around either side do not count, and neither side may
be blank. -/
def rename? (text : String) : Option (String × String) :=
  match Text.splitFirst '=' text.toList with
  | (source, some target) =>
    let source := Text.trim source
    let target := Text.trim target
    if source.isEmpty || target.isEmpty then none
    else some (String.ofList source, String.ofList target)
  | (_, none) => none

namespace CommandLine

/-- What `analyze` is asked to do. -/
structure Analyze where
  paths : List String
  output : Option String := none
  format : Format := .json
  namespaced : Bool := false
  noDuplicates : Bool := false
  renames : List (String × String) := []
  /-- A file with more renames. -/
  renameMap : Option String := none
  resolvesFields : Bool := false
  extensions : Option (List String) := none
  excludes : List String := []
  verbose : Bool := false
  quiet : Bool := false

inductive Command where
  | analyze (a : Analyze)
  | fields (path : String) (output : Option String)

/-! ## Arguments -/

def checkFormat (shown value : String) : Option UsageError :=
  if (Format.ofName? value).isSome then none
  else if value.isEmpty then some (.missingValue shown)
  else some (.invalidValue value shown none)

def checkRename (shown value : String) : Option UsageError :=
  if (rename? value).isSome then none
  else some (.invalidValue value shown (some s!"expected FROM=TO, got '{value}'"))

def checkPath (shown value : String) : Option UsageError :=
  if value.isEmpty then some (.missingValue shown) else none

def output : Argument := { name := "output", short := some 'o', valueName := some "OUTPUT" }

def analyzeGrammar : Grammar where
  options := [helpFlag, output,
    { name := "format", short := some 'f', valueName := some "FORMAT", check := checkFormat },
    { name := "namespace" },
    { name := "no-duplicates" },
    { name := "replace", valueName := some "REPLACEMENTS", repeats := true,
      check := checkRename },
    { name := "replace-map", valueName := some "REPLACE_MAP", check := checkPath },
    { name := "resolve-fields" },
    { name := "extensions", valueName := some "EXTENSIONS", repeats := true },
    { name := "exclude", valueName := some "EXCLUDE", repeats := true },
    { name := "verbose" },
    { name := "quiet" }]
  positional := "<PATHS>..."
  many := true

def fieldsGrammar : Grammar where
  options := [helpFlag, output]
  positional := "<PATH>"
  many := false

/-- The parts of a text between commas. -/
def splitCommas (text : String) : List String := (Text.split ',' text.toList).map String.ofList

def analyzeOf (r : Reading) : Analyze where
  paths := r.positionals
  output := r.value? "output"
  format := ((r.value? "format").bind Format.ofName?).getD .json
  namespaced := r.has "namespace"
  noDuplicates := r.has "no-duplicates"
  renames := (r.values "replace").filterMap rename?
  renameMap := r.value? "replace-map"
  resolvesFields := r.has "resolve-fields"
  extensions :=
    if r.has "extensions" then some ((r.values "extensions").flatMap splitCommas) else none
  excludes := r.values "exclude"
  verbose := r.has "verbose"
  quiet := r.has "quiet"

/-- What may stand in front of a command. -/
def frontGrammar : Grammar where
  options := [helpFlag]
  positional := "<COMMAND>"
  many := false

/-- What is wrong with a first argument that is no command. -/
def notACommand (first : String) : UsageError :=
  match ({} : Reading).readArgument frontGrammar first with
  | .error e => e
  | .ok _ => .unknownCommand first

def isCommand (name : String) : Bool := ["analyze", "fields", "help"].contains name

/-- What `help` answers. It takes the name of one command, and no command has commands below
it. -/
def helpOn : List String → UsageError
  | [] => .helpAsked
  | name :: rest =>
    if !isCommand name then .unknownCommand name
    else (rest.head?.map .unknownCommand).getD .helpAsked

/-- The command that arguments ask for. -/
def parse : List String → Except UsageError Command
  | [] => .error .noCommand
  | "analyze" :: rest => do return .analyze (analyzeOf (← analyzeGrammar.read rest))
  | "fields" :: rest => do
    let r ← fieldsGrammar.read rest
    return .fields (r.positionals.headD "") (r.value? "output")
  | "help" :: rest => .error (helpOn rest)
  | "--" :: [] => .error .noCommand
  | "--" :: name :: _ =>
    if isCommand name then .error (.unexpectedArgument name)
    else .error (.unknownCommand name)
  | first :: _ => .error (notACommand first)

end CommandLine
end CobolCalls
