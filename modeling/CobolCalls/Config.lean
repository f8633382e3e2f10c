import CobolCalls.Fields
import CobolCalls.Options

/-
  What one analysis is asked to do: where to look for sources, how to read them, and what to
  write where.
-/

namespace CobolCalls

/-- The form in which a call graph is written. -/
inductive Format where
  | json
  | dot
deriving DecidableEq

namespace Format

def name : Format → String
  | json => "json"
  | dot => "dot"

def all : List Format := [json, dot]

def ofName? (s : String) : Option Format := all.find? (·.name == s)

/-- What follows the stem in the name of an output file. -/
def extension : Format → String
  | json => "ccgraph.json"
  | dot => "dot"

def toJson (f : Format) : Json := .str f.name

def ofJson? : Json → Option Format := Json.asVariant? ofName?

end Format

def defaultExtensions : List String := ["cbl", "cob", "cobol"]

def defaultMaxFileSize : Nat := 5000000

structure Config where
  inputs : List String := []
  outputPath : Option String := none
  format : Format := .json
  options : Options := {}
  /-- Whether called and linked fields stand for their declared literals. -/
  resolvesFields : Bool := false
  /-- Extensions of the files that a directory contributes. -/
  extensions : List String := defaultExtensions
  /-- Names that are left out of directories, besides those always left out. -/
  excludes : List String := []
  /-- The largest size in bytes of a file that a directory contributes. -/
  maxFileSize : Nat := defaultMaxFileSize
  verbose : Bool := false
  quiet : Bool := false
deriving DecidableEq

namespace Config

/-- The options for one source. The literals of its own fields join the renames, which take
precedence. -/
def optionsFor (c : Config) (source : String) : Options :=
  if c.resolvesFields then c.options.supplement (Fields.ofSource source) else c.options

/-! ## JSON form -/

def memberNames : List String :=
  ["inputs", "output_path", "format", "parse", "resolve_fields", "extensions",
    "exclude_patterns", "max_file_size", "verbose", "quiet"]

/-- The members of the JSON form, with a form of the options. -/
def members (c : Config) (options : Json) : List (String × Json) :=
  [("exclude_patterns", Json.ofStrings c.excludes),
    ("extensions", Json.ofStrings c.extensions),
    ("format", c.format.toJson),
    ("inputs", Json.ofStrings c.inputs),
    ("max_file_size", Json.ofNat c.maxFileSize),
    ("output_path", (c.outputPath.map .str).getD .null),
    ("parse", options),
    ("quiet", .bool c.quiet),
    ("resolve_fields", .bool c.resolvesFields),
    ("verbose", .bool c.verbose)]

def toJson (c : Config) : Json := .obj (c.members c.options.toJson)

/-- A string, or null for none. -/
def outputPath? : Json → Option (Option String)
  | .null => some none
  | j => (Json.asString? j).map some

/-- In an array the output path has its place and may not be left out. -/
def givesOutputPath : Json → Bool
  | .arr items => 2 ≤ items.length
  | _ => true

def ofJson? (j : Json) : Option Config := do
  if !givesOutputPath j then none
  else
    match ← j.slots? memberNames with
    | [inputs, outputPath, format, options, resolvesFields, extensions, excludes, maxFileSize,
        verbose, quiet] =>
      return {
        inputs := ← Json.optional [] (Json.asList? Json.asString?) inputs
        outputPath := ← Json.optional none outputPath? outputPath
        format := ← Json.optional .json Format.ofJson? format
        options := ← Json.optional {} Options.ofJson? options
        resolvesFields := ← Json.optional false Json.asBool? resolvesFields
        extensions := ← Json.optional defaultExtensions (Json.asList? Json.asString?) extensions
        excludes := ← Json.optional [] (Json.asList? Json.asString?) excludes
        maxFileSize := ← Json.optional defaultMaxFileSize Json.asNat? maxFileSize
        verbose := ← Json.optional false Json.asBool? verbose
        quiet := ← Json.optional false Json.asBool? quiet }
    | _ => none

end Config
end CobolCalls
