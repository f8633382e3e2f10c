import CobolCalls.Text.Split
import CobolCalls.Text.Terminal

/-
  Reading arguments. A command has options and positional arguments. An option is a flag or takes
  a value, attached as in `--name=value`, `-nvalue` and `-n=value`, or as the next argument. Two
  dashes alone end the options.

  An option that takes a value, and a run of positional arguments, is settled only when the next
  option starts or the arguments end. Until then an unknown argument is reported first.

  The reader stands for that of the library clap: it gives the same command, or an error that is
  told by the same first line. The rest of a usage message and the text of help are left out.
-/

namespace CobolCalls.CommandLine

/-- Why arguments give no command. -/
inductive UsageError where
  /-- Help was asked for. -/
  | helpAsked
  /-- No command at all; help is given instead. -/
  | noCommand
  | unknownCommand (name : String)
  | unexpectedArgument (argument : String)
  | missingArguments
  | missingValue (option : String)
  | invalidValue (value option : String) (reason : Option String)
  | unneededValue (value option : String)
  | repeated (option : String)
deriving DecidableEq

/-- What the program is about. -/
def about : String := "ccgraph - Map PERFORM, CALL and CICS LINK relationships in COBOL sources"

def help : String :=
  "\n".intercalate [about, "", "Usage: ccgraph <COMMAND>", "", "Commands:",
    "  analyze  Build the call graph of one or more source files or directories",
    "  fields   Print the literal VALUE of every field declared in a source file"]

/-- Text that stands out on a terminal. -/
def strong (text : String) : String := "\x1b[1m" ++ text ++ "\x1b[0m"

/-- Text on a terminal that is wrong. -/
def faulty (text : String) : String := "\x1b[33m" ++ text ++ "\x1b[0m"

/-- What every complaint ends with. -/
def hint : String := "\n\nFor more information, try '" ++ strong "--help" ++ "'."

namespace UsageError

/-- What is wrong, as a terminal shows it. Where nothing is, there is only help to give. -/
def complaint : UsageError → String
  | helpAsked | noCommand => help
  | unknownCommand name => s!"unrecognized subcommand '{faulty name}'"
  | unexpectedArgument argument => s!"unexpected argument '{faulty argument}' found"
  | missingArguments => "the following required arguments were not provided:"
  | missingValue option => s!"a value is required for '{strong option}' but none was supplied"
  | invalidValue value option none =>
    s!"invalid value '{faulty value}' for '{strong option}'"
  | invalidValue value option (some reason) =>
    s!"invalid value '{faulty value}' for '{strong option}': {reason}"
  | unneededValue value option =>
    s!"unexpected value '{faulty value}' for '{strong option}' found; no more were expected"
  | repeated option => s!"the argument '{strong option}' cannot be used multiple times"

/-- The complaint as plain text. A sequence that a value leaves open swallows what follows it. -/
def message : UsageError → String
  | helpAsked | noCommand => help
  | e => Text.plain (strong "error:" ++ " " ++ e.complaint ++ hint)

end UsageError

/-- What an argument may look like. -/
structure Argument where
  /-- The long name, without dashes. -/
  name : String
  short : Option Char := none
  /-- How the value is called; a flag has none. -/
  valueName : Option String := none
  repeats : Bool := false
  /-- What is wrong with a value, given how the argument is shown. -/
  check : String → String → Option UsageError := fun _ _ => none

/-- How an option is shown. -/
def Argument.shown (a : Argument) : String :=
  match a.valueName with
  | some v => s!"--{a.name} <{v}>"
  | none => s!"--{a.name}"

/-- The flag that asks for help. Nothing else counts once it is settled. -/
def helpFlag : Argument where
  name := "help"
  short := some 'h'
  check := fun _ _ => some .helpAsked

structure Grammar where
  options : List Argument
  /-- How positional arguments are shown. -/
  positional : String
  /-- Whether more than one of them may be given. -/
  many : Bool

/-- What is not settled yet. -/
inductive Pending where
  | nothing
  | option (a : Argument) (value : Option String)
  | positionals (values : List String)

/-- What has been read. -/
structure Reading where
  /-- Options with their values, last first; a flag has an empty value. -/
  given : List (String × String) := []
  positionals : List String := []
  pending : Pending := .nothing

namespace Reading

def has (r : Reading) (name : String) : Bool := r.given.any (·.1 == name)

/-- All values of an option, in order. -/
def values (r : Reading) (name : String) : List String :=
  (r.given.reverse.filter (·.1 == name)).map (·.2)

def value? (r : Reading) (name : String) : Option String := (r.values name).getLast?

/-- Takes an option in. A value is looked at only once it is clear that the option may come. -/
def take (r : Reading) (a : Argument) (value : String) : Except UsageError Reading :=
  if r.has a.name && !a.repeats then .error (.repeated a.shown)
  else
    match a.check a.shown value with
    | some e => .error e
    | none => .ok { r with given := (a.name, value) :: r.given }

/-- A path may not be empty. -/
def takePositionals (r : Reading) (g : Grammar) (values : List String) :
    Except UsageError Reading :=
  if values.any (·.isEmpty) then .error (.missingValue g.positional)
  else .ok { r with positionals := r.positionals ++ values }

/-- Settles what is pending. -/
def settle (r : Reading) (g : Grammar) : Except UsageError Reading :=
  let settled := { r with pending := .nothing }
  match r.pending with
  | .nothing => .ok settled
  | .option a none => .error (.missingValue a.shown)
  | .option a (some value) => settled.take a value
  | .positionals values => settled.takePositionals g values

/-- An option, with the value attached to it if there is one. -/
def readOption (r : Reading) (g : Grammar) (a : Argument) (attached : Option String) :
    Except UsageError Reading := do
  match a.valueName, attached with
  | none, some value => .error (.unneededValue value a.shown)
  | none, none => (← r.settle g).take a ""
  | some _, some value => (← r.settle g).take a value
  | some _, none => return { ← r.settle g with pending := .option a none }

/-- An argument after two dashes. -/
def readLong (r : Reading) (g : Grammar) (text : List Char) : Except UsageError Reading :=
  let (name, value) := Text.splitFirst '=' text
  match g.options.find? (·.name == String.ofList name) with
  | some a => r.readOption g a (value.map String.ofList)
  | none => .error (.unexpectedArgument (String.ofList ('-' :: '-' :: name)))

/-- The value that the rest of a cluster of letters attaches to the letter before it. -/
def attached? : List Char → Option String
  | [] => none
  | '=' :: value => some (String.ofList value)
  | value => some (String.ofList value)

/-- An argument after one dash: letters of flags, and the letter of an option with what is
attached to it. -/
def readShort (r : Reading) (g : Grammar) : List Char → Except UsageError Reading
  | [] => .ok r
  | letter :: rest =>
    match g.options.find? (·.short == some letter) with
    | none => .error (.unexpectedArgument (String.ofList ['-', letter]))
    | some a =>
      if a.valueName.isSome then r.readOption g a (attached? rest)
      else do readShort (← r.readOption g a none) g rest

/-- A value of the option that waits for one, or a positional argument. -/
def readPlain (r : Reading) (g : Grammar) (text : String) : Except UsageError Reading := do
  match r.pending with
  | .option a none => return { r with pending := .option a (some text) }
  | .positionals values =>
    if g.many then return { r with pending := .positionals (values ++ [text]) }
    else .error (.unexpectedArgument text)
  | _ =>
    if g.many || r.positionals.isEmpty then
      return { ← r.settle g with pending := .positionals [text] }
    else .error (.unexpectedArgument text)

/-- A positional argument after two dashes alone. -/
def readTrailing (r : Reading) (g : Grammar) (text : String) : Except UsageError Reading := do
  match r.pending with
  | .option _ none => r.settle g
  | _ => r.readPlain g text

/-- One argument before two dashes alone. -/
def readArgument (r : Reading) (g : Grammar) (text : String) : Except UsageError Reading :=
  match text.toList with
  | '-' :: '-' :: rest => r.readLong g rest
  | '-' :: letter :: rest => r.readShort g (letter :: rest)
  | _ => r.readPlain g text

/-- All arguments, from what was read before. -/
def readAll (r : Reading) (g : Grammar) (trailing : Bool) :
    List String → Except UsageError Reading
  | [] => do
    let r ← r.settle g
    if r.positionals.isEmpty then .error .missingArguments else return r
  | text :: rest => do
    if trailing then readAll (← r.readTrailing g text) g true rest
    else if text == "--" then readAll r g true rest
    else readAll (← r.readArgument g text) g false rest

end Reading

def Grammar.read (g : Grammar) (arguments : List String) : Except UsageError Reading :=
  ({} : Reading).readAll g false arguments

end CobolCalls.CommandLine
