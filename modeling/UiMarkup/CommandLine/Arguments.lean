import UiMarkup.Declaration.Stream
import UiMarkup.Number.Decimal

/-!
# Arguments of the command line

Arguments are read from left to right, and the first one that is wrong decides.
A request for help is granted as soon as it is read.
-/

namespace UiMarkup.CommandLine

structure Options where
  /-- The file to check. Standard input is checked without one. -/
  input : Option String
  schema : Option String
  style : Option String
  maxDepth : Nat
  dump : Bool
  format : Bool
  printSchema : Bool
  logLevel : String
deriving DecidableEq, Repr

inductive Request
  | help
  | run (options : Options)
deriving DecidableEq, Repr

inductive UsageError
  | unexpectedArgument (argument : String)
  | repeated (name : String)
  | missingValue (name : String)
  | unexpectedValue (name value : String)
  | invalidValue (name value : String)
deriving DecidableEq, Repr

/-! ## What can be given -/

inductive Flag
  | dump
  | format
  | printSchema
deriving DecidableEq, Repr

inductive Setting
  | schema
  | style
  | maxDepth
  | logLevel
deriving DecidableEq, Repr

inductive Switch
  | help
  | flag (flag : Flag)
  | setting (setting : Setting)
deriving DecidableEq, Repr

def Switch.ofName? : String → Option Switch
  | "help" => some .help
  | "dump" => some (.flag .dump)
  | "format" => some (.flag .format)
  | "print-schema" => some (.flag .printSchema)
  | "schema" => some (.setting .schema)
  | "style" => some (.setting .style)
  | "max-depth" => some (.setting .maxDepth)
  | "log-level" => some (.setting .logLevel)
  | _ => none

/-- What is given so far. -/
structure Draft where
  input : Option String
  schema : Option String
  style : Option String
  maxDepth : Option Nat
  logLevel : Option String
  flags : List Flag
deriving DecidableEq, Repr

namespace Draft

def empty : Draft := ⟨none, none, none, none, none, []⟩

def options (d : Draft) : Options :=
  ⟨d.input, d.schema, d.style, d.maxDepth.getD defaultMaxDepth, d.flags.contains .dump,
    d.flags.contains .format, d.flags.contains .printSchema, d.logLevel.getD "warn"⟩

def addFlag (d : Draft) (name : String) (flag : Flag) : Except UsageError Draft :=
  if d.flags.contains flag then .error (.repeated name)
  else .ok { d with flags := flag :: d.flags }

/-- A value that is given at most once. -/
def once {α : Type} (name : String) (old : Option α) (new : Option α) (text : String) :
    Except UsageError (Option α) :=
  match new with
  | none => .error (.invalidValue name text)
  | some value => if old.isSome then .error (.repeated name) else .ok (some value)

/-- The name of a file is not empty. -/
def fileName? (text : String) : Option String := if text.isEmpty then none else some text

/-- A number of 64 bits without sign. A plus may stand in front. -/
def number? (text : String) : Option Nat :=
  let digits := match text.toList with
    | '+' :: cs => cs
    | cs => cs
  if isDigits digits && ofDigits digits < UInt64.size then some (ofDigits digits) else none

def set (d : Draft) (name text : String) : Setting → Except UsageError Draft
  | .schema => (once name d.schema (fileName? text) text).map fun v => { d with schema := v }
  | .style => (once name d.style (fileName? text) text).map fun v => { d with style := v }
  | .maxDepth => (once name d.maxDepth (number? text) text).map fun v => { d with maxDepth := v }
  | .logLevel => (once name d.logLevel (some text) text).map fun v => { d with logLevel := v }

def setInput (d : Draft) (text : String) : Except UsageError Draft :=
  if d.input.isSome then .error (.unexpectedArgument text)
  else match fileName? text with
    | none => .error (.invalidValue "[INPUT]" text)
    | some file => .ok { d with input := some file }

end Draft

/-! ## Reading -/

inductive Argument
  /-- Two hyphens alone: all that follows is input. -/
  | endOfSwitches
  /-- A name behind two hyphens, perhaps with a value behind an equals sign. -/
  | long (name : String) (value : Option String)
  /-- Letters behind one hyphen. -/
  | short (letters : List Char)
  | plain (text : String)
deriving DecidableEq, Repr

def Argument.ofText (text : String) : Argument :=
  match text.toList with
  | ['-', '-'] => .endOfSwitches
  | '-' :: '-' :: cs =>
    match cutAt (· = '=') cs with
    | (name, value) => .long (String.ofList name) (value.map String.ofList)
  | '-' :: c :: cs => .short (c :: cs)
  | _ => .plain text

/-- The values of a setting and of the input are plain. -/
def isPlain (text : String) : Bool :=
  match Argument.ofText text with
  | .plain _ => true
  | _ => false

def readInputs (d : Draft) : List String → Except UsageError Draft
  | [] => .ok d
  | text :: rest => do readInputs (← d.setInput text) rest

def readArguments (d : Draft) : List String → Except UsageError Request
  | [] => .ok (.run d.options)
  | text :: rest =>
    match Argument.ofText text with
    | .endOfSwitches => do .ok (.run (← readInputs d rest).options)
    | .plain _ => do readArguments (← d.setInput text) rest
    | .short ('h' :: _) => .ok .help
    | .short _ => .error (.unexpectedArgument text)
    | .long name value =>
      match Switch.ofName? name, value, rest with
      | none, _, _ => .error (.unexpectedArgument text)
      | some .help, none, _ => .ok .help
      | some .help, some v, _ => .error (.unexpectedValue name v)
      | some (.flag flag), none, rest => do readArguments (← d.addFlag name flag) rest
      | some (.flag _), some v, _ => .error (.unexpectedValue name v)
      | some (.setting setting), some v, rest => do readArguments (← d.set name v setting) rest
      | some (.setting setting), none, v :: rest =>
        if isPlain v then do readArguments (← d.set name v setting) rest
        else .error (.missingValue name)
      | some (.setting _), none, [] => .error (.missingValue name)

/-- What the arguments ask for. -/
def parseArguments (arguments : List String) : Except UsageError Request :=
  readArguments .empty arguments

/-! ## Messages -/

def UsageError.message : UsageError → String
  | unexpectedArgument argument => "unexpected argument '" ++ argument ++ "' found"
  | repeated name => "the argument '--" ++ name ++ "' cannot be used multiple times"
  | missingValue name => "a value is required for '--" ++ name ++ "' but none was supplied"
  | unexpectedValue name value =>
    "unexpected value '" ++ value ++ "' for '--" ++ name ++ "' found; no more were expected"
  | invalidValue name value => "invalid value '" ++ value ++ "' for '" ++ name ++ "'"

def usage : String := "Usage: markedly [OPTIONS] [INPUT]\n"

def help : String :=
  "Parse and validate Markedly UI declarations\n\n" ++ usage ++ "\n" ++
  "Arguments:\n" ++
  "  [INPUT]  Input file (reads from stdin if not provided)\n\n" ++
  "Options:\n" ++
  "      --schema <SCHEMA>        Component schema file (TOML format)\n" ++
  "      --style <STYLE>          Stylesheet supplying default attribute values\n" ++
  "      --max-depth <MAX_DEPTH>  Maximum declaration nesting depth [default: 64]\n" ++
  "      --dump                   Print the validated tree\n" ++
  "      --format                 Print the document in canonical form\n" ++
  "      --print-schema           Print the component schema and exit\n" ++
  "      --log-level <LOG_LEVEL>  Log level (off, error, warn, info, debug, trace)" ++
  " [default: warn]\n" ++
  "  -h, --help                   Print help\n"

def UsageError.text (e : UsageError) : String :=
  "error: " ++ e.message ++ "\n\n" ++ usage ++ "\nFor more information, try '--help'.\n"

end UiMarkup.CommandLine
