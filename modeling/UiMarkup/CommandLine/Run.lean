import UiMarkup.Check.Validator
import UiMarkup.CommandLine.Arguments
import UiMarkup.Report.Layout
import UiMarkup.Schema.Builtin
import UiMarkup.Schema.Toml

/-!
# Running the command line

A run reads files and standard input, and ends with an exit code and what it
writes. How files are read is left open, so that a run is an ordinary function
of what they hold.
-/

namespace UiMarkup.CommandLine

structure Inputs (m : Type → Type) where
  file : String → m (Except ReadError String)
  standard : m (Except ReadError String)

structure Outcome where
  exitCode : Nat
  output : String
  errors : String
deriving DecidableEq, Repr

/-! ## What is written -/

/-- The reports of an error, and how many there are. A span that runs backwards is not covered,
as in `CheckError.draw`. -/
def failure (e : CheckError) (source file : String) : String :=
  e.draw source file ++ toString e.size ++ " error(s) in " ++ file ++ "\n"

def attributeLine (schema : ComponentSchema) (a : Attribute) : String :=
  "    " ++ a.name ++ ": " ++ a.type.name
    ++ (match a.defaultValue with
      | some v => " = " ++ v.literal
      | none => "")
    ++ (if a.required then " (required)" else "")
    ++ (match schema.origin? a.name with
      | some set => " [" ++ set ++ "]"
      | none => "")
    ++ "\n"

def schemaText (schema : ComponentSchema) : String :=
  (if schema.description.isEmpty then schema.kind else schema.kind ++ " - " ++ schema.description)
    ++ "\n" ++ String.join (schema.attributes.map (attributeLine schema))

/-- All kinds with their attributes. -/
def registryText (r : Registry) : String := String.join (r.components.values.map schemaText)

def logLevels : List String := ["off", "error", "warn", "info", "debug", "trace"]

/-- The log levels are known by name, in either case. -/
def logWarning (level : String) : String :=
  if logLevels.contains (String.ofList (level.toList.map Char.toLower)) then ""
  else "Invalid log level: " ++ level ++ ". Using 'warn' instead.\n"

/-! ## The run -/

variable {m : Type → Type} [Monad m]

/-- Goes on with a result, or ends the run with what `explain` says of the error. -/
def orElse {ε α : Type} (result : Except ε α) (explain : ε → String) : ExceptT String m α :=
  match result with
  | .ok a => pure a
  | .error e => throw (explain e)

def loadRegistry (inputs : Inputs m) : Option String → ExceptT String m Registry
  | none => pure .builtin
  | some file => do
    let text ← inputs.file file
    orElse (Registry.ofFile text) fun e =>
      "Error loading schema '" ++ file ++ "': " ++ e.message ++ "\n"

def readFile (inputs : Inputs m) (file : String) : ExceptT String m String := do
  let text ← inputs.file file
  orElse text fun e => "Error reading file '" ++ file ++ "': " ++ e.message ++ "\n"

def loadStylesheet (inputs : Inputs m) (registry : Registry) :
    Option String → ExceptT String m (Option Stylesheet)
  | none => pure none
  | some file => do
    let source ← readFile inputs file
    let sheet ← orElse (Stylesheet.parse registry source) (failure · source file)
    pure (some sheet)

/-- The source to check, and the name that reports give it. -/
def readSource (inputs : Inputs m) : Option String → ExceptT String m (String × String)
  | some file => do
    let source ← readFile inputs file
    pure (source, file)
  | none => do
    let text ← inputs.standard
    let source ← orElse text fun e => "Error reading from stdin: " ++ e.message ++ "\n"
    pure (source, "<stdin>")

/-- What a run writes to standard output, or to standard error if it fails. -/
def execute (inputs : Inputs m) (o : Options) : ExceptT String m String := do
  let registry ← loadRegistry inputs o.schema
  if o.printSchema then pure (registryText registry)
  else do
    let sheet ← loadStylesheet inputs registry o.style
    let (source, file) ← readSource inputs o.input
    let doc ← orElse (Document.parse source o.maxDepth) fun e => failure (.parse e) source file
    let checked ← orElse ((Validator.mk registry sheet).validateDocument doc) fun errors =>
      failure (.validation errors) source file
    pure ((if o.format then doc.print else "") ++ if o.dump then checked.dump else "")

/-- A whole run.

An error whose span runs backwards is not covered: a run that comes to it breaks off when it
draws the report. It fails and leaves standard output empty, but its exit code need not be 1,
and what it writes to standard error need not be the text given here. -/
def run (inputs : Inputs m) (arguments : List String) : m Outcome :=
  match parseArguments arguments with
  | .error e => pure ⟨2, "", e.text⟩
  | .ok .help => pure ⟨0, help, ""⟩
  | .ok (.run o) => do
    let warning := logWarning o.logLevel
    match ← (execute inputs o).run with
    | .ok output => pure ⟨0, output, warning⟩
    | .error errors => pure ⟨1, "", warning ++ errors⟩

end UiMarkup.CommandLine
