import UiMarkup.FileText
import UiMarkup.Schema.File
import UiMarkup.Toml.Document

/-!
# Schema files in TOML

A record of a schema file is a table with the names of its fields as keys, or
an array with the fields in order. No other keys are allowed in the table.
-/

namespace UiMarkup

namespace SchemaFile

/-- A value that is not what the schema file has to hold there. -/
inductive ShapeError
  | unknownField (name : String)
  | missingField (name : String)
  | wrongType (wanted : String)
deriving DecidableEq, Repr

def ShapeError.message : ShapeError → String
  | unknownField name => "unknown field '" ++ name ++ "'"
  | missingField name => "missing field '" ++ name ++ "'"
  | wrongType wanted => "expected " ++ wanted

def asText : Toml.Value → Except ShapeError String
  | .string text => .ok text
  | _ => .error (.wrongType "a string")

def asBoolean : Toml.Value → Except ShapeError Bool
  | .boolean b => .ok b
  | _ => .error (.wrongType "true or false")

def asList {α : Type} (item : Toml.Value → Except ShapeError α) :
    Toml.Value → Except ShapeError (List α)
  | .array items => items.mapM item
  | .tables items => items.mapM fun entries => item (.table .header entries)
  | _ => .error (.wrongType "an array")

/-! ## Records -/

structure Fields where
  entries : Toml.Entries
  /-- The fields come from an array, where none that has no default may be missing. -/
  inOrder : Bool

namespace Fields

def ofValue (names : List String) : Toml.Value → Except ShapeError Fields
  | .table _ entries =>
    match entries.find? fun (name, _) => !names.contains name with
    | some (name, _) => .error (.unknownField name)
    | none => .ok ⟨entries, false⟩
  | .array items => .ok ⟨names.zip items, true⟩
  | .tables items => .ok ⟨names.zip (items.map (.table .header)), true⟩
  | _ => .error (.wrongType "a table")

variable {α : Type} (f : Fields) (name : String) (as : Toml.Value → Except ShapeError α)

/-- A field that has to be there. -/
def required : Except ShapeError α :=
  match f.entries.lookup name with
  | some v => as v
  | none => .error (.missingField name)

/-- A field that stands for something when it is missing. -/
def withDefault (fallback : α) : Except ShapeError α :=
  match f.entries.lookup name with
  | some v => as v
  | none => .ok fallback

/-- A field that a table may leave out. -/
def optional : Except ShapeError (Option α) :=
  match f.entries.lookup name with
  | some v => (as v).map some
  | none => if f.inOrder then .error (.missingField name) else .ok none

end Fields

def readAttribute (v : Toml.Value) : Except ShapeError AttributeEntry := do
  let f ← Fields.ofValue ["name", "type", "description", "required", "default"] v
  .ok ⟨← f.required "name" asText, ← f.required "type" asText,
    ← f.withDefault "description" asText "", ← f.withDefault "required" asBoolean false,
    ← f.optional "default" asText⟩

def readSet (v : Toml.Value) : Except ShapeError SetEntry := do
  let f ← Fields.ofValue ["name", "attributes"] v
  .ok ⟨← f.required "name" asText, ← f.withDefault "attributes" (asList readAttribute) []⟩

def readComponent (v : Toml.Value) : Except ShapeError ComponentEntry := do
  let f ← Fields.ofValue ["kind", "description", "include", "attributes"] v
  .ok ⟨← f.required "kind" asText, ← f.withDefault "description" asText "",
    ← f.withDefault "include" (asList asText) [],
    ← f.withDefault "attributes" (asList readAttribute) []⟩

/-- The name that the metadata give. -/
def readMetadata (v : Toml.Value) : Except ShapeError (Option String) := do
  let f ← Fields.ofValue ["name"] v
  f.optional "name" asText

def ofToml (root : Toml.Entries) : Except ShapeError SchemaFile := do
  let f ← Fields.ofValue ["metadata", "sets", "components"] (.table .header root)
  .ok ⟨← f.withDefault "metadata" readMetadata none, ← f.withDefault "sets" (asList readSet) [],
    ← f.withDefault "components" (asList readComponent) []⟩

end SchemaFile

/-! ## Loading -/

inductive SchemaFileError
  | unreadable (error : ReadError)
  | malformed (error : Toml.Error)
  | misshapen (error : SchemaFile.ShapeError)
  | invalid (error : SchemaError)
deriving DecidableEq, Repr

def SchemaFileError.message : SchemaFileError → String
  | unreadable error => "Failed to read schema file: " ++ error.message
  | malformed error => "Failed to parse schema TOML: " ++ error.message
  | misshapen error => "Failed to parse schema TOML: " ++ error.message
  | invalid error => "Invalid schema: " ++ error.message

namespace Registry

/-- Loads the text of a schema file. -/
def ofToml (source : String) : Except SchemaFileError Registry := do
  let root ← (Toml.parse source).mapError .malformed
  let file ← (SchemaFile.ofToml root).mapError .misshapen
  file.load.mapError .invalid

/-- Loads a schema file as far as it could be read. -/
def ofFile (text : Except ReadError String) : Except SchemaFileError Registry :=
  match text with
  | .error e => .error (.unreadable e)
  | .ok source => ofToml source

end Registry

end UiMarkup
