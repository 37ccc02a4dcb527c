import UiMarkup.NameMap
import UiMarkup.Schema.Registry
import UiMarkup.Value.Written
import UiMarkup.Declaration.Printer

/-!
# Checked components

A component whose attributes all have values of the types that its schema
declares. Defaults of the schema are not copied into it.
-/

namespace UiMarkup

structure Component where
  kind : String
  styleClass : Option String
  attributes : NameMap Value
  children : List Component

namespace Component

/-- The value of an attribute, or else the default that a schema gives it. -/
def valueOrDefault (c : Component) (name : String) (schema : ComponentSchema) : Option Value :=
  match c.attributes.get? name with
  | some v => some v
  | none =>
    match schema.attribute? name with
    | some a => a.defaultValue
    | none => none

/-! ## The dump -/

def dumpAttribute (name : String) (v : Value) : String :=
  name ++ ": " ++ v.type.name ++ " = " ++ v.literal

mutual

/-- The lines of a component that stands `level` levels deep. -/
def dumpAt (level : Nat) : Component → String
  | ⟨kind, styleClass, attributes, children⟩ =>
    let indent := timesText level "  "
    indent ++ Declaration.heading kind styleClass ++ "\n"
      ++ String.join (attributes.entries.map fun (name, v) =>
          indent ++ "  " ++ dumpAttribute name v ++ "\n")
      ++ dumpAllAt (level + 1) children

def dumpAllAt (level : Nat) : List Component → String
  | [] => ""
  | c :: cs => c.dumpAt level ++ dumpAllAt level cs

end

/-- The component and all below it, an attribute to a line. -/
def dump (c : Component) : String := c.dumpAt 0

end Component

/-- The checked form of a document. -/
structure CheckedDocument where
  components : List Component

def CheckedDocument.dump (doc : CheckedDocument) : String :=
  Component.dumpAllAt 0 doc.components

end UiMarkup
