import UiMarkup.Value.Basic

/-!
# What can be wrong with a schema
-/

namespace UiMarkup

/-- Where an attribute is declared. -/
inductive Origin
  | set (name : String)
  | own
deriving DecidableEq, Repr

def Origin.describe : Origin → String
  | set name => "set '" ++ name ++ "'"
  | own => "own attributes"

/-- What has to keep its attributes apart. -/
inductive Owner
  | set (name : String)
  | component (kind : String)
deriving DecidableEq, Repr

def Owner.describe : Owner → String
  | set name => "attribute set '" ++ name ++ "'"
  | component kind => "component '" ++ kind ++ "'"

inductive SchemaError
  | unknownType (name : String)
  | unknownAttributeSet (name : String)
  | duplicateSetName (name : String)
  | duplicateAttributeName (name : String) (owner : Owner) (first second : Origin)
  | duplicateComponentKind (kind : String)
  | unknownComponentKind (kind : String)
  | invalidDefault (name : String) (expected : AttributeType) (raw : String)
deriving DecidableEq, Repr

def SchemaError.message : SchemaError → String
  | unknownType name =>
    "unknown attribute type '" ++ name
      ++ "' (valid types: string, color, integer, float, event)"
  | unknownAttributeSet name => "unknown attribute set '" ++ name ++ "'"
  | duplicateSetName name => "duplicate attribute set '" ++ name ++ "'"
  | duplicateAttributeName name owner first second =>
    "duplicate attribute '" ++ name ++ "' in " ++ owner.describe ++ " (declared by "
      ++ first.describe ++ " and by " ++ second.describe ++ ")"
  | duplicateComponentKind kind => "duplicate component kind '" ++ kind ++ "'"
  | unknownComponentKind kind => "unknown component kind '" ++ kind ++ "'"
  | invalidDefault name expected raw =>
    "invalid default for attribute '" ++ name ++ "': expected " ++ expected.name
      ++ ", got '" ++ raw ++ "'"

/-- The type with a name. -/
def AttributeType.ofName (name : String) : Except SchemaError AttributeType :=
  match ofName? name with
  | some type => .ok type
  | none => .error (.unknownType name)

end UiMarkup
