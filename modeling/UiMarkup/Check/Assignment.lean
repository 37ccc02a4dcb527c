import UiMarkup.Check.Error
import UiMarkup.Declaration.Basic
import UiMarkup.Schema.Registry

/-!
# Assignments under a schema

What a single assignment and a single declaration mean to a schema, whether
they stand in a document or in a stylesheet.
-/

namespace UiMarkup

/-- The value that an assignment gives, or why it gives none. -/
def ComponentSchema.resolve? (schema : ComponentSchema) (a : Assignment) :
    Except ValidationError Value :=
  match schema.attribute? a.name.value with
  | none => .error ⟨a.name.span, .unknownAttribute schema.kind a.name.value⟩
  | some declared =>
    match declared.type.parse a.value.value with
    | .error e => .error ⟨a.value.span, .invalidLiteral a.name.value e⟩
    | .ok v => .ok v

namespace Declaration

/-- The names and values of the assignments that give one. -/
def assignedValues (schema : ComponentSchema) (d : Declaration) : List (String × Value) :=
  d.assignments.filterMap fun a =>
    match schema.resolve? a with
    | .ok v => some (a.name.value, v)
    | .error _ => none

/-- The errors of the assignments that give no value. -/
def assignmentErrors (schema : ComponentSchema) (d : Declaration) : List ValidationError :=
  d.assignments.filterMap fun a =>
    match schema.resolve? a with
    | .ok _ => none
    | .error e => some e

def assigns (d : Declaration) (name : String) : Bool :=
  d.assignments.any (·.name.value = name)

mutual

/-- A declaration and all below it, each in front of its children. -/
def preorder : Declaration → List Declaration
  | ⟨kind, styleClass, assignments, children, span⟩ =>
    ⟨kind, styleClass, assignments, children, span⟩ :: preorderAll children

def preorderAll : List Declaration → List Declaration
  | [] => []
  | d :: ds => d.preorder ++ preorderAll ds

end

end Declaration

end UiMarkup
