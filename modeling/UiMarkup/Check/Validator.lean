import UiMarkup.Check.Component
import UiMarkup.Check.Stylesheet

/-!
# Checking a document

A document is checked against a registry, with the values of a stylesheet where
it assigns none. All errors are found, in the order of the source.
-/

namespace UiMarkup

structure Validator where
  registry : Registry
  stylesheet : Option Stylesheet

namespace Validator

/-- The stylesheet's values for a component, as far as the schema has use for
them. The stylesheet may have been made for another schema. -/
def styleValues (v : Validator) (schema : ComponentSchema) (d : Declaration) :
    List (String × Value) :=
  match v.stylesheet with
  | none => []
  | some sheet =>
    (sheet.valuesFor d.kindName d.className).entries.filter fun (name, value) =>
      (schema.attribute? name).map Attribute.type = some value.type

/-- Assignments win over the stylesheet, and later assignments over earlier ones. -/
def attributes (v : Validator) (schema : ComponentSchema) (d : Declaration) : NameMap Value :=
  (NameMap.empty.insertAll (v.styleValues schema d)).insertAll (d.assignedValues schema)

/-- What has to be assigned and is not. An assignment counts even when its value is wrong. -/
def missing (v : Validator) (schema : ComponentSchema) (d : Declaration) : List Attribute :=
  schema.requiredAttributes.filter fun a =>
    !(v.attributes schema d).contains a.name && !d.assigns a.name

/-- The errors of one declaration, without those of its children. -/
def errorsAt (v : Validator) (d : Declaration) : List ValidationError :=
  match v.registry.schema? d.kindName with
  | none => [⟨d.kind.span, .unknownKind d.kindName⟩]
  | some schema =>
    d.assignmentErrors schema
      ++ (v.missing schema d).map fun a => ⟨d.kind.span, .missingRequired d.kindName a.name⟩

/-- The errors of declarations and of all below them. -/
def errors (v : Validator) (ds : List Declaration) : List ValidationError :=
  (Declaration.preorderAll ds).flatMap v.errorsAt

/-- The attributes of the component that a declaration makes. -/
def attributesAt (v : Validator) (d : Declaration) : NameMap Value :=
  match v.registry.schema? d.kindName with
  | none => .empty
  | some schema => v.attributes schema d

mutual

def component (v : Validator) : Declaration → Component
  | ⟨kind, styleClass, assignments, children, span⟩ =>
    ⟨kind.value, styleClass.map Placed.value,
      v.attributesAt ⟨kind, styleClass, assignments, children, span⟩, v.components children⟩

def components (v : Validator) : List Declaration → List Component
  | [] => []
  | d :: ds => v.component d :: v.components ds

end

/-- The components that declarations make, or all their errors. -/
def validate (v : Validator) (ds : List Declaration) :
    Except (List ValidationError) (List Component) :=
  match v.errors ds with
  | [] => .ok (v.components ds)
  | errors => .error (ValidationError.sortByStart errors)

def validateOne (v : Validator) (d : Declaration) : Except (List ValidationError) Component :=
  match v.errors [d] with
  | [] => .ok (v.component d)
  | errors => .error (ValidationError.sortByStart errors)

def validateDocument (v : Validator) (doc : Document) :
    Except (List ValidationError) CheckedDocument :=
  (v.validate doc.roots).map CheckedDocument.mk

end Validator

/-! ## From source to components -/

structure CheckOptions where
  maxDepth : Nat
  stylesheet : Option Stylesheet

/-- Reads a document and checks it. -/
def check (registry : Registry) (options : CheckOptions) (source : String) :
    Except CheckError CheckedDocument := do
  let doc ← (Document.parse source options.maxDepth).mapError .parse
  ((Validator.mk registry options.stylesheet).validateDocument doc).mapError .validation

end UiMarkup
