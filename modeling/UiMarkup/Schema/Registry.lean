import UiMarkup.Schema.Attribute
import UiMarkup.NameMap

/-!
# Catalogs and registries

A catalog holds attribute sets. A registry holds the kinds of components, each
with the attributes it includes from sets and those of its own. Its catalog
does not change any more.
-/

namespace UiMarkup

/-! ## Catalogs -/

structure Catalog where
  sets : NameMap AttributeSet

namespace Catalog

def empty : Catalog := ⟨.empty⟩

/-- Takes in a set whose name is new. -/
def register (c : Catalog) (set : AttributeSet) : Except SchemaError Catalog :=
  if c.sets.contains set.name then .error (.duplicateSetName set.name)
  else .ok ⟨c.sets.insert set.name set⟩

def lookup (c : Catalog) (name : String) : Except SchemaError AttributeSet :=
  match c.sets.get? name with
  | some set => .ok set
  | none => .error (.unknownAttributeSet name)

/-- The sets with these names, in the order of the names. -/
def lookupAll (c : Catalog) : List String → Except SchemaError (List AttributeSet)
  | [] => .ok []
  | name :: names => do
    let set ← c.lookup name
    let sets ← c.lookupAll names
    .ok (set :: sets)

end Catalog

/-! ## Component schemas -/

/-- A kind of component. Included sets come first, and no two attributes share a name. -/
structure ComponentSchema where
  kind : String
  description : String
  included : List AttributeSet
  own : List Attribute
  nodup_names : ((included.flatMap AttributeSet.attributes ++ own).map Attribute.name).Nodup
deriving DecidableEq

namespace ComponentSchema

def attributes (s : ComponentSchema) : List Attribute :=
  s.included.flatMap AttributeSet.attributes ++ s.own

def attribute? (s : ComponentSchema) (name : String) : Option Attribute :=
  s.attributes.find? (·.name = name)

/-- The included set that declares an attribute. -/
def origin? (s : ComponentSchema) (name : String) : Option String :=
  (s.included.find? fun set => (set.attribute? name).isSome).map AttributeSet.name

/-- What every component of this kind has to assign. -/
def requiredAttributes (s : ComponentSchema) : List Attribute :=
  s.attributes.filter Attribute.mustBeAssigned

def claims (included : List AttributeSet) (own : List Attribute) : List (String × Origin) :=
  included.flatMap (fun set => AttributeSet.claims (.set set.name) set.attributes)
    ++ AttributeSet.claims .own own

theorem fst_claims (included : List AttributeSet) (own : List Attribute) :
    (claims included own).map Prod.fst =
      (included.flatMap AttributeSet.attributes ++ own).map Attribute.name := by
  simp [claims, List.map_flatMap, AttributeSet.fst_claims]

def resolve (kind description : String) (included : List AttributeSet) (own : List Attribute) :
    Except SchemaError ComponentSchema :=
  match h : firstClash? [] (claims included own) with
  | some (clash, first, second) =>
    .error (.duplicateAttributeName clash (.component kind) first second)
  | none =>
    .ok ⟨kind, description, included, own, by
      have := (nodup_of_firstClash?_eq_none h).1
      rwa [fst_claims] at this⟩

end ComponentSchema

/-! ## Registries -/

structure Registry where
  catalog : Catalog
  components : NameMap ComponentSchema
  /-- What the schema calls itself. -/
  name : Option String

namespace Registry

def ofCatalog (catalog : Catalog) (name : Option String) : Registry := ⟨catalog, .empty, name⟩

def empty : Registry := ofCatalog .empty none

def schema? (r : Registry) (kind : String) : Option ComponentSchema := r.components.get? kind

def schemaFor (r : Registry) (kind : String) : Except SchemaError ComponentSchema :=
  match r.schema? kind with
  | some schema => .ok schema
  | none => .error (.unknownComponentKind kind)

/-- The kinds in the order of their names. -/
def kinds (r : Registry) : List String := r.components.names

/-- Works out the schema of a kind that is new. -/
def resolve (r : Registry) (kind description : String) (includes : List String)
    (own : List Attribute) : Except SchemaError ComponentSchema :=
  if r.components.contains kind then .error (.duplicateComponentKind kind)
  else do
    let included ← r.catalog.lookupAll includes
    ComponentSchema.resolve kind description included own

/-- Takes in a kind that is new. -/
def register (r : Registry) (kind description : String) (includes : List String)
    (own : List Attribute) : Except SchemaError Registry := do
  let schema ← r.resolve kind description includes own
  .ok { r with components := r.components.insert kind schema }

end Registry

end UiMarkup
