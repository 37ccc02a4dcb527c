import UiMarkup.Schema.Error
import UiMarkup.Value.Literal

/-!
# Attributes and sets of them
-/

namespace UiMarkup

structure Attribute where
  name : String
  type : AttributeType
  description : String
  required : Bool
  /-- The value where nothing is assigned. -/
  defaultValue : Option Value
  type_defaultValue : ∀ v ∈ defaultValue, v.type = type
deriving DecidableEq

namespace Attribute

/-- Declares an attribute without a default. -/
def plain (name : String) (type : AttributeType) (description : String) (required : Bool) :
    Attribute :=
  ⟨name, type, description, required, none, by simp⟩

/-- Gives an attribute the default that a literal of its type writes. -/
def withDefault (a : Attribute) (raw : String) : Except SchemaError Attribute :=
  match h : a.type.parse raw with
  | .error _ => .error (.invalidDefault a.name a.type raw)
  | .ok v =>
    .ok { a with
      defaultValue := some v
      type_defaultValue := by
        rintro w ⟨⟩
        exact AttributeType.type_of_parse h }

/-- A default stands in for a required attribute too. -/
def mustBeAssigned (a : Attribute) : Bool := a.required && a.defaultValue.isNone

end Attribute

/-! ## Names that clash -/

/-- The first name that is declared again, with the origins of the two declarations. -/
def firstClash? (seen : List (String × Origin)) :
    List (String × Origin) → Option (String × Origin × Origin)
  | [] => none
  | (name, origin) :: rest =>
    match seen.lookup name with
    | some first => some (name, first, origin)
    | none => firstClash? ((name, origin) :: seen) rest

theorem lookup_eq_none_iff {α : Type} {name : String} {entries : List (String × α)} :
    entries.lookup name = none ↔ name ∉ entries.map Prod.fst := by
  induction entries with
  | nil => simp
  | cons e es ih =>
    obtain ⟨n, v⟩ := e
    by_cases h : name = n
    · simp [h]
    · have : (name == n) = false := by simpa using h
      simp [List.lookup_cons, this, ih, h]

theorem nodup_of_firstClash?_eq_none {seen claims : List (String × Origin)}
    (h : firstClash? seen claims = none) :
    (claims.map Prod.fst).Nodup ∧ ∀ name ∈ claims.map Prod.fst, name ∉ seen.map Prod.fst := by
  induction claims generalizing seen with
  | nil => simp
  | cons claim rest ih =>
    obtain ⟨name, origin⟩ := claim
    rw [firstClash?] at h
    split at h
    · simp at h
    next free =>
      obtain ⟨nodup, apart⟩ := ih h
      simp only [List.map_cons, List.mem_cons, not_or] at apart
      refine ⟨List.nodup_cons.2 ⟨fun again => (apart name again).1 rfl, nodup⟩, ?_⟩
      rintro n (_ | ⟨_, later⟩)
      · exact lookup_eq_none_iff.1 free
      · exact (apart n later).2

/-! ## Sets -/

/-- Attributes that components include together, each name once. -/
structure AttributeSet where
  name : String
  attributes : List Attribute
  nodup_names : (attributes.map Attribute.name).Nodup
deriving DecidableEq

namespace AttributeSet

/-- The names that the attributes take, each from one origin. -/
def claims (origin : Origin) (attributes : List Attribute) : List (String × Origin) :=
  attributes.map fun a => (a.name, origin)

theorem fst_claims (origin : Origin) (attributes : List Attribute) :
    (claims origin attributes).map Prod.fst = attributes.map Attribute.name := by
  simp [claims, Function.comp_def]

def ofList (name : String) (attributes : List Attribute) : Except SchemaError AttributeSet :=
  match h : firstClash? [] (claims (.set name) attributes) with
  | some (clash, first, second) =>
    .error (.duplicateAttributeName clash (.set name) first second)
  | none =>
    .ok ⟨name, attributes, by
      have := (nodup_of_firstClash?_eq_none h).1
      rwa [fst_claims] at this⟩

def attribute? (s : AttributeSet) (name : String) : Option Attribute :=
  s.attributes.find? (·.name = name)

end AttributeSet

end UiMarkup
