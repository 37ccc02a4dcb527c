import UiMarkup.Proofs.Check.Outcome
import UiMarkup.Proofs.Check.Values

/-!
# What is checked is well typed

A component that the validator lets through has only values of the types that
its schema declares, and a value for everything that its schema requires.
-/

namespace UiMarkup

/-! ## Typed and complete components -/

namespace Component

mutual

/-- A component and all below it, each in front of its children. -/
def preorder : Component → List Component
  | ⟨kind, styleClass, attributes, children⟩ =>
    ⟨kind, styleClass, attributes, children⟩ :: preorderAll children

def preorderAll : List Component → List Component
  | [] => []
  | c :: cs => c.preorder ++ preorderAll cs

end

/-- `name` is declared, and its values are of the type of `w`. -/
def Fits (schema : ComponentSchema) (name : String) (w : Value) : Prop :=
  ∃ a, schema.attribute? name = some a ∧ w.type = a.type

instance (schema : ComponentSchema) (name : String) (w : Value) : Decidable (Fits schema name w) :=
  decidable_of_iff ((schema.attribute? name).map Attribute.type = some w.type) <| by
    simp [Fits, eq_comm]

structure Conforms (schema : ComponentSchema) (c : Component) : Prop where
  typed : ∀ entry ∈ c.attributes.entries, Fits schema entry.1 entry.2
  complete : ∀ a ∈ schema.attributes, a.required → ∃ w, c.valueOrDefault a.name schema = some w
  valueOrDefault : ∀ name w, c.valueOrDefault name schema = some w → Fits schema name w

theorem valueOrDefault_eq_some_iff {c : Component} {name : String} {schema : ComponentSchema}
    {w : Value} : c.valueOrDefault name schema = some w ↔
      c.attributes.get? name = some w ∨ c.attributes.get? name = none ∧
        ∃ a, schema.attribute? name = some a ∧ a.defaultValue = some w := by
  unfold valueOrDefault
  cases c.attributes.get? name with
  | some _ => simp
  | none => cases schema.attribute? name <;> simp

theorem exists_valueOrDefault {c : Component} {schema : ComponentSchema} {a : Attribute}
    (ha : a ∈ schema.attributes) (h : a.defaultValue = none → c.attributes.contains a.name) :
    ∃ w, c.valueOrDefault a.name schema = some w := by
  cases hget : c.attributes.get? a.name with
  | some w => exact ⟨w, valueOrDefault_eq_some_iff.mpr (.inl hget)⟩
  | none =>
    cases hdefault : a.defaultValue with
    | some w =>
      have hdeclared := ComponentSchema.attribute?_of_mem ha
      exact ⟨w, valueOrDefault_eq_some_iff.mpr (.inr ⟨hget, a, hdeclared, hdefault⟩)⟩
    | none =>
      obtain ⟨w, hw⟩ := NameMap.contains_iff.mp (h hdefault)
      rw [hget] at hw
      contradiction

end Component

namespace Validator

open Component (Fits Conforms)

variable {v : Validator} {schema : ComponentSchema} {d : Declaration}

/-! ## Values -/

theorem fits_of_mem_assignedValues {name : String} {w : Value}
    (h : (name, w) ∈ d.assignedValues schema) : Fits schema name w := by
  obtain ⟨a, -, rfl, hresolve⟩ := ComponentSchema.mem_assignedValues.mp h
  obtain ⟨declared, hdeclared, hparse⟩ := ComponentSchema.resolve?_eq_ok_iff.mp hresolve
  exact ⟨declared, hdeclared, AttributeType.type_of_parse hparse⟩

theorem fits_of_mem_styleValues {name : String} {w : Value}
    (h : (name, w) ∈ v.styleValues schema d) : Fits schema name w := by
  obtain ⟨_, a, -, -, hdeclared, htype⟩ := mem_styleValues.mp h
  exact ⟨a, hdeclared, htype.symm⟩

theorem fits_of_get?_attributes {name : String} {w : Value}
    (h : (v.attributes schema d).get? name = some w) : Fits schema name w := by
  rcases get?_attributes h with h | h
  · exact fits_of_mem_assignedValues h
  · exact fits_of_mem_styleValues h

/-- A default has the declared type because no attribute can be made with another one. -/
theorem fits_of_default {name : String} {a : Attribute} {w : Value}
    (hdeclared : schema.attribute? name = some a) (hdefault : a.defaultValue = some w) :
    Fits schema name w :=
  ⟨a, hdeclared, a.type_defaultValue w hdefault⟩

/-! ## One component -/

/-- Where all assignments are right, each of them gives a value. -/
theorem contains_of_assigns {name : String} (hright : d.assignmentErrors schema = [])
    (h : d.assigns name) : (v.attributes schema d).contains name := by
  obtain ⟨a, ha, rfl⟩ := assigns_iff.mp h
  rw [Declaration.assignmentErrors, List.filterMap_eq_nil_iff] at hright
  have hresolve := hright a ha
  cases hresult : schema.resolve? a with
  | error e =>
    rw [hresult] at hresolve
    simp at hresolve
  | ok w =>
    have hmem := ComponentSchema.mem_assignedValues.mpr ⟨a, ha, rfl, hresult⟩
    exact contains_attributes.mpr (.inl (List.mem_map.mpr ⟨_, hmem, rfl⟩))

theorem contains_of_mustBeAssigned {a : Attribute} (ha : a ∈ schema.attributes)
    (hmust : a.mustBeAssigned) (hright : d.assignmentErrors schema = [])
    (hmissing : v.missing schema d = []) : (v.attributes schema d).contains a.name := by
  rw [missing, List.filter_eq_nil_iff] at hmissing
  have hpresent := hmissing a (List.mem_filter.mpr ⟨ha, hmust⟩)
  cases hassigns : d.assigns a.name with
  | true => exact contains_of_assigns hright hassigns
  | false => simpa [hassigns] using hpresent

theorem kind_component (v : Validator) (d : Declaration) : (v.component d).kind = d.kindName := by
  cases d
  rfl

theorem attributes_component (v : Validator) (d : Declaration) :
    (v.component d).attributes = v.attributesAt d := by
  cases d
  rfl

theorem attributes_component_of_schema (hschema : v.registry.schema? d.kindName = some schema) :
    (v.component d).attributes = v.attributes schema d := by
  rw [attributes_component, attributesAt, hschema]

theorem conforms_of_errorsAt (h : v.errorsAt d = []) :
    ∃ schema, v.registry.schema? (v.component d).kind = some schema ∧
      Conforms schema (v.component d) := by
  rw [kind_component]
  obtain ⟨schema, hschema, hright, hmissing⟩ := schema_of_errorsAt h
  have hattributes := attributes_component_of_schema hschema
  refine ⟨schema, hschema, ?_, ?_, ?_⟩
  · rintro ⟨name, w⟩ hentry
    rw [hattributes] at hentry
    exact fits_of_get?_attributes (NameMap.get?_eq_some_iff.mpr hentry)
  · intro a ha hrequired
    refine Component.exists_valueOrDefault ha fun hdefault => ?_
    have hmust : a.mustBeAssigned := by simp [Attribute.mustBeAssigned, hrequired, hdefault]
    rw [hattributes]
    exact contains_of_mustBeAssigned ha hmust hright hmissing
  · intro name w hvalue
    rw [Component.valueOrDefault_eq_some_iff, hattributes] at hvalue
    rcases hvalue with hvalue | ⟨-, a, hdeclared, hdefault⟩
    · exact fits_of_get?_attributes hvalue
    · exact fits_of_default hdeclared hdefault

/-! ## All components -/

mutual

theorem preorder_component :
    ∀ d : Declaration, (v.component d).preorder = d.preorder.map v.component
  | ⟨kind, styleClass, assignments, children, span⟩ => by
    rw [component, Component.preorder, Declaration.preorder, List.map_cons, component,
      preorderAll_components children]

theorem preorderAll_components : ∀ ds : List Declaration,
    Component.preorderAll (v.components ds) = (Declaration.preorderAll ds).map v.component
  | [] => rfl
  | d :: ds => by
    rw [components, Component.preorderAll, Declaration.preorderAll, List.map_append,
      preorder_component d, preorderAll_components ds]

end

theorem conforms_of_errors {ds : List Declaration} (h : v.errors ds = []) :
    ∀ c ∈ Component.preorderAll (v.components ds),
      ∃ schema, v.registry.schema? c.kind = some schema ∧ Conforms schema c := by
  rw [preorderAll_components]
  intro c hc
  obtain ⟨d, hd, rfl⟩ := List.mem_map.mp hc
  rw [errors, List.flatMap_eq_nil_iff] at h
  exact conforms_of_errorsAt (h d hd)

theorem validate_eq_ok_iff {ds : List Declaration} {cs : List Component} :
    v.validate ds = .ok cs ↔ v.errors ds = [] ∧ cs = v.components ds := by
  rw [validate_eq_settle, settle_eq_ok_iff]

/-- **What is checked is well typed and complete**, at every depth. -/
theorem conforms_of_validateDocument (v : Validator) (doc : Document) (checked : CheckedDocument)
    (h : v.validateDocument doc = .ok checked) :
    ∀ c ∈ Component.preorderAll checked.components,
      ∃ schema, v.registry.schema? c.kind = some schema ∧ Conforms schema c := by
  obtain ⟨cs, hcs, rfl⟩ := map_eq_ok_iff.mp h
  obtain ⟨herrors, rfl⟩ := validate_eq_ok_iff.mp hcs
  exact conforms_of_errors herrors

/-- One required attribute is assigned, and the other one has a default. -/
theorem conforms_button :
    let text : Attribute := .plain "text" .string "" true
    let rank : Attribute := ⟨"rank", .integer, "", true, some (.integer 1), by simp [Value.type]⟩
    let button : ComponentSchema := ⟨"button", "", [], [text, rank], by decide⟩
    let v : Validator := ⟨⟨.empty, NameMap.empty.insert "button" button, none⟩, none⟩
    let doc : Document := ⟨[⟨⟨"button", 0, 6⟩, none, [⟨⟨"text", 9, 13⟩, ⟨"\"OK\"", 15, 19⟩, 9, 20⟩],
      [], 0, 22⟩]⟩
    ∃ checked, v.validateDocument doc = .ok checked ∧
      ∀ c ∈ Component.preorderAll checked.components,
        ∃ schema, v.registry.schema? c.kind = some schema ∧ Conforms schema c := by
  intro text rank button v doc
  have herrors : v.errors doc.roots = [] := by decide +kernel
  have hchecked : v.validateDocument doc = .ok ⟨v.components doc.roots⟩ :=
    map_eq_ok_iff.mpr ⟨_, validate_eq_ok_iff.mpr ⟨herrors, rfl⟩, rfl⟩
  exact ⟨_, hchecked, conforms_of_validateDocument v doc _ hchecked⟩

end Validator

end UiMarkup
