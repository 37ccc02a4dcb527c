import Mathlib.Data.List.Nodup
import UiMarkup.Check.Validator
import UiMarkup.Proofs.NameMap

/-!
# Where values come from

A value of a component was assigned in its declaration or comes from the
stylesheet. In both cases it has the type that the schema declares.
-/

namespace UiMarkup

namespace ComponentSchema

variable {schema : ComponentSchema}

theorem mem_of_attribute? {name : String} {a : Attribute} (h : schema.attribute? name = some a) :
    a ∈ schema.attributes ∧ a.name = name := by
  refine ⟨List.mem_of_find?_eq_some h, ?_⟩
  simpa using List.find?_some h

/-- Names are unique, so every attribute is found under its own. -/
theorem attribute?_of_mem {a : Attribute} (h : a ∈ schema.attributes) :
    schema.attribute? a.name = some a := by
  cases hfound : schema.attribute? a.name with
  | none => simpa using List.find?_eq_none.mp hfound a h
  | some b =>
    obtain ⟨hb, hname⟩ := mem_of_attribute? hfound
    rw [List.inj_on_of_nodup_map schema.nodup_names hb h hname]

/-! ## Assigned values -/

theorem resolve?_eq_ok_iff {a : Assignment} {w : Value} :
    schema.resolve? a = .ok w ↔
      ∃ declared, schema.attribute? a.name.value = some declared ∧
        declared.type.parse a.value.value = .ok w := by
  unfold resolve?
  cases schema.attribute? a.name.value with
  | none => simp
  | some declared => cases hparse : declared.type.parse a.value.value <;> simp [hparse]

theorem resolve?_eq_error_iff {a : Assignment} {e : ValidationError} :
    schema.resolve? a = .error e ↔
      (schema.attribute? a.name.value = none ∧
        e = ⟨a.name.span, .unknownAttribute schema.kind a.name.value⟩) ∨
      ∃ declared literal, schema.attribute? a.name.value = some declared ∧
        declared.type.parse a.value.value = .error literal ∧
        e = ⟨a.value.span, .invalidLiteral a.name.value literal⟩ := by
  unfold resolve?
  cases schema.attribute? a.name.value with
  | none => simp [eq_comm]
  | some declared => cases hparse : declared.type.parse a.value.value <;> simp [hparse, eq_comm]

theorem mem_assignedValues {d : Declaration} {name : String} {w : Value} :
    (name, w) ∈ d.assignedValues schema ↔
      ∃ a ∈ d.assignments, a.name.value = name ∧ schema.resolve? a = .ok w := by
  rw [Declaration.assignedValues, List.mem_filterMap]
  refine exists_congr fun a => and_congr_right fun _ => ?_
  cases schema.resolve? a <;> simp

theorem mem_assignmentErrors {d : Declaration} {e : ValidationError} :
    e ∈ d.assignmentErrors schema ↔ ∃ a ∈ d.assignments, schema.resolve? a = .error e := by
  rw [Declaration.assignmentErrors, List.mem_filterMap]
  refine exists_congr fun a => and_congr_right fun _ => ?_
  cases schema.resolve? a <;> simp

end ComponentSchema

namespace Validator

variable {v : Validator} {schema : ComponentSchema} {d : Declaration}

/-! ## Values of the stylesheet -/

/-- The stylesheet has a value of this type for the attribute of a declaration. -/
def Supplies (v : Validator) (d : Declaration) (name : String) (type : AttributeType) : Prop :=
  ∃ sheet w, v.stylesheet = some sheet ∧
    (sheet.valuesFor d.kindName d.className).get? name = some w ∧ w.type = type

theorem mem_styleValues {name : String} {w : Value} :
    (name, w) ∈ v.styleValues schema d ↔
      ∃ sheet a, v.stylesheet = some sheet ∧
        (sheet.valuesFor d.kindName d.className).get? name = some w ∧
        schema.attribute? name = some a ∧ a.type = w.type := by
  unfold styleValues
  cases v.stylesheet with
  | none => simp
  | some sheet => simp [NameMap.get?_eq_some_iff]

theorem mem_names_styleValues {a : Attribute} (h : a ∈ schema.attributes) :
    a.name ∈ (v.styleValues schema d).map Prod.fst ↔ v.Supplies d a.name a.type := by
  have hdeclared := ComponentSchema.attribute?_of_mem h
  constructor
  · intro hmem
    obtain ⟨⟨name, w⟩, hmem, rfl : name = a.name⟩ := List.mem_map.mp hmem
    obtain ⟨sheet, b, hsheet, hget, hb, htype⟩ := mem_styleValues.mp hmem
    obtain rfl : a = b := Option.some.inj (hdeclared.symm.trans hb)
    exact ⟨sheet, w, hsheet, hget, htype.symm⟩
  · rintro ⟨sheet, w, hsheet, hget, htype⟩
    exact List.mem_map.mpr
      ⟨_, mem_styleValues.mpr ⟨sheet, a, hsheet, hget, hdeclared, htype.symm⟩, rfl⟩

/-! ## Values of a component -/

theorem get?_attributes {name : String} {w : Value}
    (h : (v.attributes schema d).get? name = some w) :
    (name, w) ∈ d.assignedValues schema ∨ (name, w) ∈ v.styleValues schema d := by
  rcases NameMap.mem_of_get?_insertAll h with h | h
  · exact .inl h
  · rcases NameMap.mem_of_get?_insertAll h with h | h
    · exact .inr h
    · simp at h

theorem contains_attributes {name : String} :
    (v.attributes schema d).contains name ↔
      name ∈ (d.assignedValues schema).map Prod.fst ∨
        name ∈ (v.styleValues schema d).map Prod.fst := by
  rw [attributes, NameMap.contains_insertAll, NameMap.contains_insertAll]
  simp [NameMap.contains]

theorem assigns_iff {name : String} :
    d.assigns name ↔ ∃ a ∈ d.assignments, a.name.value = name := by
  simp [Declaration.assigns]

theorem assigns_of_mem_assignedValues {name : String}
    (h : name ∈ (d.assignedValues schema).map Prod.fst) : d.assigns name := by
  obtain ⟨⟨_, w⟩, hmem, rfl⟩ := List.mem_map.mp h
  obtain ⟨a, ha, hname, -⟩ := ComponentSchema.mem_assignedValues.mp hmem
  exact assigns_iff.mpr ⟨a, ha, hname⟩

/-- An attribute is absent when it is not assigned at all and the stylesheet has no value for it. -/
theorem absent_iff {a : Attribute} (h : a ∈ schema.attributes) :
    (!(v.attributes schema d).contains a.name && !d.assigns a.name) = true ↔
      (∀ b ∈ d.assignments, b.name.value ≠ a.name) ∧ ¬ v.Supplies d a.name a.type := by
  have hassigns : d.assigns a.name = false ↔ ∀ b ∈ d.assignments, b.name.value ≠ a.name := by
    rw [← Bool.not_eq_true, assigns_iff]
    simp
  rw [Bool.and_eq_true, Bool.not_eq_true', Bool.not_eq_true', ← mem_names_styleValues h, ← hassigns]
  constructor
  · rintro ⟨hcontains, hassigned⟩
    refine ⟨hassigned, fun hmem => ?_⟩
    rw [contains_attributes.mpr (.inr hmem)] at hcontains
    exact Bool.noConfusion hcontains
  · rintro ⟨hassigned, hsupplied⟩
    refine ⟨?_, hassigned⟩
    rw [← Bool.not_eq_true, contains_attributes]
    rintro (hmem | hmem)
    · rw [assigns_of_mem_assignedValues hmem] at hassigned
      exact Bool.noConfusion hassigned
    · exact hsupplied hmem

/-- A declaration without errors is of a known kind, assigns what is right, and misses nothing. -/
theorem schema_of_errorsAt (h : v.errorsAt d = []) :
    ∃ schema, v.registry.schema? d.kindName = some schema ∧ d.assignmentErrors schema = [] ∧
      v.missing schema d = [] := by
  unfold errorsAt at h
  cases hschema : v.registry.schema? d.kindName with
  | none =>
    rw [hschema] at h
    simp at h
  | some schema =>
    rw [hschema] at h
    obtain ⟨hright, hmissing⟩ := List.append_eq_nil_iff.mp h
    exact ⟨schema, rfl, hright, List.map_eq_nil_iff.mp hmissing⟩

end Validator

end UiMarkup
