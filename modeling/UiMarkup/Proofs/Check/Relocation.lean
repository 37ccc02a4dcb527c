import UiMarkup.Check.Validator
import UiMarkup.Proofs.Check.Order
import UiMarkup.Proofs.Declaration.Relocation

/-!
# Checking at other places

Declarations that are moved make the same components and the same rules. Their
errors are moved with them.
-/

namespace UiMarkup

namespace Relocation

variable (m : Relocation)

def validationError (e : ValidationError) : ValidationError := ⟨m.span e.span, e.cause⟩

/-! ## Parts of a declaration -/

@[simp] theorem kindName_declaration (d : Declaration) :
    (m.declaration d).kindName = d.kindName := by
  cases d
  rfl

@[simp] theorem className_declaration (d : Declaration) :
    (m.declaration d).className = d.className := by
  obtain ⟨kind, cls, as, children, span⟩ := d
  cases cls <;> rfl

@[simp] theorem assignments_declaration (d : Declaration) :
    (m.declaration d).assignments = d.assignments.map m.assignment := by
  cases d
  rfl

@[simp] theorem span_kind_declaration (d : Declaration) :
    (m.declaration d).kind.span = m.span d.kind.span := by
  cases d
  rfl

mutual

theorem preorder_declaration :
    ∀ d : Declaration, (m.declaration d).preorder = d.preorder.map m.declaration
  | ⟨kind, cls, as, children, span⟩ => by
    rw [declaration, Declaration.preorder, Declaration.preorder, List.map_cons, declaration,
      preorderAll_declarations children]

theorem preorderAll_declarations : ∀ ds : List Declaration,
    Declaration.preorderAll (m.declarations ds) = (Declaration.preorderAll ds).map m.declaration
  | [] => rfl
  | d :: ds => by
    rw [declarations, Declaration.preorderAll, Declaration.preorderAll, List.map_append,
      preorder_declaration d, preorderAll_declarations ds]

end

/-! ## Assignments -/

theorem resolve?_assignment (schema : ComponentSchema) (a : Assignment) :
    schema.resolve? (m.assignment a) = (schema.resolve? a).mapError m.validationError := by
  simp only [ComponentSchema.resolve?, assignment, placed]
  cases schema.attribute? a.name.value with
  | none => rfl
  | some declared =>
    simp only
    cases declared.type.parse a.value.value <;> rfl

theorem assignedValues_declaration (schema : ComponentSchema) (d : Declaration) :
    (m.declaration d).assignedValues schema = d.assignedValues schema := by
  unfold Declaration.assignedValues
  rw [assignments_declaration, List.filterMap_map]
  congr 1
  funext a
  rw [Function.comp_apply, resolve?_assignment]
  cases schema.resolve? a <;> rfl

theorem assignmentErrors_declaration (schema : ComponentSchema) (d : Declaration) :
    (m.declaration d).assignmentErrors schema =
      (d.assignmentErrors schema).map m.validationError := by
  unfold Declaration.assignmentErrors
  rw [assignments_declaration, List.filterMap_map, List.map_filterMap]
  congr 1
  funext a
  rw [Function.comp_apply, resolve?_assignment]
  cases schema.resolve? a <;> rfl

theorem assigns_declaration (d : Declaration) (name : String) :
    (m.declaration d).assigns name = d.assigns name := by
  unfold Declaration.assigns
  rw [assignments_declaration, List.any_map]
  rfl

/-! ## Declarations -/

section validator

variable (v : Validator)

theorem attributes_declaration (schema : ComponentSchema) (d : Declaration) :
    v.attributes schema (m.declaration d) = v.attributes schema d := by
  simp only [Validator.attributes, Validator.styleValues, kindName_declaration,
    className_declaration, assignedValues_declaration]

theorem missing_declaration (schema : ComponentSchema) (d : Declaration) :
    v.missing schema (m.declaration d) = v.missing schema d := by
  simp only [Validator.missing, attributes_declaration, assigns_declaration]

theorem errorsAt_declaration (d : Declaration) :
    v.errorsAt (m.declaration d) = (v.errorsAt d).map m.validationError := by
  simp only [Validator.errorsAt, kindName_declaration, span_kind_declaration]
  cases v.registry.schema? d.kindName with
  | none => rfl
  | some schema =>
    simp only [List.map_append, assignmentErrors_declaration, missing_declaration, List.map_map]
    rfl

theorem errors_declarations (ds : List Declaration) :
    v.errors (m.declarations ds) = (v.errors ds).map m.validationError := by
  unfold Validator.errors
  rw [preorderAll_declarations, List.flatMap_map, List.map_flatMap]
  simp only [errorsAt_declaration]

theorem attributesAt_declaration (d : Declaration) :
    v.attributesAt (m.declaration d) = v.attributesAt d := by
  simp only [Validator.attributesAt, kindName_declaration, attributes_declaration]

mutual

theorem component_declaration : ∀ d : Declaration, v.component (m.declaration d) = v.component d
  | ⟨kind, cls, as, children, span⟩ => by
    have hattributes := m.attributesAt_declaration v ⟨kind, cls, as, children, span⟩
    have hclass := m.className_declaration ⟨kind, cls, as, children, span⟩
    rw [declaration] at hattributes hclass ⊢
    rw [Validator.component, Validator.component, hattributes, components_declarations children]
    exact congrArg (Component.mk kind.value · _ _) hclass

theorem components_declarations :
    ∀ ds : List Declaration, v.components (m.declarations ds) = v.components ds
  | [] => rfl
  | d :: ds => by
    rw [declarations, Validator.components, Validator.components, component_declaration d,
      components_declarations ds]

end

end validator

/-! ## Order -/

section order

variable {m}

/-- A move that keeps the order of the starts keeps the order of the errors. -/
theorem sortByStart_validationError (h : ∀ i j, m.start i ≤ m.start j ↔ i ≤ j)
    (errors : List ValidationError) :
    ValidationError.sortByStart (errors.map m.validationError) =
      (ValidationError.sortByStart errors).map m.validationError := by
  rw [ValidationError.sortByStart_eq, ValidationError.sortByStart_eq]
  exact (List.map_insertionSort _ _ _ _ fun e _ f _ => (h e.span.start f.span.start).symm).symm

end order

/-! ## Rules -/

section rules

variable (r : Registry)

theorem ruleErrors_declaration (d : Declaration) :
    Stylesheet.ruleErrors r (m.declaration d) =
      (Stylesheet.ruleErrors r d).map m.validationError := by
  unfold Stylesheet.ruleErrors
  rw [kindName_declaration, span_kind_declaration]
  cases r.schema? d.kindName with
  | none => rfl
  | some schema => exact m.assignmentErrors_declaration schema d

theorem ruleErrors_declarations (ds : List Declaration) :
    (Declaration.preorderAll (m.declarations ds)).flatMap (Stylesheet.ruleErrors r) =
      ((Declaration.preorderAll ds).flatMap (Stylesheet.ruleErrors r)).map m.validationError := by
  rw [preorderAll_declarations, List.flatMap_map, List.map_flatMap]
  simp only [ruleErrors_declaration]

theorem addRule_declaration (s : Stylesheet) (d : Declaration) :
    Stylesheet.addRule r s (m.declaration d) = Stylesheet.addRule r s d := by
  unfold Stylesheet.addRule
  simp only [kindName_declaration, className_declaration, assignedValues_declaration]

theorem rules_declarations (s : Stylesheet) (ds : List Declaration) :
    (Declaration.preorderAll (m.declarations ds)).foldl (Stylesheet.addRule r) s =
      (Declaration.preorderAll ds).foldl (Stylesheet.addRule r) s := by
  rw [preorderAll_declarations, List.foldl_map]
  simp only [addRule_declaration]

end rules

end Relocation

end UiMarkup
