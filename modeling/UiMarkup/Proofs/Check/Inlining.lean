import UiMarkup.Proofs.Check.Outcome
import UiMarkup.Proofs.Check.WriteBack

/-!
# A stylesheet can be inlined

What a stylesheet says about a declaration can as well be written in it, in
front of everything that it assigns itself. Then no stylesheet is needed. The
values of a stylesheet that the schema has no use for are left out.
-/

namespace UiMarkup

open Component (Fits)
open Declaration (preorderAll)

/-! ## Declarations that say what a stylesheet says -/

namespace Stylesheet

/-- The values for a declaration that a registry has use for. -/
def usableFor (r : Registry) (sheet : Stylesheet) (d : Declaration) : List (String × Value) :=
  match r.schema? d.kindName with
  | none => []
  | some schema =>
    (sheet.valuesFor d.kindName d.className).entries.filter fun e => Fits schema e.1 e.2

section inlined

variable (r : Registry) (sheet : Stylesheet) (write : Declaration → String × Value → Assignment)

/-- A declaration of the same kind that assigns what the stylesheet says, and nothing else. -/
def said (d : Declaration) : Declaration :=
  { d with assignments := (sheet.usableFor r d).map (write d) }

mutual

/-- Every declaration assigns first what the stylesheet says. -/
def inlined : Declaration → Declaration
  | ⟨kind, styleClass, assignments, children, span⟩ =>
    ⟨kind, styleClass,
      (sheet.said r write ⟨kind, styleClass, assignments, children, span⟩).assignments
        ++ assignments,
      inlinedAll children, span⟩

def inlinedAll : List Declaration → List Declaration
  | [] => []
  | d :: ds => inlined d :: inlinedAll ds

end

theorem kind_inlined (d : Declaration) : (sheet.inlined r write d).kind = d.kind := by
  cases d
  rfl

theorem kindName_inlined (d : Declaration) : (sheet.inlined r write d).kindName = d.kindName :=
  congrArg Placed.value (sheet.kind_inlined r write d)

theorem assignments_inlined (d : Declaration) :
    (sheet.inlined r write d).assignments =
      (sheet.said r write d).assignments ++ d.assignments := by
  cases d
  rfl

theorem assigns_inlined (d : Declaration) (name : String) :
    (sheet.inlined r write d).assigns name =
      ((sheet.said r write d).assigns name || d.assigns name) := by
  unfold Declaration.assigns
  rw [assignments_inlined, List.any_append]

theorem assignedValues_inlined (schema : ComponentSchema) (d : Declaration) :
    (sheet.inlined r write d).assignedValues schema =
      (sheet.said r write d).assignedValues schema ++ d.assignedValues schema := by
  unfold Declaration.assignedValues
  rw [assignments_inlined, List.filterMap_append]

theorem assignmentErrors_inlined (schema : ComponentSchema) (d : Declaration) :
    (sheet.inlined r write d).assignmentErrors schema =
      (sheet.said r write d).assignmentErrors schema ++ d.assignmentErrors schema := by
  unfold Declaration.assignmentErrors
  rw [assignments_inlined, List.filterMap_append]

mutual

theorem preorder_inlined :
    ∀ d : Declaration, (sheet.inlined r write d).preorder = d.preorder.map (sheet.inlined r write)
  | ⟨kind, styleClass, assignments, children, span⟩ => by
    rw [inlined, Declaration.preorder, Declaration.preorder, List.map_cons, inlined,
      preorderAll_inlinedAll children]

theorem preorderAll_inlinedAll : ∀ ds : List Declaration,
    preorderAll (sheet.inlinedAll r write ds) = (preorderAll ds).map (sheet.inlined r write)
  | [] => rfl
  | d :: ds => by
    rw [inlinedAll, preorderAll, preorderAll, List.map_append, preorder_inlined d,
      preorderAll_inlinedAll ds]

end

end inlined

end Stylesheet

/-! ## Checking with and without the stylesheet -/

namespace Validator

open Stylesheet (usableFor said inlined inlinedAll)

section checked

variable {r : Registry} {sheet : Stylesheet} {write : Declaration → String × Value → Assignment}
  {schema : ComponentSchema} {d : Declaration}

theorem usableFor_eq_styleValues (hschema : r.schema? d.kindName = some schema) :
    sheet.usableFor r d = (Validator.mk r (some sheet)).styleValues schema d := by
  simp only [usableFor, hschema, styleValues]
  apply List.filter_congr
  intro e _
  rw [decide_eq_decide]
  simp [Fits, eq_comm]

/-- A stylesheet that was read, against whatever registry, and its values as they are written. -/
structure Inlinable (sheet : Stylesheet) (write : Declaration → String × Value → Assignment) :
    Prop where
  read : ∃ r source, Stylesheet.parse r source = .ok sheet
  writes : ∀ d e, (write d e).Writes e

theorem Inlinable.fits_and_readable (h : Inlinable sheet write)
    (hschema : r.schema? d.kindName = some schema) :
    ∀ e ∈ sheet.usableFor r d, Fits schema e.1 e.2 ∧ e.2.Readable := by
  obtain ⟨r', source, hparse⟩ := h.read
  intro e he
  unfold usableFor at he
  rw [hschema] at he
  obtain ⟨hentry, hfits⟩ := List.mem_filter.mp he
  have hreadable := Stylesheet.readable_valuesFor hparse (NameMap.get?_eq_some_iff.mpr hentry)
  exact ⟨of_decide_eq_true hfits, hreadable.2⟩

theorem assignedValues_said (h : Inlinable sheet write)
    (hschema : r.schema? d.kindName = some schema) :
    (sheet.said r write d).assignedValues schema = sheet.usableFor r d :=
  Declaration.assignedValues_written rfl (fun e _ => h.writes d e) (h.fits_and_readable hschema)

theorem assignmentErrors_said (h : Inlinable sheet write)
    (hschema : r.schema? d.kindName = some schema) :
    (sheet.said r write d).assignmentErrors schema = [] :=
  Declaration.assignmentErrors_written rfl (fun e _ => h.writes d e) (h.fits_and_readable hschema)

/-- Written in front, the values of the stylesheet lose against the same assignments. -/
theorem attributes_inlined (h : Inlinable sheet write)
    (hschema : r.schema? d.kindName = some schema) :
    (Validator.mk r none).attributes schema (sheet.inlined r write d) =
      (Validator.mk r (some sheet)).attributes schema d := by
  have hnone : (Validator.mk r none).styleValues schema (sheet.inlined r write d) = [] := rfl
  have hempty : NameMap.empty.insertAll ([] : List (String × Value)) = .empty := rfl
  unfold attributes
  rw [hnone, hempty, Stylesheet.assignedValues_inlined, NameMap.insertAll_append,
    assignedValues_said h hschema, usableFor_eq_styleValues hschema]

theorem contains_of_assigns_said (h : Inlinable sheet write)
    (hschema : r.schema? d.kindName = some schema) {name : String}
    (hsaid : (sheet.said r write d).assigns name) :
    ((Validator.mk r (some sheet)).attributes schema d).contains name := by
  have hcontains : ((Validator.mk r none).attributes schema (sheet.said r write d)).contains name :=
    contains_of_assigns (assignmentErrors_said h hschema) hsaid
  rw [contains_attributes, assignedValues_said h hschema] at hcontains
  rw [contains_attributes, ← usableFor_eq_styleValues hschema]
  exact .inr (hcontains.resolve_right List.not_mem_nil)

/-- What the stylesheet says was not missing before. -/
theorem missing_inlined (h : Inlinable sheet write)
    (hschema : r.schema? d.kindName = some schema) :
    (Validator.mk r none).missing schema (sheet.inlined r write d) =
      (Validator.mk r (some sheet)).missing schema d := by
  unfold missing
  apply List.filter_congr
  intro a _
  rw [attributes_inlined h hschema, Stylesheet.assigns_inlined]
  cases hsaid : (sheet.said r write d).assigns a.name with
  | false => rw [Bool.false_or]
  | true => rw [contains_of_assigns_said h hschema hsaid, Bool.not_true, Bool.false_and,
      Bool.false_and]

theorem errorsAt_inlined (h : Inlinable sheet write) (d : Declaration) :
    (Validator.mk r none).errorsAt (sheet.inlined r write d) =
      (Validator.mk r (some sheet)).errorsAt d := by
  unfold errorsAt
  rw [Stylesheet.kindName_inlined, Stylesheet.kind_inlined]
  cases hschema : r.schema? d.kindName with
  | none => rfl
  | some schema =>
    simp only [missing_inlined h hschema, Stylesheet.assignmentErrors_inlined,
      assignmentErrors_said h hschema, List.nil_append]

theorem errors_inlinedAll (h : Inlinable sheet write) (ds : List Declaration) :
    (Validator.mk r none).errors (sheet.inlinedAll r write ds) =
      (Validator.mk r (some sheet)).errors ds := by
  unfold errors
  rw [Stylesheet.preorderAll_inlinedAll, List.flatMap_map]
  exact List.flatMap_congr fun d _ => errorsAt_inlined h d

theorem attributesAt_inlined (h : Inlinable sheet write) (d : Declaration) :
    (Validator.mk r none).attributesAt (sheet.inlined r write d) =
      (Validator.mk r (some sheet)).attributesAt d := by
  unfold attributesAt
  rw [Stylesheet.kindName_inlined]
  cases hschema : r.schema? d.kindName with
  | none => rfl
  | some schema => exact attributes_inlined h hschema

mutual

theorem component_inlined (h : Inlinable sheet write) : ∀ d : Declaration,
    (Validator.mk r none).component (sheet.inlined r write d) =
      (Validator.mk r (some sheet)).component d
  | ⟨kind, styleClass, assignments, children, span⟩ => by
    have hattributes :=
      attributesAt_inlined (r := r) h ⟨kind, styleClass, assignments, children, span⟩
    rw [inlined] at hattributes ⊢
    rw [component, component, hattributes, components_inlinedAll h children]

theorem components_inlinedAll (h : Inlinable sheet write) : ∀ ds : List Declaration,
    (Validator.mk r none).components (sheet.inlinedAll r write ds) =
      (Validator.mk r (some sheet)).components ds
  | [] => rfl
  | d :: ds => by
    rw [inlinedAll, components, components, component_inlined h d, components_inlinedAll h ds]

end

end checked

/-- **A stylesheet can be inlined.** Declarations that assign first what a stylesheet says have the
answer that they have with the stylesheet: the same components, or the same errors. The stylesheet
may have been read against another registry. -/
theorem validate_inlined (r r' : Registry) (source : String) (sheet : Stylesheet)
    (hsheet : Stylesheet.parse r' source = .ok sheet)
    (write : Declaration → String × Value → Assignment) (hwrite : ∀ d e, (write d e).Writes e)
    (ds : List Declaration) :
    (Validator.mk r none).validate (sheet.inlinedAll r write ds) =
      (Validator.mk r (some sheet)).validate ds := by
  have h : Inlinable sheet write := ⟨⟨r', source, hsheet⟩, hwrite⟩
  rw [validate_eq_settle, validate_eq_settle, errors_inlinedAll h, components_inlinedAll h]

/-- A color where the other schema has text is not used. The inner box overrides its text. -/
theorem validate_inlined_box :
    let text : Attribute := .plain "text" .string "" true
    let box (type : AttributeType) : ComponentSchema :=
      ⟨"box", "", [], [text, .plain "tone" type "" false], by cases type <;> decide⟩
    let registry (type : AttributeType) : Registry :=
      ⟨.empty, NameMap.empty.insert "box" (box type), none⟩
    let r := registry .string
    let source := "box \x7b text: \"Go\"; tone: red; \x7d"
    let ok : Assignment := ⟨⟨"text", ⟨12, 16⟩⟩, ⟨"\"OK\"", ⟨18, 22⟩⟩, ⟨12, 23⟩⟩
    let inner : Declaration := ⟨⟨"box", ⟨6, 9⟩⟩, none, [ok], [], ⟨6, 25⟩⟩
    let outer : Declaration := ⟨⟨"box", ⟨0, 3⟩⟩, none, [], [inner], ⟨0, 27⟩⟩
    let write : Declaration → String × Value → Assignment := fun _ => Component.assignment
    ∃ sheet, Stylesheet.parse (registry .color) source = .ok sheet ∧
      (Document.mk (sheet.inlinedAll r write [outer])).print =
        "box \x7b\n    text: \"Go\";\n" ++
        "    box \x7b\n        text: \"Go\";\n        text: \"OK\";\n    \x7d\n\x7d\n" ∧
      (Validator.mk r none).validate (sheet.inlinedAll r write [outer]) =
        (Validator.mk r (some sheet)).validate [outer] := by
  intro text box registry r source ok inner outer write
  let go : Assignment := ⟨⟨"text", ⟨6, 10⟩⟩, ⟨"\"Go\"", ⟨12, 16⟩⟩, ⟨6, 17⟩⟩
  let red : Assignment := ⟨⟨"tone", ⟨18, 22⟩⟩, ⟨"red", ⟨24, 27⟩⟩, ⟨18, 28⟩⟩
  let rule : Declaration := ⟨⟨"box", ⟨0, 3⟩⟩, none, [go, red], [], ⟨0, 30⟩⟩
  let sheet : Stylesheet := Stylesheet.addRule (registry .color) .empty rule
  have hrule : Document.parse source defaultMaxDepth = .ok ⟨[rule]⟩ := by cbv
  have hright : ∀ d ∈ preorderAll [rule], Stylesheet.ruleErrors (registry .color) d = [] := by
    decide +kernel
  have hsheet : Stylesheet.parse (registry .color) source = .ok sheet :=
    Stylesheet.parse_eq_ok_iff_rules.mpr
      ⟨_, hrule, Stylesheet.ofDeclarations_eq_ok_iff.mpr ⟨hright, rfl⟩⟩
  refine ⟨sheet, hsheet, by decide +kernel, ?_⟩
  exact validate_inlined r _ source sheet hsheet write (fun _ e => Component.writes_assignment e) _

end Validator

end UiMarkup
