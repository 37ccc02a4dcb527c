import UiMarkup.Proofs.Check.Outcome
import UiMarkup.Proofs.Check.Values

/-!
# What stylesheets and documents have in common

The same source can be read as a stylesheet and checked as a document. Both
ways find the same errors, but a stylesheet need not assign anything. So only
the missing attributes make a difference.
-/

namespace UiMarkup

open Declaration (preorderAll)
open ValidationError (sortByStart sortByStart_eq_nil_iff filter_sortByStart)

/-! ## Errors without those of missing attributes -/

namespace ValidationError

def isMissing (e : ValidationError) : Bool :=
  match e.cause with
  | .missingRequired _ _ => true
  | _ => false

def withoutMissing (errors : List ValidationError) : List ValidationError :=
  errors.filter fun e => !e.isMissing

end ValidationError

open ValidationError (withoutMissing)

theorem Declaration.withoutMissing_assignmentErrors (schema : ComponentSchema) (d : Declaration) :
    withoutMissing (d.assignmentErrors schema) = d.assignmentErrors schema := by
  apply List.filter_eq_self.mpr
  intro e he
  obtain ⟨a, -, hresolve⟩ := ComponentSchema.mem_assignmentErrors.mp he
  rcases ComponentSchema.resolve?_eq_error_iff.mp hresolve with ⟨-, rfl⟩ | ⟨_, _, -, -, rfl⟩
  · rfl
  · rfl

/-- Without what is missing, a declaration is wrong as a rule is wrong. -/
theorem Validator.withoutMissing_errorsAt (v : Validator) (d : Declaration) :
    withoutMissing (v.errorsAt d) = Stylesheet.ruleErrors v.registry d := by
  unfold errorsAt Stylesheet.ruleErrors
  cases v.registry.schema? d.kindName with
  | none => rfl
  | some schema =>
    simp only
    have hmissing : withoutMissing ((v.missing schema d).map fun a =>
        ⟨d.kind.span, .missingRequired d.kindName a.name⟩) = [] := by
      apply List.filter_eq_nil_iff.mpr
      intro e he
      obtain ⟨a, -, rfl⟩ := List.mem_map.mp he
      simp [ValidationError.isMissing]
    have happend (es fs : List ValidationError) :
        withoutMissing (es ++ fs) = withoutMissing es ++ withoutMissing fs :=
      List.filter_append es fs
    rw [happend, hmissing, List.append_nil, Declaration.withoutMissing_assignmentErrors]

theorem Validator.withoutMissing_errors (v : Validator) (ds : List Declaration) :
    withoutMissing (v.errors ds) = (preorderAll ds).flatMap (Stylesheet.ruleErrors v.registry) := by
  unfold errors withoutMissing
  rw [List.filter_flatMap]
  exact List.flatMap_congr fun d _ => v.withoutMissing_errorsAt d

/-! ## Answers -/

/-- The validation errors of an answer, and none if there is a result. -/
def reported {α : Type} : Except CheckError α → List ValidationError
  | .error (.validation errors) => errors
  | _ => []

section reported

variable {α : Type} {errors : List ValidationError} {result : α}

theorem reported_settle :
    reported ((settle errors result).mapError .validation) = sortByStart errors := by
  unfold settle
  cases errors <;> rfl

theorem reported_eq_nil_iff :
    reported ((settle errors result).mapError .validation) = [] ↔
      ∃ x, (settle errors result).mapError CheckError.validation = .ok x := by
  rw [reported_settle, sortByStart_eq_nil_iff]
  simp [mapError_eq_ok_iff, settle_eq_ok_iff]

end reported

/-- **Stylesheets and documents have the same errors, but for what is missing.** A source that
cannot be read is refused alike. -/
theorem stylesheet_errors_agree (r : Registry) (source : String) :
    (∀ e, Stylesheet.parse r source = .error (.parse e) ↔
      check r ⟨defaultMaxDepth, none⟩ source = .error (.parse e)) ∧
    ∀ doc, Document.parse source defaultMaxDepth = .ok doc →
      reported (Stylesheet.parse r source) =
        withoutMissing (reported (check r ⟨defaultMaxDepth, none⟩ source)) ∧
      (reported (Stylesheet.parse r source) = [] ↔
        ∃ sheet, Stylesheet.parse r source = .ok sheet) ∧
      (reported (check r ⟨defaultMaxDepth, none⟩ source) = [] ↔
        ∃ checked, check r ⟨defaultMaxDepth, none⟩ source = .ok checked) := by
  rw [check_eq_readThen, Stylesheet.parse_eq_readThen]
  constructor
  · intro e
    rw [readThen_eq_parse_iff, readThen_eq_parse_iff]
  · intro doc hparse
    rw [readThen_of_parse hparse, readThen_of_parse hparse, Stylesheet.ofDeclarations_eq_settle,
      Validator.validateDocument_eq_settle]
    refine ⟨?_, reported_eq_nil_iff, reported_eq_nil_iff⟩
    rw [reported_settle, reported_settle, withoutMissing, filter_sortByStart, ← withoutMissing,
      Validator.withoutMissing_errors]

end UiMarkup
