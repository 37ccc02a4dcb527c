import UiMarkup.Proofs.Check.Relocation
import UiMarkup.Proofs.Declaration.Erasure

/-!
# Checking looks at no place

Declarations that differ in their places alone make the same components, and
have the same errors at other places.
-/

namespace UiMarkup

def ValidationError.erase (e : ValidationError) : ValidationError := ⟨.nowhere, e.cause⟩

/-- To erase places is to move everything to one place. -/
def Relocation.nowhere : Relocation := ⟨fun _ => 0, fun _ => 0⟩

namespace Declaration

mutual

theorem erase_eq : ∀ d : Declaration, d.erase = Relocation.nowhere.declaration d
  | ⟨kind, cls, as, children, span⟩ => by
    rw [erase, Relocation.declaration, eraseAll_eq children]
    rfl

theorem eraseAll_eq : ∀ ds : List Declaration, eraseAll ds = Relocation.nowhere.declarations ds
  | [] => rfl
  | d :: ds => by rw [eraseAll, Relocation.declarations, erase_eq d, eraseAll_eq ds]

end

end Declaration

/-! ## Declarations -/

namespace Validator

open Declaration (eraseAll preorderAll)

theorem errors_eraseAll (v : Validator) (ds : List Declaration) :
    v.errors (eraseAll ds) = (v.errors ds).map ValidationError.erase := by
  rw [Declaration.eraseAll_eq]
  exact Relocation.nowhere.errors_declarations v ds

theorem components_eraseAll (v : Validator) (ds : List Declaration) :
    v.components (eraseAll ds) = v.components ds := by
  rw [Declaration.eraseAll_eq]
  exact Relocation.nowhere.components_declarations v ds

theorem errors_of_eraseAll {v : Validator} {ds es : List Declaration}
    (h : eraseAll ds = eraseAll es) : v.errors ds = [] ↔ v.errors es = [] := by
  have hsame := congrArg v.errors h
  rw [errors_eraseAll, errors_eraseAll] at hsame
  rw [← List.map_eq_nil_iff (f := ValidationError.erase), hsame, List.map_eq_nil_iff]

theorem components_of_eraseAll {v : Validator} {ds es : List Declaration}
    (h : eraseAll ds = eraseAll es) : v.components ds = v.components es := by
  rw [← components_eraseAll, h, components_eraseAll]

end Validator

/-! ## Rules -/

namespace Stylesheet

open Declaration (eraseAll preorderAll)

theorem ruleErrors_eraseAll (r : Registry) (ds : List Declaration) :
    (preorderAll (eraseAll ds)).flatMap (ruleErrors r) =
      ((preorderAll ds).flatMap (ruleErrors r)).map ValidationError.erase := by
  rw [Declaration.eraseAll_eq]
  exact Relocation.nowhere.ruleErrors_declarations r ds

theorem rules_eraseAll (r : Registry) (s : Stylesheet) (ds : List Declaration) :
    (preorderAll (eraseAll ds)).foldl (addRule r) s = (preorderAll ds).foldl (addRule r) s := by
  rw [Declaration.eraseAll_eq]
  exact Relocation.nowhere.rules_declarations r s ds

end Stylesheet

end UiMarkup
