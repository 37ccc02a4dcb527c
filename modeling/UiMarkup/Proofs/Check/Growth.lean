import UiMarkup.Proofs.Check.Outcome
import UiMarkup.Proofs.Check.Values

/-!
# Checking under a registry that has grown

What has been checked needs only the kinds that it uses. More kinds in the
registry make no difference to it.
-/

namespace UiMarkup

open Declaration (preorder preorderAll)

/-- Whatever the first registry knows, the second knows as well. -/
def Registry.GrowsTo (r r' : Registry) : Prop :=
  ∀ kind schema, r.schema? kind = some schema → r'.schema? kind = some schema

namespace Validator

/-- The same stylesheet, with another registry. -/
def under (v : Validator) (r : Registry) : Validator := { v with registry := r }

variable {v : Validator} {r : Registry}

theorem errorsAt_under {d : Declaration} (hgrows : v.registry.GrowsTo r) (h : v.errorsAt d = []) :
    (v.under r).errorsAt d = [] := by
  obtain ⟨schema, hschema, -⟩ := schema_of_errorsAt h
  have hschema' : (v.under r).registry.schema? d.kindName = some schema := hgrows _ _ hschema
  unfold errorsAt at h ⊢
  rw [hschema] at h
  rw [hschema']
  exact h

theorem attributesAt_under {d : Declaration} (hgrows : v.registry.GrowsTo r)
    (h : v.errorsAt d = []) : (v.under r).attributesAt d = v.attributesAt d := by
  obtain ⟨schema, hschema, -⟩ := schema_of_errorsAt h
  have hschema' : (v.under r).registry.schema? d.kindName = some schema := hgrows _ _ hschema
  unfold attributesAt
  rw [hschema, hschema']
  rfl

mutual

theorem component_congr {w : Validator} : ∀ d : Declaration,
    (∀ e ∈ d.preorder, w.attributesAt e = v.attributesAt e) → w.component d = v.component d
  | ⟨kind, styleClass, assignments, children, span⟩, h => by
    rw [preorder, List.forall_mem_cons] at h
    rw [component, component, h.1, components_congr children h.2]

theorem components_congr {w : Validator} : ∀ ds : List Declaration,
    (∀ e ∈ preorderAll ds, w.attributesAt e = v.attributesAt e) →
      w.components ds = v.components ds
  | [], _ => rfl
  | d :: ds, h => by
    rw [preorderAll, List.forall_mem_append] at h
    rw [components, components, component_congr d h.1, components_congr ds h.2]

end

/-- What is checked under a registry is checked with the same result when it has grown. -/
theorem validateDocument_under {doc : Document} {checked : CheckedDocument}
    (hgrows : v.registry.GrowsTo r) (h : v.validateDocument doc = .ok checked) :
    (v.under r).validateDocument doc = .ok checked := by
  rw [validateDocument_eq_settle, settle_eq_ok_iff] at h ⊢
  obtain ⟨herrors, rfl⟩ := h
  have hnone := List.flatMap_eq_nil_iff.mp herrors
  refine ⟨List.flatMap_eq_nil_iff.mpr fun d hd => errorsAt_under hgrows (hnone d hd), ?_⟩
  rw [components_congr doc.roots fun d hd => attributesAt_under hgrows (hnone d hd)]

end Validator

theorem check_of_growsTo {r r' : Registry} {options : CheckOptions} {source : String}
    {checked : CheckedDocument} (hgrows : r.GrowsTo r')
    (h : check r options source = .ok checked) : check r' options source = .ok checked := by
  rw [check_eq_readThen, readThen_eq_ok_iff] at h ⊢
  obtain ⟨doc, hparse, hchecked⟩ := h
  let v : Validator := ⟨r, options.stylesheet⟩
  exact ⟨doc, hparse, Validator.validateDocument_under (v := v) hgrows hchecked⟩

end UiMarkup
