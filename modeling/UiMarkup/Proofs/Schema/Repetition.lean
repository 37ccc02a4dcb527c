import Mathlib.Data.List.Duplicate
import Mathlib.Data.List.Flatten
import UiMarkup.Proofs.Schema.Registration

/-!
# A set included twice

A set that a kind includes twice declares its attributes twice, so the kind is
refused. A set without attributes declares nothing, wherever and however often it
stands among the others, so that nothing speaks against including it again.
-/

namespace UiMarkup

namespace Catalog

/-- Whether a name is that of a set with attributes. -/
def declares (c : Catalog) (name : String) : Bool :=
  (c.sets.get? name).any fun set => !set.attributes.isEmpty

variable {c : Catalog}

theorem declares_iff {name : String} :
    c.declares name ↔ ∃ set, c.sets.get? name = some set ∧ set.attributes ≠ [] := by
  simp [declares, Option.any_eq_true]

/-- What is named twice is found twice, and declares its attributes twice. -/
theorem attributes_twice {names : List String} {name : String} {set : AttributeSet}
    (hset : c.sets.get? name = some set) (htwice : 1 < names.count name) :
    (set.attributes ++ set.attributes).Sublist
      ((c.found names).flatMap AttributeSet.attributes) := by
  have hnames : [name, name].Sublist names :=
    List.duplicate_iff_sublist.mp (List.duplicate_iff_two_le_count.mpr htwice)
  have hfound : [set, set].Sublist (c.found names) := by
    simpa [found, hset] using hnames.filterMap c.sets.get?
  simpa using hfound.flatMap AttributeSet.attributes

/-- Sets without attributes contribute nothing to what comes from the attributes. -/
theorem flatMap_found_filter {β : Type} {f : AttributeSet → List β}
    (hf : ∀ set : AttributeSet, set.attributes = [] → f set = []) (names : List String) :
    (c.found (names.filter c.declares)).flatMap f = (c.found names).flatMap f := by
  induction names with
  | nil => rfl
  | cons name names ih =>
    unfold found at ih ⊢
    cases hset : c.sets.get? name with
    | none =>
      have hdeclares : ¬ c.declares name := by simp [declares, hset]
      rw [List.filter_cons_of_neg hdeclares, ih, List.filterMap_cons_none hset]
    | some set =>
      rw [List.filterMap_cons_some hset, List.flatMap_cons]
      by_cases hdeclares : c.declares name
      · rw [List.filter_cons_of_pos hdeclares, List.filterMap_cons_some hset, List.flatMap_cons, ih]
      · have hempty : set.attributes = [] := by simpa [declares, hset] using hdeclares
        rw [List.filter_cons_of_neg hdeclares, ih, hf set hempty, List.nil_append]

end Catalog

namespace Registry

variable {r : Registry} {kind description : String} {includes : List String} {own : List Attribute}

/-- Of a new kind with known sets, only the names that are declared can be wrong. -/
theorem refuses_iff_of_known (hnew : r.schema? kind = none)
    (hknown : ∀ n ∈ includes, r.catalog.sets.contains n) {e : SchemaError} :
    r.Refuses kind includes own e ↔
      ∃ name first second, FirstRepeat (r.declaredNames includes own) name first second ∧
        e = .duplicateAttributeName name (.component kind) first second := by
  constructor
  · rintro (hold | ⟨-, front, rest, hincludes, -, hunknown⟩ | ⟨-, -, hrepeat⟩)
    · exact absurd hnew hold
    · exact absurd (hknown _ (by simp [hincludes])) hunknown
    · exact ⟨_, _, _, hrepeat, rfl⟩
  · rintro ⟨name, first, second, hrepeat, rfl⟩
    exact .repeated hnew hknown hrepeat

theorem not_apart_of_twice {name : String} (hdeclares : r.catalog.declares name)
    (htwice : 1 < includes.count name) :
    ¬ ((r.declared includes own).map Attribute.name).Nodup := by
  obtain ⟨set, hset, hsome⟩ := Catalog.declares_iff.mp hdeclares
  obtain ⟨a, attributes, hattributes⟩ := List.exists_cons_of_ne_nil hsome
  intro hapart
  have htwo := (Catalog.attributes_twice hset htwice).trans (List.sublist_append_left _ own)
  have hnodup := hapart.sublist (htwo.map Attribute.name)
  rw [List.map_append, List.nodup_append, hattributes] at hnodup
  exact hnodup.2.2 a.name (by simp) a.name (by simp) rfl

theorem declared_filter (r : Registry) (includes : List String) (own : List Attribute) :
    r.declared (includes.filter r.catalog.declares) own = r.declared includes own := by
  rw [declared, Catalog.flatMap_found_filter fun _ h => h, declared]

theorem declaredNames_filter (r : Registry) (includes : List String) (own : List Attribute) :
    r.declaredNames (includes.filter r.catalog.declares) own = r.declaredNames includes own := by
  unfold declaredNames ComponentSchema.claims
  rw [Catalog.flatMap_found_filter]
  intro set h
  rw [AttributeSet.claims, h, List.map_nil]

/-- Of a new kind whose sets are known: if a set with attributes is included twice, a name of an
attribute clashes. Sets without attributes may be left out or repeated, which changes neither what
is reported nor what is declared. -/
theorem repeated_set_collides (hnew : r.schema? kind = none)
    (hknown : ∀ n ∈ includes, r.catalog.sets.contains n) :
    ((∃ name, 1 < includes.count name ∧ r.catalog.declares name) →
      ∃ clash first second,
        r.register kind description includes own =
          .error (.duplicateAttributeName clash (.component kind) first second)) ∧
    (∀ e, r.register kind description includes own = .error e ↔
      r.register kind description (includes.filter r.catalog.declares) own = .error e) ∧
    r.declared includes own = r.declared (includes.filter r.catalog.declares) own := by
  have hfiltered : ∀ n ∈ includes.filter r.catalog.declares, r.catalog.sets.contains n :=
    fun n hn => hknown n (List.mem_of_mem_filter hn)
  refine ⟨?_, fun e => ?_, (declared_filter r includes own).symm⟩
  · rintro ⟨name, htwice, hdeclares⟩
    have hclash : firstClash? [] (r.declaredNames includes own) ≠ none := by
      rw [ne_eq, firstClash?_eq_none_iff, declaredNames, ComponentSchema.fst_claims]
      exact not_apart_of_twice hdeclares htwice
    obtain ⟨⟨clash, first, second⟩, hsome⟩ := Option.ne_none_iff_exists'.mp hclash
    refine ⟨clash, first, second, register_eq_error_iff.mpr ?_⟩
    exact .repeated hnew hknown (firstClash?_eq_some_iff_firstRepeat.mp hsome)
  · rw [register_eq_error_iff, register_eq_error_iff, refuses_iff_of_known hnew hknown,
      refuses_iff_of_known hnew hfiltered, declaredNames_filter]

/-- The second of three sets stands among them once more. -/
theorem repeated_set_collides_panel :
    let color : Attribute := .plain "color" .color "" false
    let width : Attribute := .plain "width" .float "" false
    let background : AttributeSet := ⟨"Background", [color], by decide⟩
    let frame : AttributeSet := ⟨"Frame", [width], by decide⟩
    let catalog : Catalog := ⟨(NameMap.empty.insert "Background" background).insert "Frame" frame⟩
    let r := Registry.ofCatalog catalog none
    let includes := ["Background", "Frame", "Background"]
    r.schema? "panel" = none ∧ (∀ n ∈ includes, r.catalog.sets.contains n) ∧
      1 < includes.count "Background" ∧ r.catalog.declares "Background" ∧
      ∃ clash first second, r.register "panel" "" includes [] =
        .error (.duplicateAttributeName clash (.component "panel") first second) := by
  intro color width background frame catalog r includes
  have hknown : ∀ n ∈ includes, r.catalog.sets.contains n := by decide
  have htwice : 1 < includes.count "Background" := by decide
  have hdeclares : r.catalog.declares "Background" := by decide
  exact ⟨rfl, hknown, htwice, hdeclares,
    (repeated_set_collides rfl hknown).1 ⟨"Background", htwice, hdeclares⟩⟩

/-- Not every set that is included twice collides: one without attributes does not. -/
theorem empty_set_included_twice :
    ¬ ∀ (r : Registry) (kind description : String) (includes : List String) (own : List Attribute),
      r.schema? kind = none → (∀ n ∈ includes, r.catalog.sets.contains n) →
      (∃ name, 1 < includes.count name) →
      ∃ clash first second,
        r.register kind description includes own =
          .error (.duplicateAttributeName clash (.component kind) first second) := by
  intro h
  let blank : AttributeSet := ⟨"Blank", [], by decide⟩
  let r := Registry.ofCatalog ⟨NameMap.empty.insert "Blank" blank⟩ none
  have htaken : (r.register "panel" "" ["Blank", "Blank"] []).isOk := by decide
  obtain ⟨_, _, _, herror⟩ :=
    h r "panel" "" ["Blank", "Blank"] [] rfl (by decide) ⟨"Blank", by decide⟩
  rw [herror] at htaken
  cases htaken

end Registry

end UiMarkup
