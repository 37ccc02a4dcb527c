import Mathlib.Data.List.Nodup
import Mathlib.Data.List.Perm.Basic
import UiMarkup.Proofs.NameMap
import UiMarkup.Schema.Registry

/-!
# Taking in a kind

A kind is taken in when it is new, its sets are known and no name is declared
twice. Otherwise the first thing that is wrong is reported, in this order, and
the registry stays as it was.
-/

namespace UiMarkup

/-! ## The first name that is declared again -/

/-- All names of `claims` differ up to the first one that came before, from `first`. It comes again
from `second`. -/
def FirstRepeat (claims : List (String × Origin)) (name : String) (first second : Origin) : Prop :=
  ∃ front rest, claims = front ++ (name, second) :: rest ∧ (front.map Prod.fst).Nodup ∧
    (name, first) ∈ front

theorem firstClash?_eq_some_iff {seen claims : List (String × Origin)} {name : String}
    {first second : Origin} (hseen : (seen.map Prod.fst).Nodup) :
    firstClash? seen claims = some (name, first, second) ↔
      ∃ front rest, claims = front ++ (name, second) :: rest ∧
        ((front.reverse ++ seen).map Prod.fst).Nodup ∧ (name, first) ∈ front.reverse ++ seen := by
  induction claims generalizing seen with
  | nil => simp [firstClash?]
  | cons claim claims ih =>
    obtain ⟨n, origin⟩ := claim
    rw [firstClash?]
    cases hlookup : seen.lookup n with
    | some found =>
      have hfound := NameMap.mem_of_lookup hlookup
      constructor
      · intro h
        cases h
        exact ⟨[], claims, rfl, hseen, hfound⟩
      · rintro ⟨front, rest, hclaims, hnodup, hmem⟩
        cases front with
        | nil =>
          cases hclaims
          have hsame := NameMap.lookup_of_mem hseen hmem
          rw [hlookup] at hsame
          cases hsame
          rfl
        | cons entry front =>
          -- `n` came before, so it cannot stand among names that differ.
          cases hclaims
          rw [List.reverse_cons, List.append_assoc, List.map_append] at hnodup
          have hn := (List.nodup_cons.mp (List.nodup_append.mp hnodup).2.1).1
          exact absurd (List.mem_map.mpr ⟨_, hfound, rfl⟩) hn
    | none =>
      have hnew := lookup_eq_none_iff.mp hlookup
      have hseen' : (((n, origin) :: seen).map Prod.fst).Nodup :=
        List.nodup_cons.mpr ⟨hnew, hseen⟩
      rw [ih hseen']
      constructor
      · rintro ⟨front, rest, rfl, hnodup, hmem⟩
        refine ⟨(n, origin) :: front, rest, rfl, ?_, ?_⟩
        · rwa [List.reverse_cons, List.append_assoc]
        · rwa [List.reverse_cons, List.append_assoc]
      · rintro ⟨front, rest, hclaims, hnodup, hmem⟩
        cases front with
        | nil =>
          cases hclaims
          exact absurd (List.mem_map.mpr ⟨_, hmem, rfl⟩) hnew
        | cons entry front =>
          cases hclaims
          rw [List.reverse_cons, List.append_assoc] at hnodup hmem
          exact ⟨front, rest, rfl, hnodup, hmem⟩

theorem firstClash?_eq_some_iff_firstRepeat {claims : List (String × Origin)} {name : String}
    {first second : Origin} :
    firstClash? [] claims = some (name, first, second) ↔ FirstRepeat claims name first second := by
  have hempty : (([] : List (String × Origin)).map Prod.fst).Nodup := List.nodup_nil
  rw [firstClash?_eq_some_iff hempty]
  simp only [List.append_nil, List.map_reverse, List.nodup_reverse, List.mem_reverse, FirstRepeat]

/-- A set that is included twice clashes with itself. -/
example : firstClash? [] [("text", .set "Label"), ("color", .own), ("text", .set "Label")] =
    some ("text", .set "Label", .set "Label") := by
  decide

theorem FirstRepeat.not_nodup {claims : List (String × Origin)} {name : String}
    {first second : Origin} (h : FirstRepeat claims name first second) :
    ¬ (claims.map Prod.fst).Nodup := by
  obtain ⟨front, rest, rfl, -, hmem⟩ := h
  rw [List.map_append, List.nodup_append]
  rintro ⟨-, -, hapart⟩
  exact hapart name (List.mem_map.mpr ⟨_, hmem, rfl⟩) name List.mem_cons_self rfl

theorem firstClash?_eq_none_iff {claims : List (String × Origin)} :
    firstClash? [] claims = none ↔ (claims.map Prod.fst).Nodup := by
  constructor
  · exact fun h => (nodup_of_firstClash?_eq_none h).1
  · intro hnodup
    cases hclash : firstClash? [] claims with
    | none => rfl
    | some clash => exact absurd hnodup (firstClash?_eq_some_iff_firstRepeat.mp hclash).not_nodup

/-! ## Sets -/

namespace Catalog

/-- The known ones of the sets with these names. -/
def found (c : Catalog) (names : List String) : List AttributeSet := names.filterMap c.sets.get?

theorem lookup_eq_ok_iff {c : Catalog} {name : String} {set : AttributeSet} :
    c.lookup name = .ok set ↔ c.sets.get? name = some set := by
  unfold lookup
  cases c.sets.get? name <;> simp

theorem lookup_eq_error_iff {c : Catalog} {name : String} {e : SchemaError} :
    c.lookup name = .error e ↔ ¬ c.sets.contains name ∧ e = .unknownAttributeSet name := by
  unfold lookup NameMap.contains
  cases c.sets.get? name <;> simp [eq_comm]

theorem lookupAll_eq_ok_iff {c : Catalog} {names : List String} {sets : List AttributeSet} :
    c.lookupAll names = .ok sets ↔ (∀ n ∈ names, c.sets.contains n) ∧ sets = c.found names := by
  induction names generalizing sets with
  | nil =>
    simp only [lookupAll, found, List.filterMap_nil, Except.ok.injEq, eq_comm (b := sets)]
    simp
  | cons name names ih =>
    simp only [lookupAll, bind_eq_ok_iff, lookup_eq_ok_iff, ih, List.forall_mem_cons]
    constructor
    · rintro ⟨set, hset, sets', ⟨hknown, rfl⟩, hsets⟩
      cases hsets
      refine ⟨⟨NameMap.contains_iff.mpr ⟨set, hset⟩, hknown⟩, ?_⟩
      rw [found, found, List.filterMap_cons_some hset]
    · rintro ⟨⟨hname, hknown⟩, rfl⟩
      obtain ⟨set, hset⟩ := NameMap.contains_iff.mp hname
      refine ⟨set, hset, c.found names, ⟨hknown, rfl⟩, ?_⟩
      rw [found, found, List.filterMap_cons_some hset]

/-- `name` is the first one of `names` that no set has. -/
def FirstUnknown (c : Catalog) (names : List String) (name : String) : Prop :=
  ∃ front rest, names = front ++ name :: rest ∧ (∀ n ∈ front, c.sets.contains n) ∧
    ¬ c.sets.contains name

theorem firstUnknown_cons_iff {c : Catalog} {n name : String} {names : List String} :
    c.FirstUnknown (n :: names) name ↔
      (¬ c.sets.contains n ∧ name = n) ∨ c.sets.contains n ∧ c.FirstUnknown names name := by
  constructor
  · rintro ⟨front, rest, hnames, hfront, hname⟩
    cases front with
    | nil =>
      cases hnames
      exact .inl ⟨hname, rfl⟩
    | cons m front =>
      cases hnames
      rw [List.forall_mem_cons] at hfront
      exact .inr ⟨hfront.1, front, rest, rfl, hfront.2, hname⟩
  · rintro (⟨hn, rfl⟩ | ⟨hn, front, rest, rfl, hfront, hname⟩)
    · exact ⟨[], names, rfl, by simp, hn⟩
    · exact ⟨n :: front, rest, rfl, List.forall_mem_cons.mpr ⟨hn, hfront⟩, hname⟩

theorem lookupAll_eq_error_iff {c : Catalog} {names : List String} {e : SchemaError} :
    c.lookupAll names = .error e ↔
      ∃ name, c.FirstUnknown names name ∧ e = .unknownAttributeSet name := by
  induction names with
  | nil => simp [lookupAll, FirstUnknown]
  | cons n names ih =>
    simp only [lookupAll, bind_eq_error_iff, lookup_eq_error_iff, lookup_eq_ok_iff, ih,
      firstUnknown_cons_iff]
    constructor
    · rintro (⟨hn, rfl⟩ | ⟨set, hset, ⟨name, hname, rfl⟩ | ⟨_, _, h⟩⟩)
      · exact ⟨n, .inl ⟨hn, rfl⟩, rfl⟩
      · exact ⟨name, .inr ⟨NameMap.contains_iff.mpr ⟨set, hset⟩, hname⟩, rfl⟩
      · cases h
    · rintro ⟨name, ⟨hn, rfl⟩ | ⟨hn, hname⟩, rfl⟩
      · exact .inl ⟨hn, rfl⟩
      · obtain ⟨set, hset⟩ := NameMap.contains_iff.mp hn
        exact .inr ⟨set, hset, .inl ⟨name, hname, rfl⟩⟩

end Catalog

/-! ## Schemas -/

namespace ComponentSchema

variable {kind description : String} {included : List AttributeSet} {own : List Attribute}

theorem resolve_eq_ok_iff {schema : ComponentSchema} :
    resolve kind description included own = .ok schema ↔
      ((included.flatMap AttributeSet.attributes ++ own).map Attribute.name).Nodup ∧
        schema.kind = kind ∧ schema.description = description ∧ schema.included = included ∧
        schema.own = own := by
  rw [← fst_claims, ← firstClash?_eq_none_iff]
  unfold resolve
  split
  next hclash => simp [hclash]
  next hclash =>
    cases schema
    simp [hclash, eq_comm]

theorem resolve_eq_error_iff {e : SchemaError} :
    resolve kind description included own = .error e ↔
      ∃ name first second, FirstRepeat (claims included own) name first second ∧
        e = .duplicateAttributeName name (.component kind) first second := by
  simp only [← firstClash?_eq_some_iff_firstRepeat]
  unfold resolve
  split
  next hclash =>
    constructor
    · intro h
      cases h
      exact ⟨_, _, _, hclash, rfl⟩
    · rintro ⟨name, first, second, hsome, rfl⟩
      rw [hclash] at hsome
      cases hsome
      rfl
  next hclash => simp [hclash]

end ComponentSchema

/-! ## Registries -/

namespace Registry

section

variable (r : Registry) (kind : String) (includes : List String) (own : List Attribute)

/-- The attributes of the sets, one set after the other, and then those of the kind itself. -/
def declared : List Attribute :=
  (r.catalog.found includes).flatMap AttributeSet.attributes ++ own

/-- The names of these attributes, each with the place that declares it. -/
def declaredNames : List (String × Origin) :=
  ComponentSchema.claims (r.catalog.found includes) own

structure Registrable : Prop where
  new : r.schema? kind = none
  known : ∀ n ∈ includes, r.catalog.sets.contains n
  apart : ((r.declared includes own).map Attribute.name).Nodup

/-- Why a kind is not taken in. Only the first reason is reported. -/
inductive Refuses : SchemaError → Prop
  | known (h : r.schema? kind ≠ none) : Refuses (.duplicateComponentKind kind)
  | unknownSet {name : String} (hnew : r.schema? kind = none)
      (h : r.catalog.FirstUnknown includes name) : Refuses (.unknownAttributeSet name)
  | repeated {name : String} {first second : Origin} (hnew : r.schema? kind = none)
      (hknown : ∀ n ∈ includes, r.catalog.sets.contains n)
      (h : FirstRepeat (r.declaredNames includes own) name first second) :
      Refuses (.duplicateAttributeName name (.component kind) first second)

/-- One kind more, and nothing else is different. -/
structure Adds (schema : ComponentSchema) (r' : Registry) : Prop where
  schema : r'.schema? kind = some schema
  others : ∀ other, other ≠ kind → r'.schema? other = r.schema? other
  catalog : r'.catalog = r.catalog
  name : r'.name = r.name

end

variable {r : Registry} {kind description : String} {includes : List String}
  {own : List Attribute}

theorem contains_components : r.components.contains kind = (r.schema? kind).isSome := rfl

theorem resolve_eq_ok_iff {schema : ComponentSchema} :
    r.resolve kind description includes own = .ok schema ↔
      r.Registrable kind includes own ∧ schema.kind = kind ∧ schema.description = description ∧
        schema.included = r.catalog.found includes ∧ schema.own = own := by
  unfold resolve
  rw [contains_components]
  cases hnew : r.schema? kind with
  | some old =>
    simp only [Option.isSome_some, if_true]
    constructor
    · intro h
      cases h
    · rintro ⟨⟨hnone, -, -⟩, -⟩
      rw [hnew] at hnone
      cases hnone
  | none =>
    simp only [Option.isSome_none, Bool.false_eq_true, if_false, bind_eq_ok_iff,
      Catalog.lookupAll_eq_ok_iff, ComponentSchema.resolve_eq_ok_iff]
    constructor
    · rintro ⟨_, ⟨hknown, rfl⟩, hapart, hfields⟩
      exact ⟨⟨hnew, hknown, hapart⟩, hfields⟩
    · rintro ⟨⟨-, hknown, hapart⟩, hfields⟩
      exact ⟨_, ⟨hknown, rfl⟩, hapart, hfields⟩

theorem resolve_eq_error_iff {e : SchemaError} :
    r.resolve kind description includes own = .error e ↔ r.Refuses kind includes own e := by
  unfold resolve
  rw [contains_components]
  cases hnew : r.schema? kind with
  | some old =>
    simp only [Option.isSome_some, if_true]
    constructor
    · intro h
      cases h
      exact .known (by simp [hnew])
    · intro h
      cases h with
      | known => rfl
      | unknownSet hnone => simp [hnew] at hnone
      | repeated hnone => simp [hnew] at hnone
  | none =>
    simp only [Option.isSome_none, Bool.false_eq_true, if_false, bind_eq_error_iff,
      Catalog.lookupAll_eq_ok_iff, Catalog.lookupAll_eq_error_iff,
      ComponentSchema.resolve_eq_error_iff]
    constructor
    · rintro (⟨name, hname, rfl⟩ | ⟨_, ⟨hknown, rfl⟩, name, first, second, hrepeat, rfl⟩)
      · exact .unknownSet hnew hname
      · exact .repeated hnew hknown hrepeat
    · intro h
      cases h with
      | known hsome => exact absurd hnew hsome
      | unknownSet _ hname => exact .inl ⟨_, hname, rfl⟩
      | repeated _ hknown hrepeat => exact .inr ⟨_, ⟨hknown, rfl⟩, _, _, _, hrepeat, rfl⟩

theorem register_eq_ok_iff {r' : Registry} :
    r.register kind description includes own = .ok r' ↔
      ∃ schema, r.resolve kind description includes own = .ok schema ∧
        r' = { r with components := r.components.insert kind schema } := by
  simp only [register, bind_eq_ok_iff, Except.ok.injEq, eq_comm (b := r')]

theorem register_eq_error_iff {e : SchemaError} :
    r.register kind description includes own = .error e ↔ r.Refuses kind includes own e := by
  simp [register, bind_eq_error_iff, resolve_eq_error_iff]

theorem adds_insert (r : Registry) (kind : String) (schema : ComponentSchema) :
    r.Adds kind schema { r with components := r.components.insert kind schema } where
  schema := by simp [schema?]
  others other hother := by simp [schema?, hother]
  catalog := rfl
  name := rfl

/-- The order of the sets does not matter. -/
theorem Registrable.perm {other : List String} (hperm : includes.Perm other)
    (h : r.Registrable kind includes own) : r.Registrable kind other own where
  new := h.new
  known n hn := h.known n (hperm.mem_iff.mpr hn)
  apart := by
    have hdeclared : (r.declared includes own).Perm (r.declared other own) :=
      ((hperm.filterMap _).flatMap_right _).append_right own
    exact (hdeclared.map Attribute.name).nodup_iff.mp h.apart

/-! ## In place -/

/-- Takes in a kind by changing a registry in place, one step after the other. -/
def registering (kind description : String) (includes : List String) (own : List Attribute) :
    EStateM SchemaError Registry ComponentSchema := do
  let r ← get
  if r.components.contains kind then throw (.duplicateComponentKind kind)
  else
    let included ← MonadExcept.ofExcept (r.catalog.lookupAll includes)
    let schema ← MonadExcept.ofExcept (ComponentSchema.resolve kind description included own)
    set { r with components := r.components.insert kind schema }
    return schema

/-- The registry is changed in the last step only. -/
theorem run_registering :
    (registering kind description includes own).run r =
      match r.resolve kind description includes own with
      | .ok schema => .ok schema { r with components := r.components.insert kind schema }
      | .error e => .error e r := by
  simp only [registering, resolve, EStateM.run_bind, EStateM.run_get]
  cases r.components.contains kind with
  | true => rfl
  | false =>
    cases r.catalog.lookupAll includes with
    | error e => rfl
    | ok included =>
      have hlast (resolved : Except SchemaError ComponentSchema) :
          (do
            let schema ← MonadExcept.ofExcept resolved
            set { r with components := r.components.insert kind schema }
            return schema : EStateM SchemaError Registry ComponentSchema).run r =
          match resolved with
          | .ok schema => .ok schema { r with components := r.components.insert kind schema }
          | .error e => .error e r := by
        cases resolved <;> rfl
      exact hlast _

theorem run_registering_of_ok {r' : Registry}
    (h : r.register kind description includes own = .ok r') :
    ∃ schema, (registering kind description includes own).run r = .ok schema r' ∧
      r.Adds kind schema r' ∧ schema.kind = kind ∧ schema.description = description ∧
      schema.attributes = r.declared includes own := by
  obtain ⟨schema, hresolve, rfl⟩ := register_eq_ok_iff.mp h
  obtain ⟨-, hkind, hdescription, hincluded, hown⟩ := resolve_eq_ok_iff.mp hresolve
  refine ⟨schema, ?_, r.adds_insert kind schema, hkind, hdescription, ?_⟩
  · rw [run_registering, hresolve]
  · rw [ComponentSchema.attributes, hincluded, hown, declared]

theorem run_registering_of_error {e : SchemaError}
    (h : r.register kind description includes own = .error e) :
    (registering kind description includes own).run r = .error e r := by
  have hresolve : r.resolve kind description includes own = .error e :=
    resolve_eq_error_iff.mpr (register_eq_error_iff.mp h)
  rw [run_registering, hresolve]

theorem exists_register_iff :
    (∃ r', r.register kind description includes own = .ok r') ↔
      r.Registrable kind includes own := by
  simp only [register_eq_ok_iff, resolve_eq_ok_iff]
  constructor
  · rintro ⟨_, schema, ⟨hregistrable, -⟩, -⟩
    exact hregistrable
  · intro h
    exact ⟨_, ⟨kind, description, r.catalog.found includes, own, h.apart⟩,
      ⟨h, rfl, rfl, rfl, rfl⟩, rfl⟩

/-- **A kind is taken in when nothing speaks against it, and otherwise nothing changes.** -/
theorem registration_exact (r : Registry) (kind description : String) (includes : List String)
    (own : List Attribute) :
    ((∃ r', r.register kind description includes own = .ok r') ↔
      r.Registrable kind includes own) ∧
    (∀ other, includes.Perm other →
      ((∃ r', r.register kind description includes own = .ok r') ↔
        ∃ r', r.register kind description other own = .ok r')) ∧
    (∀ r', r.register kind description includes own = .ok r' →
      ∃ schema, (registering kind description includes own).run r = .ok schema r' ∧
        r.Adds kind schema r' ∧ schema.kind = kind ∧ schema.description = description ∧
        schema.attributes = r.declared includes own) ∧
    (∀ e, r.register kind description includes own = .error e ↔ r.Refuses kind includes own e) ∧
    ∀ e, r.register kind description includes own = .error e →
      (registering kind description includes own).run r = .error e r := by
  refine ⟨exists_register_iff, ?_, ?_, ?_, ?_⟩
  · intro other hperm
    rw [exists_register_iff, exists_register_iff]
    exact ⟨Registrable.perm hperm, Registrable.perm hperm.symm⟩
  · intro r' h
    exact run_registering_of_ok h
  · intro e
    exact register_eq_error_iff
  · intro e h
    exact run_registering_of_error h

end Registry

end UiMarkup
