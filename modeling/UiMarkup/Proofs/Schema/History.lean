import UiMarkup.Proofs.Check.Growth
import UiMarkup.Proofs.Schema.Index
import UiMarkup.Proofs.Schema.Registration
import UiMarkup.Schema.File

/-!
# How a schema is built

First sets are taken into a catalog, then the catalog is frozen, and then kinds
are taken into the registry on it. Some steps fail. Whatever the steps are, all
names stay apart, every look-up answers as the lists do, and nothing that was
taken in ever changes.
-/

namespace UiMarkup

/-! ## Look-ups of one kind -/

/-- The look-ups of a kind answer as the list of its attributes does. -/
structure ComponentSchema.LooksUp (s : ComponentSchema) : Prop where
  attributes : ∀ n a, s.attribute? n = some a ↔ s.attributes.filter (·.name = n) = [a]
  contains : ∀ n, s.index.contains n ↔ n ∈ s.attributes.map Attribute.name
  size : s.index.size = s.attributes.length
  origin : ∀ n o, s.origin? n = some o ↔
    ∃ set ∈ s.included, set.name = o ∧ n ∈ set.attributes.map Attribute.name
  no_origin : ∀ n, n ∈ s.own.map Attribute.name ∨ n ∉ s.attributes.map Attribute.name →
    s.origin? n = none
  /-- The index is the one that filling it makes, and every place in it lists an attribute. -/
  index : fill .empty (locations s.included s.own) = some s.index
  listed : ∀ n loc, s.index.get? n = some loc → ∃ a, s.at? loc = some a ∧ a.name = n
  attributes_index : ∀ n, s.attribute? n = (s.index.get? n).bind s.at?
  origin_index : ∀ n, s.origin? n = (s.index.get? n).bind s.setAt?
  defaults : ∀ a ∈ s.attributes, ∀ v ∈ a.defaultValue, v.type = a.type

namespace ComponentSchema

variable {s : ComponentSchema}

theorem origin?_eq_none {n : String}
    (h : n ∈ s.own.map Attribute.name ∨ n ∉ s.attributes.map Attribute.name) :
    s.origin? n = none := by
  apply Option.eq_none_iff_forall_ne_some.mpr
  intro o horigin
  obtain ⟨set, hset, -, hn⟩ := origin?_eq_some_iff.mp horigin
  have hlisted : n ∈ (s.included.flatMap AttributeSet.attributes).map Attribute.name := by
    rw [List.map_flatMap]
    exact List.mem_flatMap.mpr ⟨set, hset, hn⟩
  rcases h with hown | hunknown
  · have hnodup := s.nodup_names
    rw [List.map_append, List.nodup_append] at hnodup
    exact hnodup.2.2 n hlisted n hown rfl
  · rw [attributes, List.map_append, List.mem_append] at hunknown
    exact hunknown (.inl hlisted)

theorem looksUp (s : ComponentSchema) : s.LooksUp where
  attributes _ _ := attribute?_eq_some_iff
  contains _ := contains_index
  size := s.size_index
  origin _ _ := origin?_eq_some_iff
  no_origin _ := origin?_eq_none
  index := s.fill_locations
  listed _ _ := get?_index.mp
  attributes_index n := (s.at?_index n).symm
  origin_index n := (s.setAt?_index n).symm
  defaults a _ := a.type_defaultValue

end ComponentSchema

/-! ## Steps -/

/-- A catalog that still grows, or the registry on a frozen one. -/
inductive SchemaState
  | growing (catalog : Catalog)
  | frozen (registry : Registry)

namespace SchemaState

def empty : SchemaState := growing .empty

def catalog : SchemaState → Catalog
  | growing c => c
  | frozen r => r.catalog

def schema? : SchemaState → String → Option ComponentSchema
  | growing _, _ => none
  | frozen r, kind => r.schema? kind

def kinds : SchemaState → List String
  | growing _ => []
  | frozen r => r.kinds

inductive Step
  | addSet (entry : SetEntry)
  | freeze (name : Option String)
  | register (entry : ComponentEntry)

/-- Sets come in front of the freezing and kinds behind it. Out of turn a step does nothing. -/
def step : SchemaState → Step → Except SchemaError SchemaState
  | growing c, .addSet e => do
    let set ← e.build
    let c' ← c.register set
    .ok (growing c')
  | growing c, .freeze name => .ok (frozen (.ofCatalog c name))
  | frozen r, .register e => do
    let r' ← r.registerEntry e
    .ok (frozen r')
  | s, _ => .ok s

/-- A step that fails leaves everything as it is. -/
def attempt (s : SchemaState) (a : Step) : SchemaState :=
  match s.step a with
  | .ok s' => s'
  | .error _ => s

def run (s : SchemaState) (steps : List Step) : SchemaState := steps.foldl attempt s

/-! ### What a step can do -/

/-- The schema that an entry describes, on the sets of a catalog. -/
structure Describes (c : Catalog) (e : ComponentEntry) (schema : ComponentSchema) : Prop where
  kind : schema.kind = e.kind
  description : schema.description = e.description
  known : ∀ n ∈ e.includes, c.sets.contains n
  included : schema.included = c.found e.includes
  own : AttributeEntry.declareAll e.attributes = .ok schema.own

/-- A step does nothing, or adds one thing that is new. -/
inductive Effect : SchemaState → Step → SchemaState → Prop
  | nothing {s : SchemaState} {a : Step} : Effect s a s
  | set {c : Catalog} {e : SetEntry} {set : AttributeSet} (hnew : c.sets.get? set.name = none) :
      Effect (growing c) (.addSet e) (growing ⟨c.sets.insert set.name set⟩)
  | freezing {c : Catalog} {name : Option String} :
      Effect (growing c) (.freeze name) (frozen (.ofCatalog c name))
  | kind {r : Registry} {e : ComponentEntry} {schema : ComponentSchema}
      (hnew : r.schema? e.kind = none) (h : Describes r.catalog e schema) :
      Effect (frozen r) (.register e)
        (frozen { r with components := r.components.insert e.kind schema })

theorem register_set_cases {c c' : Catalog} {set : AttributeSet} (h : c.register set = .ok c') :
    c.sets.get? set.name = none ∧ c' = ⟨c.sets.insert set.name set⟩ := by
  unfold Catalog.register at h
  split at h
  · cases h
  next hnew =>
    cases h
    rw [NameMap.contains, Option.not_isSome_iff_eq_none] at hnew
    exact ⟨hnew, rfl⟩

theorem registerEntry_cases {r r' : Registry} {e : ComponentEntry}
    (h : r.registerEntry e = .ok r') : ∃ schema, r.schema? e.kind = none ∧
      Describes r.catalog e schema ∧
      r' = { r with components := r.components.insert e.kind schema } := by
  obtain ⟨own, hown, hregister⟩ := bind_eq_ok_iff.mp h
  obtain ⟨schema, hresolve, rfl⟩ := Registry.register_eq_ok_iff.mp hregister
  obtain ⟨⟨hnew, hknown, -⟩, hkind, hdescription, hincluded, rfl⟩ :=
    Registry.resolve_eq_ok_iff.mp hresolve
  exact ⟨schema, hnew, ⟨hkind, hdescription, hknown, hincluded, hown⟩, rfl⟩

theorem effect_of_step {s s' : SchemaState} {a : Step} (h : s.step a = .ok s') :
    Effect s a s' := by
  unfold step at h
  split at h
  next c e =>
    obtain ⟨set, -, h⟩ := bind_eq_ok_iff.mp h
    obtain ⟨c', hregister, h⟩ := bind_eq_ok_iff.mp h
    cases h
    obtain ⟨hnew, rfl⟩ := register_set_cases hregister
    exact .set hnew
  next =>
    cases h
    exact .freezing
  next r e =>
    obtain ⟨r', hregister, h⟩ := bind_eq_ok_iff.mp h
    cases h
    obtain ⟨schema, hnew, hdescribes, rfl⟩ := registerEntry_cases hregister
    exact .kind hnew hdescribes
  next =>
    cases h
    exact .nothing

theorem effect_attempt (s : SchemaState) (a : Step) : Effect s a (s.attempt a) := by
  unfold attempt
  split
  next s' hstep => exact effect_of_step hstep
  next => exact .nothing

/-! ### What every step keeps -/

/-- Everything stands under its own name, and every kind is what one of the steps so far says. -/
structure Recorded (past : List Step) (s : SchemaState) : Prop where
  set_name : ∀ name set, s.catalog.sets.get? name = some set → set.name = name
  described : ∀ kind schema, s.schema? kind = some schema →
    ∃ e, .register e ∈ past ∧ e.kind = kind ∧ Describes s.catalog e schema

theorem recorded_empty : Recorded [] empty where
  set_name name set h := by simp [empty, catalog, Catalog.empty] at h
  described kind schema h := by simp [empty, schema?] at h

theorem recorded_effect {past : List Step} {s s' : SchemaState} {a : Step}
    (h : Recorded past s) (heffect : Effect s a s') : Recorded (past ++ [a]) s' := by
  have hpast : ∀ {e}, .register e ∈ past → .register e ∈ past ++ [a] := List.mem_append_left _
  cases heffect with
  | nothing =>
    refine ⟨h.set_name, fun kind schema hschema => ?_⟩
    obtain ⟨e, he, hkind, hdescribes⟩ := h.described kind schema hschema
    exact ⟨e, hpast he, hkind, hdescribes⟩
  | @set c e set hnew =>
    refine ⟨fun name other hother => ?_, fun kind schema hschema => by cases hschema⟩
    rw [catalog, NameMap.get?_insert] at hother
    split at hother
    next hname =>
      cases hother
      exact hname.symm
    next => exact h.set_name name other hother
  | freezing => exact ⟨h.set_name, fun kind schema hschema => by cases hschema⟩
  | @kind r e schema hnew hdescribes =>
    refine ⟨h.set_name, fun kind other hother => ?_⟩
    rw [schema?, Registry.schema?, NameMap.get?_insert] at hother
    split at hother
    next hkind =>
      cases hother
      exact ⟨e, by simp, hkind.symm, hdescribes⟩
    next =>
      obtain ⟨e', he, hkind, hdescribes'⟩ := h.described kind other hother
      exact ⟨e', hpast he, hkind, hdescribes'⟩

theorem recorded_run {past : List Step} {s : SchemaState} (h : Recorded past s)
    (steps : List Step) : Recorded (past ++ steps) (s.run steps) := by
  induction steps generalizing past s with
  | nil => rwa [List.append_nil]
  | cons a steps ih =>
    have hnext := ih (recorded_effect h (effect_attempt s a))
    rwa [List.append_assoc] at hnext

/-! ### What no step changes -/

/-- Sets and kinds of the first state are those of the second, where there may be more. -/
structure Extends (s s' : SchemaState) : Prop where
  sets : ∀ name set, s.catalog.sets.get? name = some set → s'.catalog.sets.get? name = some set
  schemas : ∀ kind schema, s.schema? kind = some schema → s'.schema? kind = some schema

theorem Extends.refl (s : SchemaState) : s.Extends s := ⟨fun _ _ h => h, fun _ _ h => h⟩

theorem Extends.trans {s t u : SchemaState} (h : s.Extends t) (h' : t.Extends u) : s.Extends u :=
  ⟨fun name set hset => h'.sets name set (h.sets name set hset),
    fun kind schema hschema => h'.schemas kind schema (h.schemas kind schema hschema)⟩

theorem extends_effect {s s' : SchemaState} {a : Step} (h : Effect s a s') : s.Extends s' := by
  cases h with
  | nothing => exact .refl s
  | set hnew =>
    exact ⟨fun name set hset => NameMap.get?_insert_of_new hnew hset,
      fun kind schema h => by cases h⟩
  | freezing => exact ⟨fun _ _ h => h, fun kind schema h => by cases h⟩
  | kind hnew =>
    exact ⟨fun _ _ h => h, fun kind schema hschema => NameMap.get?_insert_of_new hnew hschema⟩

theorem extends_run (s : SchemaState) (steps : List Step) : s.Extends (s.run steps) := by
  induction steps generalizing s with
  | nil => exact .refl s
  | cons a steps ih => exact (extends_effect (effect_attempt s a)).trans (ih (s.attempt a))

theorem effect_frozen {r : Registry} {s : SchemaState} {a : Step} (h : Effect (frozen r) a s) :
    ∃ r', s = frozen r' := by
  cases h with
  | nothing => exact ⟨r, rfl⟩
  | kind => exact ⟨_, rfl⟩

theorem run_frozen (r : Registry) (steps : List Step) : ∃ r', (frozen r).run steps = frozen r' := by
  induction steps generalizing r with
  | nil => exact ⟨r, rfl⟩
  | cons a steps ih =>
    obtain ⟨r', hr'⟩ := effect_frozen (effect_attempt (frozen r) a)
    obtain ⟨r'', hr''⟩ := ih r'
    refine ⟨r'', ?_⟩
    rw [run, List.foldl_cons, hr']
    exact hr''

theorem growsTo_run (r : Registry) (steps : List Step) :
    ∃ r', (frozen r).run steps = frozen r' ∧ r.GrowsTo r' := by
  obtain ⟨r', hr'⟩ := run_frozen r steps
  have hextends := (frozen r).extends_run steps
  rw [hr'] at hextends
  exact ⟨r', hr', hextends.schemas⟩

/-! ## Whole histories -/

/-- **Whatever the steps are, a schema is sound, and later steps only add to it.** -/
theorem run_sound (steps : List Step) :
    let s := empty.run steps
    s.catalog.sets.names.Nodup ∧ s.kinds.Nodup ∧
      (∀ name set, s.catalog.sets.get? name = some set → set.name = name ∧
        ∀ a ∈ set.attributes, ∀ v ∈ a.defaultValue, v.type = a.type) ∧
      (∀ kind schema, s.schema? kind = some schema → schema.kind = kind ∧ schema.LooksUp ∧
        ∃ e, .register e ∈ steps ∧ e.kind = kind ∧ Describes s.catalog e schema) ∧
      ∀ more, s.Extends (s.run more) ∧ ∀ r, s = frozen r → ∃ r', s.run more = frozen r' ∧
        (∀ style doc checked, (Validator.mk r style).validateDocument doc = .ok checked →
          (Validator.mk r' style).validateDocument doc = .ok checked) ∧
        ∀ options source checked, check r options source = .ok checked →
          check r' options source = .ok checked := by
  intro s
  have hrecorded : Recorded steps s := recorded_run recorded_empty steps
  refine ⟨NameMap.nodup_names s.catalog.sets.sorted, ?_, ?_, ?_, ?_⟩
  · cases s with
    | growing c => exact List.nodup_nil
    | frozen r => exact NameMap.nodup_names r.components.sorted
  · intro name set hset
    exact ⟨hrecorded.set_name name set hset, fun a _ => a.type_defaultValue⟩
  · intro kind schema hschema
    obtain ⟨e, he, hkind, hdescribes⟩ := hrecorded.described kind schema hschema
    exact ⟨hdescribes.kind.trans hkind, schema.looksUp, e, he, hkind, hdescribes⟩
  · intro more
    refine ⟨s.extends_run more, fun r hr => ?_⟩
    obtain ⟨r', hr', hgrows⟩ := growsTo_run r more
    refine ⟨r', by rw [hr, hr'], fun style doc checked hchecked => ?_,
      fun options source checked hchecked => check_of_growsTo hgrows hchecked⟩
    exact Validator.validateDocument_under (v := ⟨r, style⟩) hgrows hchecked

/-- The second kind includes a set that is not there, so only the first one is taken in. -/
example :
    let label : SetEntry := ⟨"Label", [⟨"text", "string", "", true, none⟩]⟩
    let button : ComponentEntry := ⟨"button", "", ["Label"], []⟩
    let box : ComponentEntry := ⟨"box", "", ["Frame"], []⟩
    (empty.run [.addSet label, .freeze none, .register box, .register button]).kinds =
      ["button"] := by
  decide +kernel

end SchemaState

end UiMarkup
