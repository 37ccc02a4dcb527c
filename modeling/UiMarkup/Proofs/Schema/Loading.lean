import UiMarkup.Proofs.Schema.Entries
import UiMarkup.Schema.Toml

/-!
# What a schema file means

A schema file is taken in set by set and then kind by kind, and each of these
steps can fail. What is loaded is what the entries describe, and the error is
that of the first step that fails.
-/

namespace UiMarkup

/-! ## Meaning -/

namespace SchemaFile

/-- The attributes of all sets and of all kinds. -/
def attributes (f : SchemaFile) : List AttributeEntry :=
  f.sets.flatMap SetEntry.attributes ++ f.components.flatMap ComponentEntry.attributes

/-- Sets of the file that have these names. -/
def Includes (f : SchemaFile) (names : List String) (included : List SetEntry) : Prop :=
  List.Forall₂ (fun n s => s ∈ f.sets ∧ s.name = n) names included

/-- The attributes that a kind has from the sets it includes, and then its own. -/
def merged (included : List SetEntry) (c : ComponentEntry) : List AttributeEntry :=
  included.flatMap SetEntry.attributes ++ c.attributes

structure Sound (f : SchemaFile) : Prop where
  types : ∀ e ∈ f.attributes, ∃ type, AttributeType.ofName? e.typeName = some type
  defaults : ∀ e ∈ f.attributes, ∀ type raw, AttributeType.ofName? e.typeName = some type →
    e.defaultRaw = some raw → ∃ v, type.parse raw = .ok v
  attributes_apart : ∀ s ∈ f.sets, (s.attributes.map AttributeEntry.name).Nodup
  sets_apart : (f.sets.map SetEntry.name).Nodup
  kinds_apart : (f.components.map ComponentEntry.kind).Nodup
  includes_known : ∀ c ∈ f.components, ∀ n ∈ c.includes, n ∈ f.sets.map SetEntry.name
  merged_apart : ∀ c ∈ f.components, ∀ included, f.Includes c.includes included →
    ((merged included c).map AttributeEntry.name).Nodup

/-- The schema that an entry describes, on the sets of the file. -/
structure DescribesKind (f : SchemaFile) (c : ComponentEntry) (schema : ComponentSchema) :
    Prop where
  kind : schema.kind = c.kind
  description : schema.description = c.description
  included : List.Forall₂ (fun n set => ∃ s ∈ f.sets, s.name = n ∧ s.Describes set)
    c.includes schema.included
  own : List.Forall₂ AttributeEntry.Describes c.attributes schema.own

/-- The registry with the sets and the schemas that the file describes, and no others. -/
structure Describes (f : SchemaFile) (r : Registry) : Prop where
  name : r.name = f.name
  sets : ∀ n set, r.catalog.sets.get? n = some set ↔ ∃ s ∈ f.sets, s.name = n ∧ s.Describes set
  kinds : ∀ kind schema, r.schema? kind = some schema ↔
    ∃ c ∈ f.components, c.kind = kind ∧ f.DescribesKind c schema

/-! ## Steps -/

/-- One thing that can fail. The sets or the kinds in front of it are given with it. -/
inductive Step
  | attribute (e : AttributeEntry)
  | distinct (s : SetEntry)
  | setName (earlier : List SetEntry) (s : SetEntry)
  | registration (earlier : List ComponentEntry) (c : ComponentEntry)

/-- In a set its attributes come first, then their names, and then its own name. -/
def setSteps (earlier : List SetEntry) : List SetEntry → List Step
  | [] => []
  | s :: ss =>
    s.attributes.map .attribute ++ [.distinct s] ++
      ([.setName earlier s] ++ setSteps (earlier ++ [s]) ss)

/-- In a kind its attributes come first, and then its registration. -/
def kindSteps (earlier : List ComponentEntry) : List ComponentEntry → List Step
  | [] => []
  | c :: cs =>
    c.attributes.map .attribute ++ [.registration earlier c] ++ kindSteps (earlier ++ [c]) cs

def steps (f : SchemaFile) : List Step := setSteps [] f.sets ++ kindSteps [] f.components

/-- The names of these attributes, each with the place that declares it. -/
def claims (included : List SetEntry) (c : ComponentEntry) : List (String × Origin) :=
  included.flatMap SetEntry.claims ++ c.attributes.map fun e => (e.name, .own)

/-- Why a kind is not registered behind the `earlier` ones. Only the first reason is reported. -/
inductive Refuses (f : SchemaFile) (earlier : List ComponentEntry) (c : ComponentEntry) :
    SchemaError → Prop
  | known (h : c.kind ∈ earlier.map ComponentEntry.kind) :
      Refuses f earlier c (.duplicateComponentKind c.kind)
  | unknownSet {front rest : List String} {name : String}
      (hnew : c.kind ∉ earlier.map ComponentEntry.kind) (hnames : c.includes = front ++ name :: rest)
      (hfront : ∀ n ∈ front, n ∈ f.sets.map SetEntry.name)
      (hname : name ∉ f.sets.map SetEntry.name) :
      Refuses f earlier c (.unknownAttributeSet name)
  | repeated {included : List SetEntry} {name : String} {first second : Origin}
      (hnew : c.kind ∉ earlier.map ComponentEntry.kind)
      (hincluded : f.Includes c.includes included)
      (h : FirstRepeat (claims included c) name first second) :
      Refuses f earlier c (.duplicateAttributeName name (.component c.kind) first second)

/-- Why a step fails, in terms of what stands in the file. -/
def Fails (f : SchemaFile) : Step → SchemaError → Prop
  | .attribute e, err => e.Fails err
  | .distinct s, err => s.Repeats err
  | .setName earlier s, err =>
    s.name ∈ earlier.map SetEntry.name ∧ err = .duplicateSetName s.name
  | .registration earlier c, err => f.Refuses earlier c err

end SchemaFile

/-! ## Sets -/

/-- The catalog has the sets that these entries describe. -/
def Catalog.Holds (c : Catalog) (entries : List SetEntry) : Prop :=
  c.sets.Collects SetEntry.name SetEntry.Describes entries

namespace SchemaFile

variable {f : SchemaFile}

theorem takes_attributes (f : SchemaFile) (es : List AttributeEntry) :
    Takes f.Fails (es.map .attribute) (AttributeEntry.declareAll es) :=
  Takes.map (f := Step.attribute) (fun _ _ => Iff.rfl) (AttributeEntry.takes_declareAll es)

/-- A set is built from its attributes, and then its names are compared. -/
theorem takes_build (f : SchemaFile) (s : SetEntry) :
    Takes f.Fails (s.attributes.map .attribute ++ [.distinct s]) s.build := by
  refine (f.takes_attributes s.attributes).bind fun as has err => ?_
  rw [firstFails_singleton]
  exact SetEntry.ofList_eq_error_iff (AttributeEntry.declareAll_eq_ok_iff.mp has)

section sets

variable {c c' : Catalog} {earlier ss : List SetEntry}

theorem register_set_eq_ok_iff {set : AttributeSet} :
    c.register set = .ok c' ↔
      ¬ c.sets.contains set.name ∧ c' = ⟨c.sets.insert set.name set⟩ := by
  unfold Catalog.register
  cases c.sets.contains set.name <;> simp [eq_comm]

theorem register_set_eq_error_iff {set : AttributeSet} {err : SchemaError} :
    c.register set = .error err ↔
      c.sets.contains set.name ∧ err = .duplicateSetName set.name := by
  unfold Catalog.register
  cases c.sets.contains set.name <;> simp [eq_comm]

theorem takes_register_set (h : c.Holds earlier) {s : SetEntry} {set : AttributeSet}
    (hset : s.Describes set) : Takes f.Fails [.setName earlier s] (c.register set) := by
  intro err
  rw [firstFails_singleton, register_set_eq_error_iff, NameMap.Collects.contains_iff h, hset.name]
  rfl

theorem holds_register_set (h : c.Holds earlier) {s : SetEntry} {set : AttributeSet}
    (hset : s.Describes set) (hregister : c.register set = .ok c') :
    c'.Holds (earlier ++ [s]) := by
  obtain ⟨hnew, rfl⟩ := register_set_eq_ok_iff.mp hregister
  rw [NameMap.Collects.contains_iff h] at hnew
  rw [hset.name] at hnew ⊢
  exact NameMap.Collects.insert h hset (fun _ => hset.unique) hnew

theorem takes_registerAll_sets (h : c.Holds earlier) :
    Takes f.Fails (setSteps earlier ss) (c.registerAll ss) := by
  induction ss generalizing c earlier with
  | nil => exact .ok c
  | cons s ss ih =>
    refine (f.takes_build s).bind fun set hbuild => ?_
    have hset := SetEntry.build_eq_ok_iff.mp hbuild
    exact (takes_register_set h hset).bind fun c' hregister => ih (holds_register_set h hset hregister)

theorem holds_registerAll_sets (h : c.Holds earlier) (hregister : c.registerAll ss = .ok c') :
    c'.Holds (earlier ++ ss) := by
  induction ss generalizing c earlier with
  | nil =>
    cases hregister
    rwa [List.append_nil]
  | cons s ss ih =>
    simp only [Catalog.registerAll, bind_eq_ok_iff] at hregister
    obtain ⟨set, hbuild, next, hnext, hrest⟩ := hregister
    have hset := SetEntry.build_eq_ok_iff.mp hbuild
    have hall := ih (holds_register_set h hset hnext) hrest
    rwa [List.append_assoc] at hall

end sets

/-! ## Kinds -/

/-- The registry has the sets of the file, and the kinds that these entries describe. -/
structure Holds (f : SchemaFile) (r : Registry) (entries : List ComponentEntry) : Prop where
  sets : r.catalog.Holds f.sets
  name : r.name = f.name
  kinds : r.components.Collects ComponentEntry.kind f.DescribesKind entries

section found

variable {catalog : Catalog} {names : List String} {included : List SetEntry}

theorem described_found (h : catalog.Holds f.sets) (hknown : ∀ n ∈ names, catalog.sets.contains n) :
    List.Forall₂ (fun n set => ∃ s ∈ f.sets, s.name = n ∧ s.Describes set) names
      (catalog.found names) := by
  induction names with
  | nil => exact .nil
  | cons n names ih =>
    obtain ⟨hn, hnames⟩ := List.forall_mem_cons.mp hknown
    obtain ⟨set, hset⟩ := NameMap.contains_iff.mp hn
    rw [Catalog.found, List.filterMap_cons_some hset]
    exact .cons ((h.get? n set).mp hset) (ih hnames)

theorem found_of_described (h : catalog.Holds f.sets) {sets : List AttributeSet}
    (hsets : List.Forall₂ (fun n set => ∃ s ∈ f.sets, s.name = n ∧ s.Describes set) names sets) :
    (∀ n ∈ names, catalog.sets.contains n) ∧ catalog.found names = sets := by
  induction hsets with
  | nil => exact ⟨nofun, rfl⟩
  | @cons n set names sets hset _ ih =>
    obtain ⟨hknown, rfl⟩ := ih
    have hget := (h.get? n set).mpr hset
    exact ⟨List.forall_mem_cons.mpr ⟨NameMap.contains_iff.mpr ⟨set, hget⟩, hknown⟩,
      List.filterMap_cons_some hget⟩

theorem exists_includes (hknown : ∀ n ∈ names, n ∈ f.sets.map SetEntry.name) :
    ∃ included, f.Includes names included := by
  induction names with
  | nil => exact ⟨[], .nil⟩
  | cons n names ih =>
    obtain ⟨hn, hnames⟩ := List.forall_mem_cons.mp hknown
    obtain ⟨s, hs, hname⟩ := List.mem_map.mp hn
    obtain ⟨included, hincluded⟩ := ih hnames
    exact ⟨s :: included, .cons ⟨hs, hname⟩ hincluded⟩

theorem known_of_includes (h : f.Includes names included) :
    ∀ n ∈ names, n ∈ f.sets.map SetEntry.name := by
  induction h with
  | nil => nofun
  | cons hs _ ih => exact List.forall_mem_cons.mpr ⟨List.mem_map.mpr ⟨_, hs⟩, ih⟩

theorem claims_found (h : catalog.Holds f.sets) (hincluded : f.Includes names included)
    {c : ComponentEntry} {own : List Attribute}
    (hown : List.Forall₂ AttributeEntry.Describes c.attributes own) :
    ComponentSchema.claims (catalog.found names) own = claims included c := by
  have hsets : (catalog.found names).flatMap
      (fun set => AttributeSet.claims (.set set.name) set.attributes) =
        included.flatMap SetEntry.claims := by
    induction hincluded with
    | nil => rfl
    | @cons n s names included hs _ ih =>
      obtain ⟨set, hset⟩ := h.described s hs.1
      have hget := (h.get? n set).mpr ⟨s, hs.1, hs.2, hset⟩
      have hclaims := AttributeEntry.claims_of_describes hset.attributes (.set set.name)
      rw [Catalog.found, List.filterMap_cons_some hget, List.flatMap_cons, List.flatMap_cons,
        hclaims, hset.name]
      exact congrArg (s.claims ++ ·) ih
  rw [ComponentSchema.claims, claims, hsets, AttributeEntry.claims_of_describes hown]

end found

theorem fst_claims (included : List SetEntry) (c : ComponentEntry) :
    (claims included c).map Prod.fst = (merged included c).map AttributeEntry.name := by
  simp [claims, merged, List.map_flatMap, SetEntry.fst_claims, Function.comp_def]

section kinds

variable {r r' : Registry} {earlier cs : List ComponentEntry} {c : ComponentEntry}
  {own : List Attribute}

theorem Holds.schema?_eq_none_iff (h : f.Holds r earlier) {kind : String} :
    r.schema? kind = none ↔ kind ∉ earlier.map ComponentEntry.kind :=
  h.kinds.get?_eq_none_iff

/-- A registry refuses a kind for what stands in the file. -/
theorem refuses_iff (h : f.Holds r earlier)
    (hown : List.Forall₂ AttributeEntry.Describes c.attributes own) {err : SchemaError} :
    r.Refuses c.kind c.includes own err ↔ f.Refuses earlier c err := by
  have hcontains (n : String) : r.catalog.sets.contains n ↔ n ∈ f.sets.map SetEntry.name :=
    NameMap.Collects.contains_iff h.sets
  constructor
  · intro hrefuses
    cases hrefuses with
    | known hkind =>
      rw [ne_eq, h.schema?_eq_none_iff, not_not] at hkind
      exact .known hkind
    | unknownSet hnew hunknown =>
      obtain ⟨front, rest, hnames, hfront, hname⟩ := hunknown
      simp only [hcontains] at hfront hname
      exact .unknownSet (h.schema?_eq_none_iff.mp hnew) hnames hfront hname
    | repeated hnew hknown hrepeat =>
      simp only [hcontains] at hknown
      obtain ⟨included, hincluded⟩ := exists_includes hknown
      rw [Registry.declaredNames, claims_found h.sets hincluded hown] at hrepeat
      exact .repeated (h.schema?_eq_none_iff.mp hnew) hincluded hrepeat
  · intro hrefuses
    cases hrefuses with
    | known hkind =>
      refine .known ?_
      rwa [ne_eq, h.schema?_eq_none_iff, not_not]
    | @unknownSet front rest name hnew hnames hfront hname =>
      simp only [← hcontains] at hfront hname
      exact .unknownSet (h.schema?_eq_none_iff.mpr hnew) ⟨front, rest, hnames, hfront, hname⟩
    | @repeated included name first second hnew hincluded hrepeat =>
      have hknown := known_of_includes hincluded
      simp only [← hcontains] at hknown
      refine .repeated (h.schema?_eq_none_iff.mpr hnew) hknown ?_
      rwa [Registry.declaredNames, claims_found h.sets hincluded hown]

theorem takes_registerEntry (h : f.Holds r earlier) :
    Takes f.Fails (c.attributes.map .attribute ++ [.registration earlier c])
      (r.registerEntry c) := by
  refine (f.takes_attributes c.attributes).bind fun own hown err => ?_
  rw [firstFails_singleton, Registry.register_eq_error_iff]
  exact refuses_iff h (AttributeEntry.declareAll_eq_ok_iff.mp hown)

theorem describesKind_iff (h : r.catalog.Holds f.sets) {schema : ComponentSchema} :
    f.DescribesKind c schema ↔ List.Forall₂ AttributeEntry.Describes c.attributes schema.own ∧
      (∀ n ∈ c.includes, r.catalog.sets.contains n) ∧ schema.kind = c.kind ∧
      schema.description = c.description ∧ schema.included = r.catalog.found c.includes := by
  constructor
  · intro hschema
    obtain ⟨hknown, hfound⟩ := found_of_described h hschema.included
    exact ⟨hschema.own, hknown, hschema.kind, hschema.description, hfound.symm⟩
  · rintro ⟨hown, hknown, hkind, hdescription, hincluded⟩
    exact ⟨hkind, hdescription, hincluded ▸ described_found h hknown, hown⟩

theorem describesKind_unique (h : r.catalog.Holds f.sets) {schema schema' : ComponentSchema}
    (hschema : f.DescribesKind c schema) (hschema' : f.DescribesKind c schema') :
    schema = schema' := by
  obtain ⟨hown, -, hkind, hdescription, hincluded⟩ := (describesKind_iff h).mp hschema
  obtain ⟨hown', -, hkind', hdescription', hincluded'⟩ := (describesKind_iff h).mp hschema'
  have hsame := (AttributeEntry.declareAll_eq_ok_iff.mpr hown).symm.trans
    (AttributeEntry.declareAll_eq_ok_iff.mpr hown')
  cases schema
  cases schema'
  simp_all

theorem registerEntry_eq_ok (h : f.Holds r earlier) (hregister : r.registerEntry c = .ok r') :
    ∃ schema, f.DescribesKind c schema ∧ r.schema? c.kind = none ∧
      r' = { r with components := r.components.insert c.kind schema } := by
  simp only [Registry.registerEntry, bind_eq_ok_iff, Registry.register_eq_ok_iff,
    Registry.resolve_eq_ok_iff] at hregister
  obtain ⟨own, hown, schema, ⟨hregistrable, hkind, hdescription, hincluded, rfl⟩, rfl⟩ := hregister
  have hown := AttributeEntry.declareAll_eq_ok_iff.mp hown
  exact ⟨schema, (describesKind_iff h.sets).mpr ⟨hown, hregistrable.known, hkind, hdescription,
    hincluded⟩, hregistrable.new, rfl⟩

theorem holds_registerEntry (h : f.Holds r earlier) (hregister : r.registerEntry c = .ok r') :
    f.Holds r' (earlier ++ [c]) := by
  obtain ⟨schema, hschema, hnew, rfl⟩ := registerEntry_eq_ok h hregister
  rw [h.schema?_eq_none_iff] at hnew
  exact ⟨h.sets, h.name,
    h.kinds.insert hschema (fun _ => describesKind_unique h.sets hschema) hnew⟩

theorem takes_registerAll (h : f.Holds r earlier) :
    Takes f.Fails (kindSteps earlier cs) (r.registerAll cs) := by
  induction cs generalizing r earlier with
  | nil => exact .ok r
  | cons c cs ih =>
    exact (takes_registerEntry h).bind fun r' hregister => ih (holds_registerEntry h hregister)

theorem holds_registerAll (h : f.Holds r earlier) (hregister : r.registerAll cs = .ok r') :
    f.Holds r' (earlier ++ cs) := by
  induction cs generalizing r earlier with
  | nil =>
    cases hregister
    rwa [List.append_nil]
  | cons c cs ih =>
    simp only [Registry.registerAll, bind_eq_ok_iff] at hregister
    obtain ⟨next, hnext, hrest⟩ := hregister
    have hall := ih (holds_registerEntry h hnext) hrest
    rwa [List.append_assoc] at hall

end kinds

/-! ## Whole files -/

theorem holds_ofCatalog {catalog : Catalog} (h : catalog.Holds f.sets) :
    f.Holds (.ofCatalog catalog f.name) [] where
  sets := h
  name := rfl
  kinds := .empty

theorem takes_load (f : SchemaFile) : Takes f.Fails f.steps f.load := by
  refine (takes_registerAll_sets .empty).bind fun catalog hcatalog => ?_
  exact takes_registerAll (holds_ofCatalog (holds_registerAll_sets .empty hcatalog))

theorem describes_of_load {r : Registry} (h : f.load = .ok r) : f.Describes r := by
  simp only [load, bind_eq_ok_iff] at h
  obtain ⟨catalog, hcatalog, hkinds⟩ := h
  have hall := holds_registerAll (holds_ofCatalog (holds_registerAll_sets .empty hcatalog)) hkinds
  exact ⟨hall.name, hall.sets.get?, hall.kinds.get?⟩

end SchemaFile

end UiMarkup
