import Mathlib.Data.List.Nodup
import UiMarkup.Proofs.Check.Values

/-!
# The index of a schema

A schema need not be searched: an index made once leads from every name to the
place where its attribute is listed. Looking a name up in the index comes to
the same as searching for it.
-/

namespace UiMarkup

/-- Where an attribute is listed: in one of the included sets, or among those of the kind itself. -/
inductive Location
  | included (set position : Nat)
  | own (position : Nat)
deriving DecidableEq, Repr

namespace ComponentSchema

/-! ## Filling an index -/

/-- Puts names into an index, one after the other, as long as none is taken. -/
def fill (index : NameMap Location) : List (String × Location) → Option (NameMap Location)
  | [] => some index
  | (name, loc) :: rest =>
    if index.contains name then none else fill (index.insert name loc) rest

/-- The names of some attributes, each with its place. -/
def locationsOf (place : Nat → Location) (attributes : List Attribute) : List (String × Location) :=
  attributes.zipIdx.map fun (a, position) => (a.name, place position)

/-- The names of all attributes in their order, each with the place that lists it. -/
def locations (included : List AttributeSet) (own : List Attribute) : List (String × Location) :=
  included.zipIdx.flatMap (fun (set, i) => locationsOf (.included i) set.attributes) ++
    locationsOf .own own

def index (s : ComponentSchema) : NameMap Location :=
  NameMap.empty.insertAll (locations s.included s.own)

/-- The attribute that a place lists, if there is such a place. -/
def at? (s : ComponentSchema) : Location → Option Attribute
  | .included i position =>
    match s.included[i]? with
    | some set => set.attributes[position]?
    | none => none
  | .own position => s.own[position]?

/-- The name of the set that a place belongs to. -/
def setAt? (s : ComponentSchema) : Location → Option String
  | .included i _ => s.included[i]?.map AttributeSet.name
  | .own _ => none

/-- An index is filled exactly when all names differ. -/
theorem fill_eq_some_iff {entries : List (String × Location)} {index filled : NameMap Location} :
    fill index entries = some filled ↔ (entries.map Prod.fst).Nodup ∧
      (∀ n ∈ entries.map Prod.fst, ¬ index.contains n) ∧ filled = index.insertAll entries := by
  induction entries generalizing index with
  | nil =>
    rw [fill, Option.some.injEq, eq_comm]
    simp [NameMap.insertAll]
  | cons entry rest ih =>
    obtain ⟨name, loc⟩ := entry
    rw [fill, List.map_cons, List.nodup_cons, List.forall_mem_cons]
    by_cases htaken : index.contains name
    · rw [if_pos htaken]
      simp [htaken]
    · rw [if_neg htaken, ih]
      have hinsert : ∀ n, (index.insert name loc).contains n ↔ n = name ∨ index.contains n := by
        intro n
        rw [NameMap.contains, NameMap.get?_insert, NameMap.contains]
        split
        next hn => simp [hn]
        next hn => simp [hn]
      constructor
      · rintro ⟨hnodup, hfree, rfl⟩
        refine ⟨⟨fun hname => hfree name hname ((hinsert name).mpr (.inl rfl)), hnodup⟩,
          ⟨htaken, fun n hn hold => hfree n hn ((hinsert n).mpr (.inr hold))⟩, rfl⟩
      · rintro ⟨⟨hname, hnodup⟩, ⟨-, hfree⟩, rfl⟩
        refine ⟨hnodup, fun n hn hnew => ?_, rfl⟩
        rcases (hinsert n).mp hnew with rfl | hold
        · exact hname hn
        · exact hfree n hn hold

/-! ## Places -/

theorem mem_locationsOf {place : Nat → Location} {attributes : List Attribute} {name : String}
    {loc : Location} : (name, loc) ∈ locationsOf place attributes ↔
      ∃ position a, attributes[position]? = some a ∧ a.name = name ∧ loc = place position := by
  simp only [locationsOf, List.mem_map, Prod.exists, List.mk_mem_zipIdx_iff_getElem?, Prod.mk.injEq]
  constructor
  · rintro ⟨a, position, ha, rfl, rfl⟩
    exact ⟨position, a, ha, rfl, rfl⟩
  · rintro ⟨position, a, ha, rfl, rfl⟩
    exact ⟨a, position, ha, rfl, rfl⟩

theorem fst_locationsOf (place : Nat → Location) (attributes : List Attribute) :
    (locationsOf place attributes).map Prod.fst = attributes.map Attribute.name := by
  have hnames : (locationsOf place attributes).map Prod.fst =
      (attributes.zipIdx.map Prod.fst).map Attribute.name := by
    rw [locationsOf, List.map_map, List.map_map]
    rfl
  rw [hnames, List.zipIdx_map_fst]

theorem fst_locations (included : List AttributeSet) (own : List Attribute) :
    (locations included own).map Prod.fst =
      (included.flatMap AttributeSet.attributes ++ own).map Attribute.name := by
  have hsets : included.flatMap AttributeSet.attributes =
      (included.zipIdx.map Prod.fst).flatMap AttributeSet.attributes := by
    rw [List.zipIdx_map_fst]
  rw [locations, List.map_append, List.map_append, fst_locationsOf, hsets, List.flatMap_map,
    List.map_flatMap, List.map_flatMap]
  simp only [fst_locationsOf]

variable {s : ComponentSchema} {name : String} {loc : Location}

/-- A name stands at each place that lists an attribute of this name. -/
theorem mem_locations_iff :
    (name, loc) ∈ locations s.included s.own ↔ ∃ a, s.at? loc = some a ∧ a.name = name := by
  simp only [locations, List.mem_append, List.mem_flatMap, Prod.exists,
    List.mk_mem_zipIdx_iff_getElem?, mem_locationsOf]
  constructor
  · rintro (⟨set, i, hset, position, a, ha, hname, rfl⟩ | ⟨position, a, ha, hname, rfl⟩)
    · exact ⟨a, by rw [at?, hset]; exact ha, hname⟩
    · exact ⟨a, ha, hname⟩
  · rintro ⟨a, ha, hname⟩
    cases loc with
    | included i position =>
      rw [at?] at ha
      cases hset : s.included[i]? with
      | none => simp [hset] at ha
      | some set =>
        rw [hset] at ha
        exact .inl ⟨set, i, hset, position, a, ha, hname, rfl⟩
    | own position => exact .inr ⟨position, a, ha, hname, rfl⟩

theorem mem_attributes_of_at? {a : Attribute} (h : s.at? loc = some a) : a ∈ s.attributes := by
  rw [attributes, List.mem_append, List.mem_flatMap]
  cases loc with
  | included i position =>
    rw [at?] at h
    cases hset : s.included[i]? with
    | none => simp [hset] at h
    | some set =>
      rw [hset] at h
      exact .inl ⟨set, List.mem_of_getElem? hset, List.mem_of_getElem? h⟩
  | own position => exact .inr (List.mem_of_getElem? h)

/-! ## Looking up -/

theorem nodup_locations (s : ComponentSchema) :
    ((locations s.included s.own).map Prod.fst).Nodup := by
  rw [fst_locations]
  exact s.nodup_names

/-- The index of a schema is the one that filling it makes. -/
theorem fill_locations (s : ComponentSchema) :
    fill .empty (locations s.included s.own) = some s.index :=
  fill_eq_some_iff.mpr ⟨s.nodup_locations, fun _ _ => by simp [NameMap.contains], rfl⟩

theorem get?_index : s.index.get? name = some loc ↔ ∃ a, s.at? loc = some a ∧ a.name = name := by
  rw [index, NameMap.get?_insertAll_empty s.nodup_locations, mem_locations_iff]

theorem contains_index : s.index.contains name ↔ name ∈ s.attributes.map Attribute.name := by
  have hempty : ¬ (NameMap.empty (α := Location)).contains name := by simp [NameMap.contains]
  rw [index, NameMap.contains_insertAll, fst_locations, ← attributes, or_iff_left hempty]

/-- Every place in the index lists an attribute, the one that a search finds. -/
theorem at?_index (s : ComponentSchema) (name : String) :
    (s.index.get? name).bind s.at? = s.attribute? name := by
  cases hloc : s.index.get? name with
  | none =>
    symm
    apply List.find?_eq_none.mpr
    intro a ha hname
    have hcontains : s.index.contains name :=
      contains_index.mpr (List.mem_map.mpr ⟨a, ha, by simpa using hname⟩)
    rw [NameMap.contains, hloc] at hcontains
    cases hcontains
  | some loc =>
    obtain ⟨a, ha, rfl⟩ := get?_index.mp hloc
    rw [Option.bind_some, ha, attribute?_of_mem (mem_attributes_of_at? ha)]

theorem size_index (s : ComponentSchema) : s.index.size = s.attributes.length := by
  have hempty : ∀ n ∈ (locations s.included s.own).map Prod.fst,
      ¬ (NameMap.empty (α := Location)).contains n := fun _ _ => by simp [NameMap.contains]
  have hlength := congrArg List.length (fst_locations s.included s.own)
  rw [List.length_map, List.length_map, ← attributes] at hlength
  rw [index, NameMap.size_insertAll s.nodup_locations hempty, hlength]
  exact Nat.zero_add _

/-- No two attributes share a name, so exactly one is found. -/
theorem attribute?_eq_some_iff {a : Attribute} :
    s.attribute? name = some a ↔ s.attributes.filter (·.name = name) = [a] := by
  constructor
  · intro h
    obtain ⟨ha, rfl⟩ := mem_of_attribute? h
    have hnodup : (s.attributes.filter (·.name = a.name)).Nodup :=
      (List.Nodup.of_map _ s.nodup_names).filter _
    refine List.perm_singleton.mp ((List.perm_ext_iff_of_nodup hnodup (List.nodup_singleton a)).mpr
      fun b => ?_)
    rw [List.mem_filter, List.mem_singleton]
    constructor
    · rintro ⟨hb, hname⟩
      exact List.inj_on_of_nodup_map s.nodup_names hb ha (by simpa using hname)
    · rintro rfl
      exact ⟨ha, by simp⟩
  · intro h
    obtain ⟨ha, hname⟩ := List.mem_filter.mp (h ▸ List.mem_singleton_self a)
    obtain rfl : a.name = name := by simpa using hname
    exact attribute?_of_mem ha

/-! ## Origins -/

theorem isSome_attribute?_iff {set : AttributeSet} :
    (set.attribute? name).isSome ↔ name ∈ set.attributes.map Attribute.name := by
  simp [AttributeSet.attribute?]

/-- A set that lists a name is the one that the index leads to. -/
theorem get?_index_of_set {set : AttributeSet} (hset : set ∈ s.included)
    (hname : name ∈ set.attributes.map Attribute.name) : ∃ i position,
      s.index.get? name = some (.included i position) ∧ s.included[i]? = some set := by
  obtain ⟨i, hi⟩ := List.mem_iff_getElem?.mp hset
  obtain ⟨a, ha, haname⟩ := List.mem_map.mp hname
  obtain ⟨position, hposition⟩ := List.mem_iff_getElem?.mp ha
  refine ⟨i, position, get?_index.mpr ⟨a, ?_, haname⟩, hi⟩
  rw [at?, hi]
  exact hposition

theorem included_unique {set other : AttributeSet} (hset : set ∈ s.included)
    (hother : other ∈ s.included) (hname : name ∈ set.attributes.map Attribute.name)
    (hname' : name ∈ other.attributes.map Attribute.name) : set = other := by
  obtain ⟨i, position, hloc, hi⟩ := get?_index_of_set hset hname
  obtain ⟨j, position', hloc', hj⟩ := get?_index_of_set hother hname'
  obtain ⟨rfl, -⟩ : i = j ∧ position = position' := by simpa using hloc.symm.trans hloc'
  exact Option.some.inj (hi.symm.trans hj)

theorem origin?_eq_some_iff {origin : String} :
    s.origin? name = some origin ↔
      ∃ set ∈ s.included, set.name = origin ∧ name ∈ set.attributes.map Attribute.name := by
  rw [origin?, Option.map_eq_some_iff]
  constructor
  · rintro ⟨set, hfound, rfl⟩
    have hlists := List.find?_some hfound
    exact ⟨set, List.mem_of_find?_eq_some hfound, rfl, isSome_attribute?_iff.mp hlists⟩
  · rintro ⟨set, hset, rfl, hname⟩
    cases hfound : s.included.find? fun set => (set.attribute? name).isSome with
    | none =>
      exact absurd (isSome_attribute?_iff.mpr hname) (List.find?_eq_none.mp hfound set hset)
    | some first =>
      have hlists := List.find?_some hfound
      have hsame : first = set := included_unique (List.mem_of_find?_eq_some hfound) hset
        (isSome_attribute?_iff.mp hlists) hname
      exact ⟨first, rfl, by rw [hsame]⟩

/-- The set that a place in the index belongs to is the one that a search finds. -/
theorem setAt?_index (s : ComponentSchema) (name : String) :
    (s.index.get? name).bind s.setAt? = s.origin? name := by
  apply Option.ext
  intro origin
  rw [origin?_eq_some_iff]
  constructor
  · intro h
    obtain ⟨loc, hloc, hset⟩ := Option.bind_eq_some_iff.mp h
    obtain ⟨a, ha, rfl⟩ := get?_index.mp hloc
    cases loc with
    | included i position =>
      obtain ⟨set, hi, rfl⟩ := Option.map_eq_some_iff.mp hset
      rw [at?, hi] at ha
      exact ⟨set, List.mem_of_getElem? hi, rfl,
        List.mem_map.mpr ⟨a, List.mem_of_getElem? ha, rfl⟩⟩
    | own position => cases hset
  · rintro ⟨set, hset, rfl, hname⟩
    obtain ⟨i, position, hloc, hi⟩ := get?_index_of_set hset hname
    rw [hloc, Option.bind_some, setAt?, hi]
    rfl

end ComponentSchema

end UiMarkup
