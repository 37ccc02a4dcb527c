import UiMarkup.Proofs.Check.Order
import UiMarkup.Proofs.Check.Values
import UiMarkup.Proofs.Declaration.Walk

/-!
# What is wrong with declarations

Each thing that can be wrong has a site: a declaration and what is meant in it.
A defect at a site is stated without any walk. The validator reports the
defects, each once, in the order of the source.
-/

namespace UiMarkup

open ValidationError (Found sortByStart)

/-! ## Sites -/

/-- The kind, an assignment by its number, or an attribute of the schema by its number. -/
inductive Slot
  | kind
  | assignment (i : Nat)
  | attribute (i : Nat)
deriving DecidableEq

def Slot.Before : Slot → Slot → Prop
  | .kind, .kind => False
  | .kind, _ => True
  | .assignment i, .assignment j => i < j
  | .assignment _, .attribute _ => True
  | .attribute i, .attribute j => i < j
  | _, _ => False

structure Site where
  path : List Nat
  slot : Slot
deriving DecidableEq

/-- The order of a walk: a declaration in front of its children, and its kind and assignments
in front of the attributes that it lacks. -/
def Site.Before (s t : Site) : Prop :=
  s.path < t.path ∨ s.path = t.path ∧ s.slot.Before t.slot

theorem Slot.not_before_self (s : Slot) : ¬ s.Before s := by
  cases s <;> simp [Slot.Before]

theorem Site.ne_of_before {s t : Site} (h : s.Before t) : s ≠ t := by
  rintro rfl
  rcases h with h | ⟨-, h⟩
  · exact List.lt_irrefl _ h
  · exact Slot.not_before_self _ h

/-! ## Defects -/

/-- What is wrong with the declarations `ds` under a registry and a stylesheet. -/
inductive Defect (v : Validator) (ds : List Declaration) : Site → ValidationError → Prop
  | unknownKind {path : List Nat} {d : Declaration} :
      Document.descend? ⟨ds⟩ path = some d → v.registry.schema? d.kindName = none →
      Defect v ds ⟨path, .kind⟩ ⟨d.kind.span, .unknownKind d.kindName⟩
  | unknownAttribute {path : List Nat} {d : Declaration} {schema : ComponentSchema} {i : Nat}
      {a : Assignment} :
      Document.descend? ⟨ds⟩ path = some d → v.registry.schema? d.kindName = some schema →
      d.assignments[i]? = some a → schema.attribute? a.name.value = none →
      Defect v ds ⟨path, .assignment i⟩ ⟨a.name.span, .unknownAttribute schema.kind a.name.value⟩
  | invalidLiteral {path : List Nat} {d : Declaration} {schema : ComponentSchema} {i : Nat}
      {a : Assignment} {declared : Attribute} {e : LiteralError} :
      Document.descend? ⟨ds⟩ path = some d → v.registry.schema? d.kindName = some schema →
      d.assignments[i]? = some a → schema.attribute? a.name.value = some declared →
      declared.type.parse a.value.value = .error e →
      Defect v ds ⟨path, .assignment i⟩ ⟨a.value.span, .invalidLiteral a.name.value e⟩
  | missing {path : List Nat} {d : Declaration} {schema : ComponentSchema} {i : Nat}
      {a : Attribute} :
      Document.descend? ⟨ds⟩ path = some d → v.registry.schema? d.kindName = some schema →
      schema.attributes[i]? = some a → a.required → a.defaultValue = none →
      (∀ b ∈ d.assignments, b.name.value ≠ a.name) → ¬ v.Supplies d a.name a.type →
      Defect v ds ⟨path, .attribute i⟩ ⟨d.kind.span, .missingRequired d.kindName a.name⟩

/-! ## What the validator finds in one declaration -/

/-- What is found in the items of a list, each marked with the number of its item. -/
def numbered {α : Type} (slot : Nat → Slot) (find? : α → Option ValidationError) (items : List α) :
    Found Slot :=
  items.zipIdx.filterMap fun item => (find? item.1).map fun e => (slot item.2, e)

section numbered

variable {α : Type} {slot : Nat → Slot} {find? : α → Option ValidationError} {items : List α}

theorem map_snd_numbered : (numbered slot find? items).map Prod.snd = items.filterMap find? := by
  conv_rhs => rw [← List.zipIdx_map_fst 0 items, List.filterMap_map]
  rw [numbered, List.map_filterMap]
  congr 1
  funext item
  simp [Option.map_map, Function.comp_def]

theorem mem_numbered {s : Slot} {e : ValidationError} :
    (s, e) ∈ numbered slot find? items ↔
      ∃ i a, items[i]? = some a ∧ find? a = some e ∧ s = slot i := by
  rw [numbered, List.mem_filterMap]
  constructor
  · rintro ⟨⟨a, i⟩, hmem, hfind⟩
    obtain ⟨e', he', heq⟩ := Option.map_eq_some_iff.mp hfind
    obtain ⟨rfl, rfl⟩ := Prod.mk.inj heq
    exact ⟨i, a, List.mem_zipIdx_iff_getElem?.mp hmem, he', rfl⟩
  · rintro ⟨i, a, hget, hfind, rfl⟩
    refine ⟨(a, i), List.mem_zipIdx_iff_getElem?.mpr hget, ?_⟩
    rw [hfind, Option.map_some]

theorem pairwise_numbered (hslot : ∀ i j, i < j → (slot i).Before (slot j)) :
    (numbered slot find? items).Pairwise fun x y => x.1.Before y.1 := by
  rw [numbered, List.pairwise_filterMap]
  have hnumbers : items.zipIdx.Pairwise fun x y => x.2 < y.2 := by
    rw [← List.pairwise_map (f := Prod.snd), List.zipIdx_map_snd]
    exact List.pairwise_lt_range'
  refine hnumbers.imp ?_
  intro x y hlt found hfound found' hfound'
  obtain ⟨_, -, rfl⟩ := Option.map_eq_some_iff.mp hfound
  obtain ⟨_, -, rfl⟩ := Option.map_eq_some_iff.mp hfound'
  exact hslot _ _ hlt

end numbered

namespace Validator

/-- The error of an assignment that gives no value. -/
def refusal? (schema : ComponentSchema) (a : Assignment) : Option ValidationError :=
  match schema.resolve? a with
  | .ok _ => none
  | .error e => some e

/-- The error of an attribute that has to be assigned and is not. -/
def absence? (v : Validator) (schema : ComponentSchema) (d : Declaration) (a : Attribute) :
    Option ValidationError :=
  if a.mustBeAssigned && (!(v.attributes schema d).contains a.name && !d.assigns a.name) then
    some ⟨d.kind.span, .missingRequired d.kindName a.name⟩
  else none

/-- `errorsAt` with the slots of the errors. -/
def foundAt (v : Validator) (d : Declaration) : Found Slot :=
  match v.registry.schema? d.kindName with
  | none => [(.kind, ⟨d.kind.span, .unknownKind d.kindName⟩)]
  | some schema =>
    numbered .assignment (refusal? schema) d.assignments
      ++ numbered .attribute (v.absence? schema d) schema.attributes

theorem map_snd_foundAt (v : Validator) (d : Declaration) :
    (v.foundAt d).map Prod.snd = v.errorsAt d := by
  unfold foundAt errorsAt
  cases v.registry.schema? d.kindName with
  | none => rfl
  | some schema =>
    have habsent : schema.attributes.filterMap (v.absence? schema d) =
        (v.missing schema d).map fun a => ⟨d.kind.span, .missingRequired d.kindName a.name⟩ := by
      rw [missing, ComponentSchema.requiredAttributes, List.filter_filter, ← List.filterMap_eq_map,
        List.filterMap_filter]
      congr 1
      funext a
      simp only [absence?, Bool.and_comm a.mustBeAssigned]
      rfl
    rw [List.map_append, map_snd_numbered, map_snd_numbered, habsent]
    rfl

theorem refusal?_eq_some_iff {schema : ComponentSchema} {a : Assignment} {e : ValidationError} :
    refusal? schema a = some e ↔ schema.resolve? a = .error e := by
  unfold refusal?
  cases schema.resolve? a <;> simp

theorem absence?_eq_some_iff {v : Validator} {schema : ComponentSchema} {d : Declaration}
    {a : Attribute} (h : a ∈ schema.attributes) {e : ValidationError} :
    v.absence? schema d a = some e ↔
      a.required ∧ a.defaultValue = none ∧ (∀ b ∈ d.assignments, b.name.value ≠ a.name) ∧
        ¬ v.Supplies d a.name a.type ∧ e = ⟨d.kind.span, .missingRequired d.kindName a.name⟩ := by
  rw [absence?, Option.ite_none_right_eq_some, Bool.and_eq_true, absent_iff h,
    Attribute.mustBeAssigned, Bool.and_eq_true, Option.isNone_iff_eq_none, Option.some_inj]
  constructor
  · rintro ⟨⟨⟨hrequired, hdefault⟩, hassigned, hsupplied⟩, rfl⟩
    exact ⟨hrequired, hdefault, hassigned, hsupplied, rfl⟩
  · rintro ⟨hrequired, hdefault, hassigned, hsupplied, rfl⟩
    exact ⟨⟨⟨hrequired, hdefault⟩, hassigned, hsupplied⟩, rfl⟩

theorem foundAt_of_unknown {v : Validator} {d : Declaration}
    (h : v.registry.schema? d.kindName = none) :
    v.foundAt d = [(.kind, ⟨d.kind.span, .unknownKind d.kindName⟩)] := by
  rw [foundAt, h]

theorem mem_foundAt_iff {v : Validator} {d : Declaration} {schema : ComponentSchema}
    (h : v.registry.schema? d.kindName = some schema) {slot : Slot} {e : ValidationError} :
    (slot, e) ∈ v.foundAt d ↔
      (∃ i a, d.assignments[i]? = some a ∧ schema.resolve? a = .error e ∧ slot = .assignment i) ∨
      ∃ i a, schema.attributes[i]? = some a ∧ v.absence? schema d a = some e ∧
        slot = .attribute i := by
  rw [foundAt, h]
  simp only [List.mem_append, mem_numbered, refusal?_eq_some_iff]

theorem defect_of_mem_foundAt {v : Validator} {ds : List Declaration} {path : List Nat}
    {d : Declaration} (hd : Document.descend? ⟨ds⟩ path = some d) {slot : Slot}
    {e : ValidationError} (h : (slot, e) ∈ v.foundAt d) : Defect v ds ⟨path, slot⟩ e := by
  cases hschema : v.registry.schema? d.kindName with
  | none =>
    rw [foundAt_of_unknown hschema] at h
    obtain ⟨rfl, rfl⟩ := Prod.mk.inj (List.mem_singleton.mp h)
    exact .unknownKind hd hschema
  | some schema =>
    rcases (mem_foundAt_iff hschema).mp h with ⟨i, a, hget, hfind, rfl⟩ | ⟨i, a, hget, hfind, rfl⟩
    · rw [ComponentSchema.resolve?_eq_error_iff] at hfind
      obtain ⟨hunknown, rfl⟩ | ⟨declared, literal, hdeclared, hparse, rfl⟩ := hfind
      · exact .unknownAttribute hd hschema hget hunknown
      · exact .invalidLiteral hd hschema hget hdeclared hparse
    · rw [absence?_eq_some_iff (List.mem_of_getElem? hget)] at hfind
      obtain ⟨hrequired, hdefault, hassigned, hsupplied, rfl⟩ := hfind
      exact .missing hd hschema hget hrequired hdefault hassigned hsupplied

theorem mem_foundAt_of_defect {v : Validator} {ds : List Declaration} {path : List Nat}
    {slot : Slot} {e : ValidationError} (h : Defect v ds ⟨path, slot⟩ e) :
    ∃ d, Document.descend? ⟨ds⟩ path = some d ∧ (slot, e) ∈ v.foundAt d := by
  cases h with
  | unknownKind hd hschema =>
    refine ⟨_, hd, ?_⟩
    rw [foundAt_of_unknown hschema]
    exact List.mem_singleton_self _
  | unknownAttribute hd hschema hget hunknown =>
    have hresolve := ComponentSchema.resolve?_eq_error_iff.mpr (.inl ⟨hunknown, rfl⟩)
    exact ⟨_, hd, (mem_foundAt_iff hschema).mpr (.inl ⟨_, _, hget, hresolve, rfl⟩)⟩
  | invalidLiteral hd hschema hget hdeclared hparse =>
    have hresolve :=
      ComponentSchema.resolve?_eq_error_iff.mpr (.inr ⟨_, _, hdeclared, hparse, rfl⟩)
    exact ⟨_, hd, (mem_foundAt_iff hschema).mpr (.inl ⟨_, _, hget, hresolve, rfl⟩)⟩
  | missing hd hschema hget hrequired hdefault hassigned hsupplied =>
    have habsent := (absence?_eq_some_iff (List.mem_of_getElem? hget)).mpr
      ⟨hrequired, hdefault, hassigned, hsupplied, rfl⟩
    exact ⟨_, hd, (mem_foundAt_iff hschema).mpr (.inr ⟨_, _, hget, habsent, rfl⟩)⟩

theorem pairwise_foundAt (v : Validator) (d : Declaration) :
    (v.foundAt d).Pairwise fun x y => x.1.Before y.1 := by
  unfold foundAt
  cases v.registry.schema? d.kindName with
  | none => exact List.pairwise_singleton _ _
  | some schema =>
    refine List.pairwise_append.mpr
      ⟨pairwise_numbered fun _ _ => id, pairwise_numbered fun _ _ => id, ?_⟩
    intro x hx y hy
    obtain ⟨_, _, -, -, hslot⟩ := mem_numbered.mp hx
    obtain ⟨_, _, -, -, hslot'⟩ := mem_numbered.mp hy
    rw [hslot, hslot']
    trivial

/-! ## What it finds in all of them -/

/-- The errors of declarations with their sites, as the walk meets them. -/
def found (v : Validator) (ds : List Declaration) : Found Site :=
  (Declaration.walkAll 0 ds).flatMap fun met =>
    (v.foundAt met.2).map fun x => (⟨met.1, x.1⟩, x.2)

theorem map_snd_found (v : Validator) (ds : List Declaration) :
    (v.found ds).map Prod.snd = v.errors ds := by
  rw [found, errors, List.map_flatMap, ← Declaration.map_snd_walkAll 0, List.flatMap_map]
  simp only [List.map_map, Function.comp_def, ← map_snd_foundAt]

theorem mem_found {v : Validator} {ds : List Declaration} {site : Site} {e : ValidationError} :
    (site, e) ∈ v.found ds ↔ Defect v ds site e := by
  rw [found, List.mem_flatMap]
  constructor
  · rintro ⟨⟨path, d⟩, hmet, hfound⟩
    obtain ⟨⟨slot, e⟩, hslot, heq⟩ := List.mem_map.mp hfound
    obtain ⟨rfl, rfl⟩ := Prod.mk.inj heq
    exact defect_of_mem_foundAt ((Declaration.mem_walkAll_zero ds path d).mp hmet) hslot
  · intro h
    obtain ⟨path, slot⟩ := site
    obtain ⟨d, hd, hfound⟩ := mem_foundAt_of_defect h
    exact ⟨(path, d), (Declaration.mem_walkAll_zero ds path d).mpr hd,
      List.mem_map.mpr ⟨_, hfound, rfl⟩⟩

theorem pairwise_found (v : Validator) (ds : List Declaration) :
    (v.found ds).Pairwise fun x y => x.1.Before y.1 := by
  rw [found, List.pairwise_flatMap]
  constructor
  · intro met _
    rw [List.pairwise_map]
    exact (v.pairwise_foundAt met.2).imp fun h => .inr ⟨rfl, h⟩
  · refine (Declaration.pairwise_walkAll 0 ds).imp ?_
    intro met next hlt x hx y hy
    obtain ⟨_, -, rfl⟩ := List.mem_map.mp hx
    obtain ⟨_, -, rfl⟩ := List.mem_map.mp hy
    exact .inl hlt

end Validator

/-! ## What the validator reports -/

/-- The list has all defects, each once, in the order of the source. Defects that start at one
place stand in the order of the walk. -/
structure ReportOf (v : Validator) (ds : List Declaration) (report : Found Site) : Prop where
  mem_iff : ∀ site e, (site, e) ∈ report ↔ Defect v ds site e
  nodup : (report.map Prod.fst).Nodup
  ordered : report.Pairwise (Found.Sooner Site.Before)

theorem reportOf_sort (v : Validator) (ds : List Declaration) :
    ReportOf v ds (v.found ds).sort where
  mem_iff _ _ := (Found.perm_sort _).mem_iff.trans Validator.mem_found
  nodup := by
    have hsites : ((v.found ds).map Prod.fst).Nodup := by
      rw [List.Nodup, List.pairwise_map]
      exact (v.pairwise_found ds).imp Site.ne_of_before
    exact ((Found.perm_sort _).map Prod.fst).nodup_iff.mpr hsites
  ordered := Found.pairwise_sort (v.pairwise_found ds)

theorem ReportOf.eq_nil_iff {v : Validator} {ds : List Declaration} {report : Found Site}
    (h : ReportOf v ds report) : report = [] ↔ ∀ site e, ¬ Defect v ds site e := by
  rw [List.eq_nil_iff_forall_not_mem]
  constructor
  · intro hnone site e hdefect
    exact hnone _ ((h.mem_iff site e).mpr hdefect)
  · intro hnone x hx
    exact hnone x.1 x.2 ((h.mem_iff x.1 x.2).mp hx)

/-- An answer without anything to report, or else what is reported. -/
def answer {α : Type} (report : Found Site) (checked : α) : Except (List ValidationError) α :=
  match report with
  | [] => .ok checked
  | x :: rest => .error ((x :: rest).map Prod.snd)

theorem answer_eq_ok_iff {α : Type} {report : Found Site} {checked : α} :
    (∃ c, answer report checked = .ok c) ↔ report = [] := by
  cases report <;> simp [answer]

theorem answer_sort (v : Validator) (ds : List Declaration) {α : Type} (checked : α) :
    answer (v.found ds).sort checked =
      match v.errors ds with
      | [] => .ok checked
      | errors => .error (sortByStart errors) := by
  have hsorted := Found.map_snd_sort (v.found ds)
  rw [v.map_snd_found] at hsorted
  cases herrors : v.errors ds with
  | nil =>
    rw [herrors] at hsorted
    rw [List.map_eq_nil_iff.mp hsorted]
    rfl
  | cons e errors =>
    cases hreport : (v.found ds).sort with
    | nil =>
      have hperm := Found.perm_sort (v.found ds)
      rw [hreport] at hperm
      rw [← v.map_snd_found, hperm.nil_eq.symm] at herrors
      simp at herrors
    | cons x rest => rw [answer, ← hreport, hsorted, herrors]

/-- **The validator reports exactly the defects.** Without any, it answers with the components. -/
theorem validate_report (v : Validator) :
    (∀ ds, ((∃ cs, v.validate ds = .ok cs) ↔ ∀ site e, ¬ Defect v ds site e) ∧
      ∃ report, ReportOf v ds report ∧ v.validate ds = answer report (v.components ds)) ∧
    (∀ d, ((∃ c, v.validateOne d = .ok c) ↔ ∀ site e, ¬ Defect v [d] site e) ∧
      ∃ report, ReportOf v [d] report ∧ v.validateOne d = answer report (v.component d)) := by
  constructor
  · intro ds
    have hreport := reportOf_sort v ds
    have hanswer : v.validate ds = answer (v.found ds).sort (v.components ds) :=
      (answer_sort v ds (v.components ds)).symm
    refine ⟨?_, _, hreport, hanswer⟩
    rw [hanswer, answer_eq_ok_iff, hreport.eq_nil_iff]
  · intro d
    have hreport := reportOf_sort v [d]
    have hanswer : v.validateOne d = answer (v.found [d]).sort (v.component d) :=
      (answer_sort v [d] (v.component d)).symm
    refine ⟨?_, _, hreport, hanswer⟩
    rw [hanswer, answer_eq_ok_iff, hreport.eq_nil_iff]

end UiMarkup
