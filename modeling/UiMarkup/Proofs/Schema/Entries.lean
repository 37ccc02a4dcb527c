import Mathlib.Data.List.Forall2
import UiMarkup.Proofs.Schema.Registration
import UiMarkup.Schema.File

/-!
# What entries describe

An entry of a schema file describes an attribute or a set of them. Work on
entries takes one step after the other and stops at the first that fails.
-/

namespace UiMarkup

/-! ## Steps in a row -/

section steps

variable {α β γ ε : Type} (fails : α → ε → Prop)

def AllPass (steps : List α) : Prop := ∀ step ∈ steps, ∀ e, ¬ fails step e

/-- All steps in front of one pass, and this one fails. -/
def FirstFails (steps : List α) (e : ε) : Prop :=
  ∃ front step back, steps = front ++ step :: back ∧ AllPass fails front ∧ fails step e

/-- Work that takes the steps one after the other: its error is that of the first one that fails,
and it has none if all pass. -/
def Takes (steps : List α) (work : Except ε β) : Prop :=
  ∀ e, work = .error e ↔ FirstFails fails steps e

variable {fails} {steps steps' : List α} {e : ε}

theorem allPass_nil : AllPass fails [] := fun _ h => nomatch h

theorem allPass_append :
    AllPass fails (steps ++ steps') ↔ AllPass fails steps ∧ AllPass fails steps' :=
  List.forall_mem_append

theorem allPass_singleton {step : α} : AllPass fails [step] ↔ ∀ e, ¬ fails step e :=
  List.forall_mem_singleton

theorem not_firstFails_nil : ¬ FirstFails fails [] e := by
  rintro ⟨front, step, back, h, -, -⟩
  simp at h

theorem firstFails_cons {step : α} :
    FirstFails fails (step :: steps) e ↔
      fails step e ∨ (∀ e', ¬ fails step e') ∧ FirstFails fails steps e := by
  constructor
  · rintro ⟨front, failing, back, hsteps, hfront, hfails⟩
    cases front with
    | nil =>
      obtain ⟨rfl, -⟩ := List.cons.inj hsteps
      exact .inl hfails
    | cons first front =>
      obtain ⟨rfl, rfl⟩ := List.cons.inj hsteps
      obtain ⟨hfirst, hrest⟩ := List.forall_mem_cons.mp hfront
      exact .inr ⟨hfirst, front, failing, back, rfl, hrest, hfails⟩
  · rintro (hfails | ⟨hstep, front, failing, back, rfl, hfront, hfails⟩)
    · exact ⟨[], step, steps, rfl, allPass_nil, hfails⟩
    · exact ⟨step :: front, failing, back, rfl, List.forall_mem_cons.mpr ⟨hstep, hfront⟩, hfails⟩

theorem firstFails_singleton {step : α} : FirstFails fails [step] e ↔ fails step e := by
  rw [firstFails_cons]
  exact or_iff_left fun h => not_firstFails_nil h.2

theorem firstFails_append :
    FirstFails fails (steps ++ steps') e ↔
      FirstFails fails steps e ∨ AllPass fails steps ∧ FirstFails fails steps' e := by
  induction steps with
  | nil => simp [not_firstFails_nil, allPass_nil]
  | cons step steps ih =>
    have hpass : AllPass fails (step :: steps) ↔ (∀ e, ¬ fails step e) ∧ AllPass fails steps :=
      List.forall_mem_cons
    rw [List.cons_append, firstFails_cons, ih, firstFails_cons, hpass]
    tauto

theorem allPass_iff : AllPass fails steps ↔ ∀ e, ¬ FirstFails fails steps e := by
  induction steps with
  | nil => exact iff_of_true allPass_nil fun _ => not_firstFails_nil
  | cons step steps ih =>
    have hpass : AllPass fails (step :: steps) ↔ (∀ e, ¬ fails step e) ∧ AllPass fails steps :=
      List.forall_mem_cons
    simp only [firstFails_cons, hpass, ih, not_or, not_and]
    constructor
    · rintro ⟨hstep, hsteps⟩ e
      exact ⟨hstep e, fun _ => hsteps e⟩
    · intro h
      have hstep : ∀ e, ¬ fails step e := fun e => (h e).1
      exact ⟨hstep, fun e => (h e).2 hstep⟩

namespace Takes

theorem exists_ok_iff {work : Except ε β} (h : Takes fails steps work) :
    (∃ b, work = .ok b) ↔ AllPass fails steps := by
  rw [allPass_iff]
  simp only [← h _]
  cases work <;> simp

theorem allPass {work : Except ε β} (h : Takes fails steps work) {b : β} (hok : work = .ok b) :
    AllPass fails steps :=
  h.exists_ok_iff.mp ⟨b, hok⟩

theorem ok (b : β) : Takes fails [] (.ok b : Except ε β) := fun _ =>
  ⟨nofun, fun h => absurd h not_firstFails_nil⟩

theorem bind {work : Except ε β} {next : β → Except ε γ} (h : Takes fails steps work)
    (hnext : ∀ b, work = .ok b → Takes fails steps' (next b)) :
    Takes fails (steps ++ steps') (work >>= next) := by
  intro e
  rw [bind_eq_error_iff, firstFails_append, ← h e]
  refine or_congr_right ⟨?_, ?_⟩
  · rintro ⟨b, hb, he⟩
    exact ⟨h.allPass hb, (hnext b hb e).mp he⟩
  · rintro ⟨hpass, he⟩
    obtain ⟨b, hb⟩ := h.exists_ok_iff.mpr hpass
    exact ⟨b, hb, (hnext b hb e).mpr he⟩

/-- Work that ends in a way that cannot fail. -/
theorem bind_ok {work : Except ε β} {result : β → γ} (h : Takes fails steps work) :
    Takes fails steps (work >>= fun b => .ok (result b)) := by
  have hnext (b : β) (_ : work = .ok b) : Takes fails [] (.ok (result b) : Except ε γ) := .ok _
  have hbind := h.bind hnext
  rwa [List.append_nil] at hbind

/-- The same steps under other names. -/
theorem map {α' : Type} {fails' : α' → ε → Prop} {f : α → α'}
    (hf : ∀ step e, fails' (f step) e ↔ fails step e) {work : Except ε β}
    (h : Takes fails steps work) : Takes fails' (steps.map f) work := by
  intro e
  rw [h e]
  clear h
  induction steps with
  | nil => exact iff_of_false not_firstFails_nil not_firstFails_nil
  | cons step steps ih => simp only [List.map_cons, firstFails_cons, hf, ih]

end Takes

end steps

/-! ## Names that come again -/

theorem exists_firstRepeat_iff {claims : List (String × Origin)} :
    (∃ name first second, FirstRepeat claims name first second) ↔
      ¬ (claims.map Prod.fst).Nodup := by
  simp only [← firstClash?_eq_some_iff_firstRepeat, ← firstClash?_eq_none_iff]
  cases firstClash? [] claims with
  | none => simp
  | some clash => simpa using ⟨clash.1, clash.2.1, clash.2.2, rfl⟩

/-! ## Attributes -/

namespace AttributeEntry

/-- The attribute that an entry describes. -/
structure Describes (e : AttributeEntry) (a : Attribute) : Prop where
  name : a.name = e.name
  type : AttributeType.ofName? e.typeName = some a.type
  description : a.description = e.description
  required : a.required = e.required
  default : match e.defaultRaw with
    | none => a.defaultValue = none
    | some raw => ∃ v, a.type.parse raw = .ok v ∧ a.defaultValue = some v

/-- Why an entry describes no attribute. -/
inductive Fails (e : AttributeEntry) : SchemaError → Prop
  | type (h : AttributeType.ofName? e.typeName = none) : Fails e (.unknownType e.typeName)
  | default {type : AttributeType} {raw : String} {why : LiteralError}
      (htype : AttributeType.ofName? e.typeName = some type) (hraw : e.defaultRaw = some raw)
      (h : type.parse raw = .error why) : Fails e (.invalidDefault e.name type raw)

variable {e : AttributeEntry} {es : List AttributeEntry}

theorem ofName_eq_ok_iff {name : String} {type : AttributeType} :
    AttributeType.ofName name = .ok type ↔ AttributeType.ofName? name = some type := by
  unfold AttributeType.ofName
  cases AttributeType.ofName? name <;> simp

theorem ofName_eq_error_iff {name : String} {err : SchemaError} :
    AttributeType.ofName name = .error err ↔
      AttributeType.ofName? name = none ∧ err = .unknownType name := by
  unfold AttributeType.ofName
  cases AttributeType.ofName? name <;> simp [eq_comm]

theorem withDefault_eq_ok_iff {a b : Attribute} {raw : String} :
    a.withDefault raw = .ok b ↔ b.name = a.name ∧ b.type = a.type ∧
      b.description = a.description ∧ b.required = a.required ∧
      ∃ v, a.type.parse raw = .ok v ∧ b.defaultValue = some v := by
  unfold Attribute.withDefault
  split
  next hparse => simp [hparse]
  next v hparse =>
    cases b
    simp [hparse, eq_comm]

theorem withDefault_eq_error_iff {a : Attribute} {raw : String} {err : SchemaError} :
    a.withDefault raw = .error err ↔
      (∃ why, a.type.parse raw = .error why) ∧ err = .invalidDefault a.name a.type raw := by
  unfold Attribute.withDefault
  split
  next why hparse => simp [hparse, eq_comm]
  next v hparse => simp [hparse]

theorem declare_eq_ok_iff {a : Attribute} : e.declare = .ok a ↔ e.Describes a := by
  simp only [declare, bind_eq_ok_iff, ofName_eq_ok_iff]
  constructor
  · rintro ⟨type, htype, h⟩
    cases hraw : e.defaultRaw with
    | none =>
      rw [hraw] at h
      cases h
      exact ⟨rfl, htype, rfl, rfl, by rw [hraw]; rfl⟩
    | some raw =>
      rw [hraw] at h
      obtain ⟨hname, hsame, hdescription, hrequired, hdefault⟩ := withDefault_eq_ok_iff.mp h
      refine ⟨hname, ?_, hdescription, hrequired, ?_⟩
      · rw [hsame]
        exact htype
      · rw [hraw, hsame]
        exact hdefault
  · intro h
    refine ⟨a.type, h.type, ?_⟩
    have hdefault := h.default
    cases hraw : e.defaultRaw with
    | none =>
      rw [hraw] at hdefault
      obtain ⟨name, type, description, required, defaultValue, _⟩ := a
      simp only [Attribute.plain, Except.ok.injEq, Attribute.mk.injEq, true_and]
      exact ⟨h.name.symm, h.description.symm, h.required.symm, hdefault.symm⟩
    | some raw =>
      rw [hraw] at hdefault
      exact withDefault_eq_ok_iff.mpr ⟨h.name, rfl, h.description, h.required, hdefault⟩

theorem declare_eq_error_iff {err : SchemaError} : e.declare = .error err ↔ e.Fails err := by
  simp only [declare, bind_eq_error_iff, ofName_eq_ok_iff, ofName_eq_error_iff]
  constructor
  · rintro (⟨htype, rfl⟩ | ⟨type, htype, h⟩)
    · exact .type htype
    · cases hraw : e.defaultRaw with
      | none =>
        rw [hraw] at h
        cases h
      | some raw =>
        rw [hraw] at h
        obtain ⟨⟨why, hparse⟩, rfl⟩ := withDefault_eq_error_iff.mp h
        exact .default htype hraw hparse
  · intro h
    cases h with
    | type htype => exact .inl ⟨htype, rfl⟩
    | @default type raw why htype hraw hparse =>
      refine .inr ⟨type, htype, ?_⟩
      rw [hraw]
      exact withDefault_eq_error_iff.mpr ⟨⟨why, hparse⟩, rfl⟩

theorem declareAll_eq_ok_iff {as : List Attribute} :
    declareAll es = .ok as ↔ List.Forall₂ Describes es as := by
  induction es generalizing as with
  | nil => simp [declareAll, eq_comm]
  | cons e es ih =>
    simp only [declareAll, bind_eq_ok_iff, declare_eq_ok_iff, ih]
    constructor
    · rintro ⟨a, ha, as, has, h⟩
      cases h
      exact .cons ha has
    · intro h
      cases h with
      | cons ha has => exact ⟨_, ha, _, has, rfl⟩

/-- Attributes are declared in order, up to the first that cannot be. -/
theorem takes_declareAll (es : List AttributeEntry) : Takes Fails es (declareAll es) := by
  induction es with
  | nil => exact .ok []
  | cons e es ih =>
    have hfirst : Takes Fails [e] e.declare := fun err => by
      rw [declare_eq_error_iff, firstFails_singleton]
    exact hfirst.bind fun a _ => ih.bind_ok

theorem names_of_describes {as : List Attribute} (h : List.Forall₂ Describes es as) :
    as.map Attribute.name = es.map AttributeEntry.name := by
  induction h with
  | nil => rfl
  | cons ha _ ih => rw [List.map_cons, List.map_cons, ha.name, ih]

theorem passes_iff :
    (∀ err, ¬ e.Fails err) ↔ (∃ type, AttributeType.ofName? e.typeName = some type) ∧
      ∀ type raw, AttributeType.ofName? e.typeName = some type → e.defaultRaw = some raw →
        ∃ v, type.parse raw = .ok v := by
  constructor
  · intro h
    refine ⟨?_, fun type raw htype hraw => ?_⟩
    · by_contra hnone
      exact h _ (.type (Option.eq_none_iff_forall_ne_some.mpr (not_exists.mp hnone)))
    · cases hparse : type.parse raw with
      | ok v => exact ⟨v, rfl⟩
      | error why => exact absurd (.default htype hraw hparse) (h _)
  · rintro ⟨⟨type, htype⟩, hdefault⟩ err hfails
    cases hfails with
    | type hnone =>
      rw [htype] at hnone
      cases hnone
    | default htype hraw hparse =>
      obtain ⟨v, hv⟩ := hdefault _ _ htype hraw
      rw [hparse] at hv
      cases hv

theorem claims_of_describes {as : List Attribute} (h : List.Forall₂ Describes es as)
    (origin : Origin) : AttributeSet.claims origin as = es.map fun e => (e.name, origin) := by
  have hnames := congrArg (List.map (·, origin)) (names_of_describes h)
  rwa [List.map_map, List.map_map] at hnames

end AttributeEntry

/-! ## Sets -/

namespace SetEntry

variable {s : SetEntry} {set : AttributeSet}

/-- The set that an entry describes. No two of its attributes have one name. -/
structure Describes (s : SetEntry) (set : AttributeSet) : Prop where
  name : set.name = s.name
  attributes : List.Forall₂ AttributeEntry.Describes s.attributes set.attributes

/-- The names of its attributes, each declared by the set. -/
def claims (s : SetEntry) : List (String × Origin) :=
  s.attributes.map fun e => (e.name, .set s.name)

/-- The first name that the set declares again. -/
def Repeats (s : SetEntry) (err : SchemaError) : Prop :=
  ∃ name first second, FirstRepeat s.claims name first second ∧
    err = .duplicateAttributeName name (.set s.name) first second

theorem fst_claims (s : SetEntry) :
    s.claims.map Prod.fst = s.attributes.map AttributeEntry.name := by
  simp [claims, Function.comp_def]

theorem ofList_eq_ok_iff {name : String} {as : List Attribute} :
    AttributeSet.ofList name as = .ok set ↔ set.name = name ∧ set.attributes = as := by
  unfold AttributeSet.ofList
  split
  next hclash =>
    constructor
    · nofun
    · rintro ⟨rfl, rfl⟩
      have hnodup := set.nodup_names
      rw [← AttributeSet.fst_claims (.set set.name), ← firstClash?_eq_none_iff, hclash] at hnodup
      cases hnodup
  next hclash =>
    cases set
    simp [eq_comm]

theorem ofList_eq_error_iff {as : List Attribute}
    (h : List.Forall₂ AttributeEntry.Describes s.attributes as) {err : SchemaError} :
    AttributeSet.ofList s.name as = .error err ↔ s.Repeats err := by
  simp only [Repeats, claims, ← AttributeEntry.claims_of_describes h,
    ← firstClash?_eq_some_iff_firstRepeat]
  unfold AttributeSet.ofList
  split
  next hclash => simp [hclash, eq_comm]
  next hclash => simp [hclash]

theorem passes_iff :
    (∀ err, ¬ s.Repeats err) ↔ (s.attributes.map AttributeEntry.name).Nodup := by
  rw [← s.fst_claims, ← not_iff_not, ← exists_firstRepeat_iff]
  simp only [Repeats, not_forall, not_not]
  constructor
  · rintro ⟨err, name, first, second, hrepeat, -⟩
    exact ⟨name, first, second, hrepeat⟩
  · rintro ⟨name, first, second, hrepeat⟩
    exact ⟨_, name, first, second, hrepeat, rfl⟩

theorem build_eq_ok_iff : s.build = .ok set ↔ s.Describes set := by
  simp only [build, bind_eq_ok_iff, AttributeEntry.declareAll_eq_ok_iff, ofList_eq_ok_iff]
  constructor
  · rintro ⟨as, has, hname, rfl⟩
    exact ⟨hname, has⟩
  · rintro ⟨hname, hattributes⟩
    exact ⟨_, hattributes, hname, rfl⟩

theorem Describes.unique {set' : AttributeSet} (h : s.Describes set) (h' : s.Describes set') :
    set = set' :=
  Except.ok.inj ((build_eq_ok_iff.mpr h).symm.trans (build_eq_ok_iff.mpr h'))

end SetEntry

end UiMarkup
