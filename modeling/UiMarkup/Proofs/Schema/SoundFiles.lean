import UiMarkup.Proofs.Schema.Loading

/-!
# Sound schema files

No step fails in a sound file, whatever the order of its sets and of its kinds,
and a file describes one registry. So its order never changes what is loaded.
-/

namespace UiMarkup

namespace SchemaFile

variable {f : SchemaFile}

/-! ## All steps pass in a sound file -/

/-- Names that are new one after the other are new and differ. -/
theorem new_cons_iff {earlier names : List String} {name : String} :
    name ∉ earlier ∧ (∀ n ∈ names, n ∉ earlier ++ [name]) ∧ names.Nodup ↔
      (name ∉ earlier ∧ ∀ n ∈ names, n ∉ earlier) ∧ (name :: names).Nodup := by
  simp only [List.mem_append, List.mem_singleton, not_or, List.nodup_cons]
  constructor
  · rintro ⟨hname, hnew, hnodup⟩
    exact ⟨⟨hname, fun n hn => (hnew n hn).1⟩, fun hn => (hnew name hn).2 rfl, hnodup⟩
  · rintro ⟨⟨hname, hnew⟩, hother, hnodup⟩
    exact ⟨hname, fun n hn => ⟨hnew n hn, fun heq => hother (heq ▸ hn)⟩, hnodup⟩

theorem allPass_attributes {es : List AttributeEntry} :
    AllPass f.Fails (es.map .attribute) ↔ ∀ e ∈ es, ∀ err, ¬ e.Fails err :=
  List.forall_mem_map

theorem allPass_setSteps {earlier ss : List SetEntry} :
    AllPass f.Fails (setSteps earlier ss) ↔
      (∀ e ∈ ss.flatMap SetEntry.attributes, ∀ err, ¬ e.Fails err) ∧
      (∀ s ∈ ss, (s.attributes.map AttributeEntry.name).Nodup) ∧
      (∀ n ∈ ss.map SetEntry.name, n ∉ earlier.map SetEntry.name) ∧
        (ss.map SetEntry.name).Nodup := by
  induction ss generalizing earlier with
  | nil => simp [setSteps, allPass_nil]
  | cons s ss ih =>
    have hname : (∀ err, ¬ f.Fails (.setName earlier s) err) ↔
        s.name ∉ earlier.map SetEntry.name :=
      ⟨fun h hmem => h _ ⟨hmem, rfl⟩, fun h _ hfails => h hfails.1⟩
    have hdistinct : (∀ err, ¬ f.Fails (.distinct s) err) ↔
        (s.attributes.map AttributeEntry.name).Nodup := SetEntry.passes_iff
    -- The names of the rest are new against `earlier` and `s`, those of all against `earlier`.
    have hnew := @new_cons_iff (earlier.map SetEntry.name) (ss.map SetEntry.name) s.name
    simp only [setSteps, allPass_append, allPass_singleton, allPass_attributes, ih, hname,
      hdistinct, List.map_append, List.map_cons, List.map_nil,
      List.flatMap_cons, List.forall_mem_append, List.forall_mem_cons]
    tauto

theorem refuses_passes_iff {earlier : List ComponentEntry} {c : ComponentEntry} :
    (∀ err, ¬ f.Refuses earlier c err) ↔ c.kind ∉ earlier.map ComponentEntry.kind ∧
      (∀ n ∈ c.includes, n ∈ f.sets.map SetEntry.name) ∧
      ∀ included, f.Includes c.includes included →
        ((merged included c).map AttributeEntry.name).Nodup := by
  constructor
  · intro h
    have hnew : c.kind ∉ earlier.map ComponentEntry.kind := fun hkind => h _ (.known hkind)
    refine ⟨hnew, ?_, fun included hincluded => ?_⟩
    · cases hfind : c.includes.find? (fun n => decide (n ∉ f.sets.map SetEntry.name)) with
      | none => simpa using hfind
      | some name =>
        obtain ⟨hname, front, rest, hnames, hfront⟩ := List.find?_eq_some_iff_append.mp hfind
        exact absurd (.unknownSet hnew hnames (by simpa using hfront) (by simpa using hname)) (h _)
    · rw [← fst_claims]
      by_contra hrepeat
      obtain ⟨name, first, second, hrepeat⟩ := exists_firstRepeat_iff.mpr hrepeat
      exact h _ (.repeated hnew hincluded hrepeat)
  · rintro ⟨hnew, hknown, hmerged⟩ err hrefuses
    cases hrefuses with
    | known hkind => exact hnew hkind
    | unknownSet _ hnames _ hname => exact hname (hknown _ (by simp [hnames]))
    | @repeated included name first second _ hincluded hrepeat =>
      have hnodup := hmerged _ hincluded
      rw [← fst_claims] at hnodup
      exact hrepeat.not_nodup hnodup

theorem allPass_kindSteps {earlier cs : List ComponentEntry} :
    AllPass f.Fails (kindSteps earlier cs) ↔
      (∀ e ∈ cs.flatMap ComponentEntry.attributes, ∀ err, ¬ e.Fails err) ∧
      ((∀ k ∈ cs.map ComponentEntry.kind, k ∉ earlier.map ComponentEntry.kind) ∧
        (cs.map ComponentEntry.kind).Nodup) ∧
      (∀ c ∈ cs, ∀ n ∈ c.includes, n ∈ f.sets.map SetEntry.name) ∧
      ∀ c ∈ cs, ∀ included, f.Includes c.includes included →
        ((merged included c).map AttributeEntry.name).Nodup := by
  induction cs generalizing earlier with
  | nil => simp [kindSteps, allPass_nil]
  | cons c cs ih =>
    have hregistration : (∀ err, ¬ f.Fails (.registration earlier c) err) ↔ _ :=
      refuses_passes_iff
    have hnew := @new_cons_iff (earlier.map ComponentEntry.kind) (cs.map ComponentEntry.kind)
      c.kind
    simp only [kindSteps, allPass_append, allPass_singleton, allPass_attributes, ih,
      hregistration, List.map_append, List.map_cons, List.map_nil,
      List.flatMap_cons, List.forall_mem_append, List.forall_mem_cons]
    tauto

theorem sound_iff : f.Sound ↔ AllPass f.Fails f.steps := by
  rw [steps, allPass_append, allPass_setSteps, allPass_kindSteps]
  simp only [AttributeEntry.passes_iff, List.map_nil, List.not_mem_nil, not_false_eq_true,
    implies_true, true_and]
  constructor
  · intro h
    have hentry (e : AttributeEntry) (he : e ∈ f.attributes) := And.intro (h.types e he)
      (h.defaults e he)
    exact ⟨⟨fun e he => hentry e (List.mem_append_left _ he), h.attributes_apart, h.sets_apart⟩,
      fun e he => hentry e (List.mem_append_right _ he), h.kinds_apart, h.includes_known,
      h.merged_apart⟩
  · rintro ⟨⟨hsets, hattributes, hnames⟩, hkinds, hkindNames, hknown, hmerged⟩
    have hentry : ∀ e ∈ f.attributes, _ := List.forall_mem_append.mpr ⟨hsets, hkinds⟩
    exact ⟨fun e he => (hentry e he).1, fun e he => (hentry e he).2, hattributes, hnames,
      hkindNames, hknown, hmerged⟩

/-! ## Exactly what is described -/

theorem exists_load_iff : (∃ r, f.load = .ok r) ↔ f.Sound := by
  rw [sound_iff]
  exact f.takes_load.exists_ok_iff

theorem Describes.unique {r r' : Registry} (h : f.Describes r) (h' : f.Describes r') : r = r' := by
  have hsets : r.catalog.sets = r'.catalog.sets := by
    refine NameMap.eq_of_get? fun n => Option.ext fun set => ?_
    rw [h.sets, h'.sets]
  have hkinds : r.components = r'.components := by
    refine NameMap.eq_of_get? fun kind => Option.ext fun schema => ?_
    exact (h.kinds kind schema).trans (h'.kinds kind schema).symm
  have hname := h.name.trans h'.name.symm
  obtain ⟨⟨sets⟩, components, name⟩ := r
  obtain ⟨⟨sets'⟩, components', name'⟩ := r'
  simp_all

theorem load_eq_ok_iff {r : Registry} : f.load = .ok r ↔ f.Sound ∧ f.Describes r := by
  constructor
  · intro h
    exact ⟨exists_load_iff.mp ⟨r, h⟩, describes_of_load h⟩
  · rintro ⟨hsound, hdescribes⟩
    obtain ⟨r', hload⟩ := exists_load_iff.mpr hsound
    rw [hload, (describes_of_load hload).unique hdescribes]

/-! ## Any order -/

section order

variable {g : SchemaFile} (hsets : f.sets.Perm g.sets) (hcomponents : f.components.Perm g.components)

include hsets

theorem includes_of_perm {names : List String} {included : List SetEntry} :
    f.Includes names included ↔ g.Includes names included := by
  simp only [Includes, hsets.mem_iff]

theorem describesKind_of_perm {c : ComponentEntry} {schema : ComponentSchema}
    (h : f.DescribesKind c schema) : g.DescribesKind c schema := by
  refine ⟨h.kind, h.description, ?_, h.own⟩
  simpa only [hsets.mem_iff] using h.included

include hcomponents

theorem mem_attributes_of_perm {e : AttributeEntry} : e ∈ f.attributes ↔ e ∈ g.attributes := by
  simp only [attributes, List.mem_append, List.mem_flatMap, hsets.mem_iff, hcomponents.mem_iff]

theorem sound_of_perm (h : f.Sound) : g.Sound where
  types e he := h.types e ((mem_attributes_of_perm hsets hcomponents).mpr he)
  defaults e he := h.defaults e ((mem_attributes_of_perm hsets hcomponents).mpr he)
  attributes_apart s hs := h.attributes_apart s (hsets.mem_iff.mpr hs)
  sets_apart := (hsets.map _).nodup_iff.mp h.sets_apart
  kinds_apart := (hcomponents.map _).nodup_iff.mp h.kinds_apart
  includes_known c hc n hn :=
    (hsets.map _).mem_iff.mp (h.includes_known c (hcomponents.mem_iff.mpr hc) n hn)
  merged_apart c hc included hincluded :=
    h.merged_apart c (hcomponents.mem_iff.mpr hc) included
      ((includes_of_perm hsets).mpr hincluded)

theorem describes_of_perm (hname : f.name = g.name) {r : Registry} (h : f.Describes r) :
    g.Describes r where
  name := h.name.trans hname
  sets n set := by
    rw [h.sets]
    simp only [hsets.mem_iff]
  kinds kind schema := by
    rw [h.kinds]
    simp only [hcomponents.mem_iff]
    have hsame (c : ComponentEntry) : f.DescribesKind c schema ↔ g.DescribesKind c schema :=
      ⟨describesKind_of_perm hsets, describesKind_of_perm hsets.symm⟩
    simp only [hsame]

end order

theorem load_of_perm {g : SchemaFile} (hname : f.name = g.name) (hsets : f.sets.Perm g.sets)
    (hcomponents : f.components.Perm g.components) {r : Registry} (h : f.load = .ok r) :
    g.load = .ok r := by
  obtain ⟨hsound, hdescribes⟩ := load_eq_ok_iff.mp h
  exact load_eq_ok_iff.mpr ⟨sound_of_perm hsets hcomponents hsound,
    describes_of_perm hsets hcomponents hname hdescribes⟩

/-- **A schema file means what its entries describe.** It is loaded if it is sound, the registry
holds exactly what is described, and the error is that of the first step that fails. So neither
the order of the sets nor that of the kinds changes what is loaded. -/
theorem load_exact (f : SchemaFile) :
    ((∃ r, f.load = .ok r) ↔ f.Sound) ∧
    (∀ r, f.load = .ok r ↔ f.Sound ∧ f.Describes r) ∧
    (∀ err, f.load = .error err ↔ FirstFails f.Fails f.steps err) ∧
    (∀ g : SchemaFile, f.name = g.name → f.sets.Perm g.sets → f.components.Perm g.components →
      ∀ r, f.load = .ok r ↔ g.load = .ok r) ∧
    ∀ source root, Toml.parse source = .ok root → ofToml root = .ok f →
      Registry.ofToml source = f.load.mapError .invalid := by
  refine ⟨exists_load_iff, fun _ => load_eq_ok_iff, f.takes_load, ?_, ?_⟩
  · intro g hname hsets hcomponents r
    exact ⟨load_of_perm hname hsets hcomponents,
      load_of_perm hname.symm hsets.symm hcomponents.symm⟩
  · intro source root hroot hfile
    have htree := (mapError_eq_ok_iff (f := SchemaFileError.malformed)).mpr hroot
    have hentries := (mapError_eq_ok_iff (f := SchemaFileError.misshapen)).mpr hfile
    rw [Registry.ofToml, htree]
    show ((ofToml root).mapError SchemaFileError.misshapen >>= fun file =>
      file.load.mapError .invalid) = _
    rw [hentries]
    rfl

/-- A kind that includes two sets. -/
def labelled (sets : List SetEntry) : SchemaFile :=
  ⟨none, sets, [⟨"button", "", ["size", "text"], [⟨"on_click", "event", "", false, none⟩]⟩]⟩

/-- The sets may stand in either order. -/
theorem load_exact_labelled :
    let size : SetEntry := ⟨"size", [⟨"width", "integer", "", false, none⟩]⟩
    let text : SetEntry := ⟨"text", [⟨"label", "string", "", true, none⟩]⟩
    ∃ r, (labelled [size, text]).load = .ok r ∧ (labelled [text, size]).load = .ok r := by
  intro size text
  have hloaded : (labelled [size, text]).load.toBool = true := by decide
  cases h : (labelled [size, text]).load with
  | error e =>
    rw [h] at hloaded
    cases hloaded
  | ok r =>
    obtain ⟨-, -, -, hperm, -⟩ := load_exact (labelled [size, text])
    have hswap : (labelled [size, text]).sets.Perm (labelled [text, size]).sets :=
      .swap text size []
    exact ⟨r, rfl, (hperm (labelled [text, size]) rfl hswap (.refl _) r).mp h⟩

end SchemaFile

end UiMarkup
