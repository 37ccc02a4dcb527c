import UiMarkup.Proofs.Check.Rules
import UiMarkup.Proofs.Check.Typing

/-!
# Which value wins

The value of an attribute is that of the last assignment in the body, else that
of the rule for the class, else that of the rule for the kind. A value of a rule
falls away when the schema has no use for it. The two rules were read against
one schema, so they agree on the type of each name, and a value that falls away
hides none that would stay.
-/

namespace UiMarkup

open Component (Fits)

/-! ## Values of rules -/

namespace Stylesheet

def classValue? (s : Stylesheet) (kind : String) (styleClass : Option String) (name : String) :
    Option Value :=
  styleClass.bind fun c => (s.rule kind (some c)).get? name

def kindValue? (s : Stylesheet) (kind name : String) : Option Value := (s.rule kind none).get? name

end Stylesheet

/-- A value as far as the schema declares the name with its type. -/
def ComponentSchema.usable (schema : ComponentSchema) (name : String) (w : Option Value) :
    Option Value :=
  w.filter fun w => Fits schema name w

theorem Component.fits_congr {schema : ComponentSchema} {name : String} {w w' : Value}
    (h : w.type = w'.type) : Fits schema name w ↔ Fits schema name w' := by
  unfold Fits
  rw [h]

/-- Of two values with one type, both are of use or none is. -/
theorem ComponentSchema.usable_or {schema : ComponentSchema} {name : String}
    {w w' : Option Value} (h : ∀ a ∈ w, ∀ b ∈ w', a.type = b.type) :
    schema.usable name (w.or w') = (schema.usable name w).or (schema.usable name w') := by
  unfold usable
  cases w with
  | none => simp
  | some a =>
    cases w' with
    | none => simp
    | some b =>
      have hfits : Fits schema name a ↔ Fits schema name b := Component.fits_congr (h a rfl b rfl)
      by_cases ha : Fits schema name a <;> simp [Option.filter_some, ← hfits, ha]

namespace Stylesheet

/-- The registry that a stylesheet was read against declares what its rules have values for. -/
theorem fits_of_get?_rule {r : Registry} {source : String} {sheet : Stylesheet}
    (h : parse r source = .ok sheet) {kind name : String} {styleClass : Option String} {w : Value}
    (hget : (sheet.rule kind styleClass).get? name = some w) :
    ∃ schema, r.schema? kind = some schema ∧ Fits schema name w := by
  obtain ⟨doc, -, hsheet⟩ := parse_eq_ok_iff_rules.mp h
  rw [get?_rule hsheet] at hget
  obtain ⟨_, _, a, _, rfl, hvalue⟩ := exists_of_lastValue? hget
  obtain ⟨schema, hschema, hresolve⟩ := value?_eq_some_iff.mp hvalue
  obtain ⟨declared, hdeclared, hparse⟩ := ComponentSchema.resolve?_eq_ok_iff.mp hresolve
  exact ⟨schema, hschema, declared, hdeclared, AttributeType.type_of_parse hparse⟩

theorem type_eq_of_rules {r : Registry} {source : String} {sheet : Stylesheet}
    (h : parse r source = .ok sheet) {kind name : String} {styleClass : Option String} :
    ∀ a ∈ sheet.classValue? kind styleClass name, ∀ b ∈ sheet.kindValue? kind name,
      a.type = b.type := by
  intro a ha b hb
  obtain ⟨c, -, ha⟩ := Option.bind_eq_some_iff.mp ha
  obtain ⟨schema, hschema, declared, hdeclared, ha⟩ := fits_of_get?_rule h ha
  obtain ⟨schema', hschema', declared', hdeclared', hb⟩ := fits_of_get?_rule h hb
  obtain rfl : schema = schema' := Option.some.inj (hschema.symm.trans hschema')
  obtain rfl : declared = declared' := Option.some.inj (hdeclared.symm.trans hdeclared')
  exact ha.trans hb.symm

end Stylesheet

/-! ## Values of one component -/

/-- The last assignment to a name in the body of a declaration. -/
def Declaration.lastTo? (d : Declaration) (name : String) : Option Assignment :=
  (d.assignments.filter (·.name.value = name)).getLast?

theorem Declaration.mem_of_lastTo? {d : Declaration} {name : String} {a : Assignment}
    (h : d.lastTo? name = some a) : a ∈ d.assignments ∧ a.name.value = name := by
  simpa using List.mem_filter.mp (List.mem_of_getLast? h)

namespace Validator

/-- What a rule of the stylesheet says, the one of the class before the one of the kind. -/
def ruleValue? (v : Validator) (d : Declaration) (name : String) : Option Value :=
  v.stylesheet.bind fun sheet =>
    (sheet.classValue? d.kindName d.className name).or (sheet.kindValue? d.kindName name)

/-- These are the values that a declaration gives, and those of the stylesheet behind them. -/
structure TakesValues (v : Validator) (schema : ComponentSchema) (d : Declaration)
    (attributes : NameMap Value) : Prop where
  assigned : ∀ name a, d.lastTo? name = some a →
    ∃ declared w, schema.attribute? name = some declared ∧
      declared.type.parse a.value.value = .ok w ∧ attributes.get? name = some w
  styled : ∀ name, d.lastTo? name = none →
    attributes.get? name = schema.usable name (v.ruleValue? d name)

/-- A component has the kind, the class and the children of a declaration, and takes its values. -/
inductive Mirrors (v : Validator) : Declaration → Component → Prop
  | intro {d : Declaration} {c : Component} {schema : ComponentSchema} :
      c.kind = d.kindName → c.styleClass = d.className →
      v.registry.schema? d.kindName = some schema → v.TakesValues schema d c.attributes →
      List.Forall₂ (Mirrors v) d.children c.children → Mirrors v d c

variable {v : Validator} {schema : ComponentSchema} {d : Declaration}

theorem nodup_styleValues : ((v.styleValues schema d).map Prod.fst).Nodup := by
  unfold styleValues
  cases v.stylesheet with
  | none => exact List.nodup_nil
  | some sheet =>
    exact (NameMap.nodup_names (NameMap.sorted _)).sublist (List.filter_sublist.map _)

theorem get?_styleValues (name : String) :
    (NameMap.empty.insertAll (v.styleValues schema d)).get? name =
      schema.usable name (v.ruleValue? d name) := by
  ext w
  rw [NameMap.get?_insertAll_empty nodup_styleValues, mem_styleValues, ComponentSchema.usable,
    Option.filter_eq_some_iff, decide_eq_true_iff, ruleValue?, Option.bind_eq_some_iff]
  simp only [Stylesheet.get?_valuesFor, Stylesheet.classValue?, Stylesheet.kindValue?]
  constructor
  · rintro ⟨sheet, a, hsheet, hget, hdeclared, htype⟩
    exact ⟨⟨sheet, hsheet, hget⟩, a, hdeclared, htype.symm⟩
  · rintro ⟨⟨sheet, hsheet, hget⟩, a, hdeclared, htype⟩
    exact ⟨sheet, a, hsheet, hget, hdeclared, htype.symm⟩

theorem takesValues_attributes (hschema : v.registry.schema? d.kindName = some schema)
    (hright : d.assignmentErrors schema = []) :
    v.TakesValues schema d (v.attributes schema d) := by
  have hrule : Stylesheet.ruleErrors v.registry d = [] := by rwa [Stylesheet.ruleErrors, hschema]
  have hvalue := Stylesheet.value?_of_ruleErrors hrule
  have hget (name : String) : (v.attributes schema d).get? name =
      ((d.lastTo? name).bind (Stylesheet.value? v.registry d.kindName)).or
        (schema.usable name (v.ruleValue? d name)) := by
    rw [attributes, ← Stylesheet.filterMap_namedValue? hschema,
      Stylesheet.get?_insertAll_namedValue? hvalue, get?_styleValues]
    rfl
  constructor
  · intro name a hlast
    obtain ⟨ha, rfl⟩ := Declaration.mem_of_lastTo? hlast
    obtain ⟨w, hw⟩ := hvalue a ha
    obtain ⟨schema', hschema', hresolve⟩ := Stylesheet.value?_eq_some_iff.mp hw
    obtain rfl : schema = schema' := Option.some.inj (hschema.symm.trans hschema')
    obtain ⟨declared, hdeclared, hparse⟩ := ComponentSchema.resolve?_eq_ok_iff.mp hresolve
    refine ⟨declared, w, hdeclared, hparse, ?_⟩
    rw [hget, hlast, Option.bind_some, hw, Option.some_or]
  · intro name hnone
    rw [hget, hnone, Option.bind_none, Option.none_or]

/-! ## Whole trees -/

theorem mirrors_of_errorsAt (h : v.errorsAt d = [])
    (hchildren : List.Forall₂ (Mirrors v) d.children (v.components d.children)) :
    Mirrors v d (v.component d) := by
  obtain ⟨schema, hschema, hright, -⟩ := schema_of_errorsAt h
  have hvalues := takesValues_attributes hschema hright
  rw [← attributes_component_of_schema hschema] at hvalues
  cases d
  exact .intro rfl rfl hschema hvalues hchildren

mutual

theorem mirrors_component : ∀ d : Declaration, (∀ e ∈ d.preorder, v.errorsAt e = []) →
    Mirrors v d (v.component d)
  | ⟨kind, styleClass, assignments, children, span⟩, h => by
    rw [Declaration.preorder, List.forall_mem_cons] at h
    exact mirrors_of_errorsAt h.1 (mirrors_components children h.2)

theorem mirrors_components : ∀ ds : List Declaration,
    (∀ e ∈ Declaration.preorderAll ds, v.errorsAt e = []) →
    List.Forall₂ (Mirrors v) ds (v.components ds)
  | [], _ => .nil
  | d :: ds, h => by
    rw [Declaration.preorderAll, List.forall_mem_append] at h
    exact .cons (mirrors_component d h.1) (mirrors_components ds h.2)

end

/-- **Assignments win over the rule of the class, and that one over the rule of the kind.** The
rules may have been read against another registry. Values may as well fall away from each rule
before the two are merged. -/
theorem values_take_precedence (v : Validator)
    (hsheet : ∀ sheet ∈ v.stylesheet, ∃ r source, Stylesheet.parse r source = .ok sheet)
    (ds : List Declaration) (cs : List Component) (h : v.validate ds = .ok cs) :
    List.Forall₂ (Mirrors v) ds cs ∧
      ∀ sheet ∈ v.stylesheet, ∀ (schema : ComponentSchema) kind styleClass name,
        schema.usable name
            ((sheet.classValue? kind styleClass name).or (sheet.kindValue? kind name)) =
          (schema.usable name (sheet.classValue? kind styleClass name)).or
            (schema.usable name (sheet.kindValue? kind name)) := by
  obtain ⟨herrors, rfl⟩ := validate_eq_ok_iff.mp h
  refine ⟨mirrors_components ds (List.flatMap_eq_nil_iff.mp herrors), ?_⟩
  intro sheet hsome schema kind styleClass name
  obtain ⟨r, source, hparse⟩ := hsheet sheet hsome
  exact ComponentSchema.usable_or (Stylesheet.type_eq_of_rules hparse)

/-- The body has its last size, the class its text, and a color where text belongs is left out. -/
theorem values_take_precedence_box :
    let text : Attribute := .plain "text" .string "" true
    let size : Attribute := .plain "size" .integer "" false
    let box (tone : AttributeType) : ComponentSchema :=
      ⟨"box", "", [], [text, size, .plain "tone" tone "" false], by cases tone <;> decide⟩
    let registry (tone : AttributeType) : Registry :=
      ⟨.empty, NameMap.empty.insert "box" (box tone), none⟩
    let source := "box \x7b text: \"Go\"; tone: red; \x7d box.hot \x7b text: \"Hot\"; size: 1; \x7d"
    let size1 : Assignment := ⟨⟨"size", ⟨10, 14⟩⟩, ⟨"2", ⟨16, 17⟩⟩, ⟨10, 18⟩⟩
    let size2 : Assignment := ⟨⟨"size", ⟨19, 23⟩⟩, ⟨"3", ⟨25, 26⟩⟩, ⟨19, 27⟩⟩
    let d : Declaration := ⟨⟨"box", ⟨0, 3⟩⟩, some ⟨"hot", ⟨4, 7⟩⟩, [size1, size2], [], ⟨0, 29⟩⟩
    ∃ sheet c, Stylesheet.parse (registry .color) source = .ok sheet ∧
      (Validator.mk (registry .string) (some sheet)).validate [d] = .ok [c] ∧
      Mirrors (Validator.mk (registry .string) (some sheet)) d c ∧
      c.attributes.get? "size" = some (.integer 3) ∧
      c.attributes.get? "text" = some (.string "Hot") ∧ c.attributes.get? "tone" = none := by
  intro text size box registry source size1 size2 d
  let go : Assignment := ⟨⟨"text", ⟨6, 10⟩⟩, ⟨"\"Go\"", ⟨12, 16⟩⟩, ⟨6, 17⟩⟩
  let red : Assignment := ⟨⟨"tone", ⟨18, 22⟩⟩, ⟨"red", ⟨24, 27⟩⟩, ⟨18, 28⟩⟩
  let hot : Assignment := ⟨⟨"text", ⟨41, 45⟩⟩, ⟨"\"Hot\"", ⟨47, 52⟩⟩, ⟨41, 53⟩⟩
  let one : Assignment := ⟨⟨"size", ⟨54, 58⟩⟩, ⟨"1", ⟨60, 61⟩⟩, ⟨54, 62⟩⟩
  let rules : List Declaration :=
    [⟨⟨"box", ⟨0, 3⟩⟩, none, [go, red], [], ⟨0, 30⟩⟩,
      ⟨⟨"box", ⟨31, 34⟩⟩, some ⟨"hot", ⟨35, 38⟩⟩, [hot, one], [], ⟨31, 64⟩⟩]
  let sheet : Stylesheet := rules.foldl (Stylesheet.addRule (registry .color)) .empty
  let v : Validator := ⟨registry .string, some sheet⟩
  have hrules : Document.parse source defaultMaxDepth = .ok ⟨rules⟩ := by cbv
  have hright : ∀ e ∈ Declaration.preorderAll rules,
      Stylesheet.ruleErrors (registry .color) e = [] := by
    decide +kernel
  have hsheet : Stylesheet.parse (registry .color) source = .ok sheet :=
    Stylesheet.parse_of_rules hrules hright
  have herrors : v.errors [d] = [] := by decide +kernel
  have hchecked : v.validate [d] = .ok [v.component d] := validate_eq_ok_iff.mpr ⟨herrors, rfl⟩
  have hread : ∀ s ∈ v.stylesheet, ∃ r source, Stylesheet.parse r source = .ok s := by
    rintro s ⟨⟩
    exact ⟨_, _, hsheet⟩
  obtain ⟨hmirrors, -⟩ := values_take_precedence v hread [d] _ hchecked
  refine ⟨sheet, v.component d, hsheet, hchecked, ?_, ?_, ?_, ?_⟩
  · exact (List.forall₂_cons.mp hmirrors).1
  · decide +kernel
  · decide +kernel
  · decide +kernel

end Validator

end UiMarkup
