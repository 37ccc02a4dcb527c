import UiMarkup.Proofs.Check.Erasure
import UiMarkup.Proofs.Check.Rules
import UiMarkup.Proofs.Check.Typing
import UiMarkup.Proofs.Declaration.Legible
import UiMarkup.Proofs.Value.Written

/-!
# A checked document is written back

A component is written as a declaration that assigns every value it has. The
text of such declarations is checked as the components that they were written
from, and no stylesheet is needed any more.
-/

namespace UiMarkup

open Declaration (preorderAll)

/-! ## Written values -/

/-- An assignment, wherever it stands, of the literal of a value. -/
def Assignment.Writes (a : Assignment) (entry : String × Value) : Prop :=
  a.name.value = entry.1 ∧ a.value.value = entry.2.literal

/-- What is written is read, if it fits the schema. -/
theorem ComponentSchema.resolve?_of_writes {schema : ComponentSchema} {a : Assignment}
    {entry : String × Value} (h : a.Writes entry) (hfits : Component.Fits schema entry.1 entry.2)
    (hreadable : entry.2.Readable) : schema.resolve? a = .ok entry.2 := by
  obtain ⟨declared, hdeclared, htype⟩ := hfits
  refine resolve?_eq_ok_iff.mpr ⟨declared, ?_, ?_⟩
  · rw [h.1]
    exact hdeclared
  · rw [h.2, ← htype]
    exact Value.parse_literal hreadable

namespace Declaration

section written

variable {d : Declaration} {schema : ComponentSchema} {entries : List (String × Value)}
  {write : String × Value → Assignment}

theorem assignedValues_written (hd : d.assignments = entries.map write)
    (hwrite : ∀ e ∈ entries, (write e).Writes e)
    (h : ∀ e ∈ entries, Component.Fits schema e.1 e.2 ∧ e.2.Readable) :
    d.assignedValues schema = entries := by
  rw [assignedValues, hd, List.filterMap_map]
  refine (List.filterMap_congr ?_).trans List.filterMap_some
  intro e he
  rw [Function.comp_apply, ComponentSchema.resolve?_of_writes (hwrite e he) (h e he).1 (h e he).2]
  simp only [(hwrite e he).1]

theorem assignmentErrors_written (hd : d.assignments = entries.map write)
    (hwrite : ∀ e ∈ entries, (write e).Writes e)
    (h : ∀ e ∈ entries, Component.Fits schema e.1 e.2 ∧ e.2.Readable) :
    d.assignmentErrors schema = [] := by
  rw [assignmentErrors, hd, List.filterMap_map, List.filterMap_eq_nil_iff]
  intro e he
  rw [Function.comp_apply, ComponentSchema.resolve?_of_writes (hwrite e he) (h e he).1 (h e he).2]

end written

end Declaration

/-! ## Components as declarations -/

namespace Component

def assignment (entry : String × Value) : Assignment :=
  ⟨.atNowhere entry.1, .atNowhere entry.2.literal, .nowhere⟩

theorem writes_assignment (entry : String × Value) : (assignment entry).Writes entry := ⟨rfl, rfl⟩

mutual

/-- The declaration that assigns the literals of all values. -/
def declaration : Component → Declaration
  | ⟨kind, styleClass, attributes, children⟩ =>
    ⟨.atNowhere kind, styleClass.map .atNowhere, attributes.entries.map assignment,
      declarations children, .nowhere⟩

def declarations : List Component → List Declaration
  | [] => []
  | c :: cs => c.declaration :: declarations cs

end

mutual

theorem preorder_declaration :
    ∀ c : Component, c.declaration.preorder = c.preorder.map declaration
  | ⟨kind, styleClass, attributes, children⟩ => by
    rw [declaration, Declaration.preorder, preorder, List.map_cons, declaration,
      preorderAll_declarations children]

theorem preorderAll_declarations : ∀ cs : List Component,
    Declaration.preorderAll (declarations cs) = (preorderAll cs).map declaration
  | [] => rfl
  | c :: cs => by
    rw [declarations, Declaration.preorderAll, preorderAll, List.map_append,
      preorder_declaration c, preorderAll_declarations cs]

end

theorem kindName_declaration (c : Component) : c.declaration.kindName = c.kind := by
  cases c
  rfl

theorem className_declaration (c : Component) : c.declaration.className = c.styleClass := by
  obtain ⟨kind, styleClass, attributes, children⟩ := c
  cases styleClass <;> rfl

theorem assignments_declaration (c : Component) :
    c.declaration.assignments = c.attributes.entries.map assignment := by
  cases c
  rfl

mutual

theorem erase_declaration : ∀ c : Component, c.declaration.erase = c.declaration
  | ⟨kind, styleClass, attributes, children⟩ => by
    rw [declaration, Declaration.erase, eraseAll_declarations children, List.map_map,
      Option.map_map]
    rfl

theorem eraseAll_declarations :
    ∀ cs : List Component, Declaration.eraseAll (declarations cs) = declarations cs
  | [] => rfl
  | c :: cs => by
    rw [declarations, Declaration.eraseAll, erase_declaration c, eraseAll_declarations cs]

end

/-! ## What can be written -/

/-- Names are identifiers, and values have literals that give them. -/
structure Writable (c : Component) : Prop where
  kind : isIdentifier c.kind.toList
  styleClass : ∀ cls ∈ c.styleClass, isIdentifier cls.toList
  attributes : ∀ e ∈ c.attributes.entries, isIdentifier e.1.toList ∧ e.2.Readable

theorem Writable.declaration {c : Component} (h : c.Writable) : c.declaration.Writable where
  kind := by
    rw [kindName_declaration]
    exact h.kind
  styleClass := by
    rw [className_declaration]
    exact h.styleClass
  assigned := by
    rw [assignments_declaration, List.forall_mem_map]
    exact fun e he => (h.attributes e he).1
  values := by
    rw [assignments_declaration, List.forall_mem_map]
    exact fun e he => ⟨e.2.token, e.2.scalar?_token, Value.legible_token (h.attributes e he).2⟩

end Component

/-! ## What was checked can be written -/

theorem ComponentSchema.readable_of_resolve? {schema : ComponentSchema} {a : Assignment}
    {w : Value} (h : schema.resolve? a = .ok w) : w.Readable := by
  obtain ⟨declared, -, hparse⟩ := resolve?_eq_ok_iff.mp h
  exact Value.readable_of_read (mapError_eq_ok_iff.mp hparse)

namespace Stylesheet

theorem readable_of_value? {r : Registry} {kind : String} {a : Assignment} {w : Value}
    (h : value? r kind a = some w) : w.Readable := by
  obtain ⟨schema, -, hresolve⟩ := value?_eq_some_iff.mp h
  exact ComponentSchema.readable_of_resolve? hresolve

theorem readable_of_lastValue? {r : Registry} {name kind : String} {styleClass : Option String}
    {ds : List Declaration} {w : Value} (hds : ∀ d ∈ preorderAll ds, d.Named)
    (h : lastValue? r name kind styleClass ds = some w) :
    isIdentifier name.toList ∧ w.Readable := by
  obtain ⟨d, hd, a, hassigned, rfl, hvalue⟩ := exists_of_lastValue? h
  exact ⟨(hds d hd).assigned a hassigned, readable_of_value? hvalue⟩

/-- A stylesheet that was read assigns values that can be written. -/
theorem readable_valuesFor {r : Registry} {source : String} {sheet : Stylesheet}
    (h : parse r source = .ok sheet) {name kind : String} {styleClass : Option String} {w : Value}
    (hget : (sheet.valuesFor kind styleClass).get? name = some w) :
    isIdentifier name.toList ∧ w.Readable := by
  obtain ⟨doc, hparse, hsheet⟩ := parse_eq_ok_iff_rules.mp h
  have hnamed := named_of_parse hparse
  simp only [get?_valuesFor, get?_rule hsheet, Option.or_eq_some_iff] at hget
  rcases hget with hget | ⟨-, hget⟩
  · obtain ⟨c, -, hget⟩ := Option.bind_eq_some_iff.mp hget
    exact readable_of_lastValue? hnamed hget
  · exact readable_of_lastValue? hnamed hget

end Stylesheet

namespace Validator

open Component (Conforms)

theorem writable_component {v : Validator}
    (hsheet : ∀ sheet ∈ v.stylesheet, ∃ r source, Stylesheet.parse r source = .ok sheet)
    {d : Declaration} (hnamed : d.Named) : (v.component d).Writable := by
  have hclass : (v.component d).styleClass = d.className := by
    cases d
    rfl
  refine ⟨?_, ?_, ?_⟩
  · rw [kind_component]
    exact hnamed.kind
  · rw [hclass]
    exact hnamed.styleClass
  · rintro ⟨name, w⟩ hentry
    rw [attributes_component] at hentry
    unfold attributesAt at hentry
    split at hentry
    next => cases hentry
    next schema hschema =>
      rcases get?_attributes (NameMap.get?_eq_some_iff.mpr hentry) with hvalue | hvalue
      · obtain ⟨a, ha, rfl, hresolve⟩ := ComponentSchema.mem_assignedValues.mp hvalue
        exact ⟨hnamed.assigned a ha, ComponentSchema.readable_of_resolve? hresolve⟩
      · obtain ⟨sheet, a, hsome, hget, -, -⟩ := mem_styleValues.mp hvalue
        obtain ⟨r, source, hparse⟩ := hsheet sheet hsome
        exact Stylesheet.readable_valuesFor hparse hget

/-! ## Checking what was written -/

section written

variable {v : Validator} {c : Component} {schema : ComponentSchema}

theorem fits_and_readable (hconforms : Conforms schema c) (hwritable : c.Writable) :
    ∀ e ∈ c.attributes.entries, Component.Fits schema e.1 e.2 ∧ e.2.Readable :=
  fun e he => ⟨hconforms.typed e he, (hwritable.attributes e he).2⟩

theorem assignedValues_declaration (hconforms : Conforms schema c) (hwritable : c.Writable) :
    c.declaration.assignedValues schema = c.attributes.entries :=
  Declaration.assignedValues_written (Component.assignments_declaration c)
    (fun e _ => Component.writes_assignment e) (fits_and_readable hconforms hwritable)

theorem assignmentErrors_declaration (hconforms : Conforms schema c) (hwritable : c.Writable) :
    c.declaration.assignmentErrors schema = [] :=
  Declaration.assignmentErrors_written (Component.assignments_declaration c)
    (fun e _ => Component.writes_assignment e) (fits_and_readable hconforms hwritable)

/-- Without a stylesheet, a declaration that was written has the values that it was written with. -/
theorem attributes_declaration (hplain : v.stylesheet = none) (hconforms : Conforms schema c)
    (hwritable : c.Writable) : v.attributes schema c.declaration = c.attributes := by
  have hstyle : v.styleValues schema c.declaration = [] := by rw [styleValues, hplain]
  rw [attributes, hstyle, assignedValues_declaration hconforms hwritable]
  exact NameMap.insertAll_entries c.attributes

theorem errorsAt_declaration (hplain : v.stylesheet = none)
    (hschema : v.registry.schema? c.kind = some schema) (hconforms : Conforms schema c)
    (hwritable : c.Writable) : v.errorsAt c.declaration = [] := by
  have hmissing : v.missing schema c.declaration = [] := by
    rw [missing, attributes_declaration hplain hconforms hwritable, List.filter_eq_nil_iff]
    intro a ha
    obtain ⟨ha, hmust⟩ := List.mem_filter.mp ha
    rw [Attribute.mustBeAssigned, Bool.and_eq_true, Option.isNone_iff_eq_none] at hmust
    obtain ⟨w, hw⟩ := hconforms.complete a ha hmust.1
    have hpresent : c.attributes.contains a.name := by
      rcases Component.valueOrDefault_eq_some_iff.mp hw with hget | ⟨-, b, hb, hdefault⟩
      · exact NameMap.contains_iff.mpr ⟨w, hget⟩
      · obtain rfl : a = b := Option.some.inj ((ComponentSchema.attribute?_of_mem ha).symm.trans hb)
        rw [hmust.2] at hdefault
        cases hdefault
    simp [hpresent]
  rw [errorsAt, Component.kindName_declaration, hschema]
  simp only [assignmentErrors_declaration hconforms hwritable, hmissing]
  rfl

mutual

theorem component_declaration (hplain : v.stylesheet = none) : ∀ c : Component,
    (∀ b ∈ c.preorder, (∃ schema, v.registry.schema? b.kind = some schema ∧ Conforms schema b) ∧
      b.Writable) → v.component c.declaration = c
  | ⟨kind, styleClass, attributes, children⟩, h => by
    rw [Component.preorder, List.forall_mem_cons] at h
    obtain ⟨⟨⟨schema, hschema, hconforms⟩, hwritable⟩, hchildren⟩ := h
    have hattributes := attributes_declaration hplain hconforms hwritable
    have hclass := Component.className_declaration ⟨kind, styleClass, attributes, children⟩
    have hat : v.attributesAt (Component.declaration ⟨kind, styleClass, attributes, children⟩) =
        attributes := by
      rw [attributesAt, Component.kindName_declaration, hschema]
      exact hattributes
    rw [Component.declaration] at hat hclass ⊢
    rw [component, hat, components_declarations hplain children hchildren]
    exact congrArg (Component.mk kind · attributes children) hclass

theorem components_declarations (hplain : v.stylesheet = none) : ∀ cs : List Component,
    (∀ b ∈ Component.preorderAll cs,
      (∃ schema, v.registry.schema? b.kind = some schema ∧ Conforms schema b) ∧ b.Writable) →
      v.components (Component.declarations cs) = cs
  | [], _ => rfl
  | c :: cs, h => by
    rw [Component.preorderAll, List.forall_mem_append] at h
    rw [Component.declarations, components, component_declaration hplain c h.1,
      components_declarations hplain cs h.2]

end

end written

/-! ## Depth -/

mutual

theorem depth_declaration (v : Validator) :
    ∀ d : Declaration, (v.component d).declaration.depth = d.depth
  | ⟨kind, styleClass, assignments, children, span⟩ => by
    rw [component, Component.declaration, Declaration.depth, Declaration.depth,
      deepest_declarations v children]

theorem deepest_declarations (v : Validator) : ∀ ds : List Declaration,
    Declaration.deepest (Component.declarations (v.components ds)) = Declaration.deepest ds
  | [] => rfl
  | d :: ds => by
    rw [components, Component.declarations, Declaration.deepest, Declaration.deepest,
      depth_declaration v d, deepest_declarations v ds]

end

end Validator

/-! ## From source to source -/

/-- The document that assigns the literals of all values. -/
def CheckedDocument.written (checked : CheckedDocument) : Document :=
  ⟨Component.declarations checked.components⟩

theorem CheckedDocument.erase_written (checked : CheckedDocument) :
    checked.written.erase = checked.written :=
  congrArg Document.mk (Component.eraseAll_declarations checked.components)

/-- Components that fit their schemas and can be written are checked as themselves. -/
theorem check_print_of_writable {r : Registry} {maxDepth : Nat} {cs : List Component}
    {doc : Document}
    (hcs : ∀ c ∈ Component.preorderAll cs,
      (∃ schema, r.schema? c.kind = some schema ∧ Component.Conforms schema c) ∧ c.Writable)
    (hdepth : ∀ d ∈ Component.declarations cs, d.depth ≤ maxDepth)
    (hdoc : doc.erase = ⟨Component.declarations cs⟩) :
    check r ⟨maxDepth, none⟩ doc.print = .ok ⟨cs⟩ := by
  have hwritable : ∀ d ∈ preorderAll (Component.declarations cs), d.Writable := by
    rw [Component.preorderAll_declarations, List.forall_mem_map]
    exact fun c hc => (hcs c hc).2.declaration
  obtain ⟨again, hagain, hsame⟩ := parse_print_of_writable hwritable hdepth
  rw [← hdoc, Document.print_erase] at hagain
  have hroots := congrArg Document.roots hsame
  let plain : Validator := ⟨r, none⟩
  have herrors : plain.errors (Component.declarations cs) = [] := by
    rw [Validator.errors, Component.preorderAll_declarations, List.flatMap_map,
      List.flatMap_eq_nil_iff]
    intro c hc
    obtain ⟨⟨schema, hschema, hconforms⟩, hwritable⟩ := hcs c hc
    exact Validator.errorsAt_declaration rfl hschema hconforms hwritable
  have hback : plain.components (Component.declarations cs) = cs :=
    Validator.components_declarations rfl cs hcs
  refine check_eq_ok_iff.mpr ⟨again, hagain, (Validator.errors_of_eraseAll hroots).mpr herrors, ?_⟩
  rw [Validator.components_of_eraseAll hroots]
  exact congrArg CheckedDocument.mk hback.symm

/-- **A checked document is written back.** Its text is checked as the same document, without the
stylesheet that it was checked with. A stylesheet is one that was read. -/
theorem check_print_written (r : Registry) (options : CheckOptions) (source : String)
    (checked : CheckedDocument)
    (hsheet : ∀ sheet ∈ options.stylesheet, ∃ r' text, Stylesheet.parse r' text = .ok sheet)
    (h : check r options source = .ok checked) (doc : Document)
    (hdoc : doc.erase = checked.written) :
    check r ⟨options.maxDepth, none⟩ doc.print = .ok checked := by
  obtain ⟨read, hparse, herrors, rfl⟩ := check_eq_ok_iff.mp h
  obtain ⟨-, -, -, hdepth⟩ := parse_eq_ok_iff.mp hparse
  refine check_print_of_writable ?_ ?_ hdoc
  · intro c hc
    refine ⟨Validator.conforms_of_errors herrors c hc, ?_⟩
    rw [Validator.preorderAll_components] at hc
    obtain ⟨d, hd, rfl⟩ := List.mem_map.mp hc
    exact Validator.writable_component hsheet (named_of_parse hparse d hd)
  · rw [← Declaration.deepest_le_iff] at hdepth ⊢
    rwa [Validator.deepest_declarations]

/-- A string with a quote and a newline in it, a large float, and a color from the stylesheet. -/
theorem check_print_written_box :
    let text : Attribute := .plain "text" .string "" true
    let size : Attribute := .plain "size" .float "" false
    let color : Attribute := .plain "color" .color "" false
    let box : ComponentSchema := ⟨"box", "", [], [text, size, color], by decide⟩
    let r : Registry := ⟨.empty, NameMap.empty.insert "box" box, none⟩
    let source := "box \x7b text: \"a\\\"\\n\"; size: 5e22; \x7d"
    ∃ sheet checked, Stylesheet.parse r "box \x7b color: red; \x7d" = .ok sheet ∧
      check r ⟨1, some sheet⟩ source = .ok checked ∧
      checked.written.print =
        "box \x7b\n    color: #FF0000;\n    size: 5e22;\n    text: \"a\\\"\\n\";\n\x7d\n" ∧
      check r ⟨1, none⟩ checked.written.print = .ok checked := by
  intro text size color box r source
  let red : Assignment := ⟨⟨"color", ⟨6, 11⟩⟩, ⟨"red", ⟨13, 16⟩⟩, ⟨6, 17⟩⟩
  let rule : Declaration := ⟨⟨"box", ⟨0, 3⟩⟩, none, [red], [], ⟨0, 19⟩⟩
  let sheet : Stylesheet := Stylesheet.addRule r .empty rule
  have hrule : Document.parse "box \x7b color: red; \x7d" defaultMaxDepth = .ok ⟨[rule]⟩ := by cbv
  have hright : ∀ d ∈ preorderAll [rule], Stylesheet.ruleErrors r d = [] := by decide +kernel
  have hrules := Stylesheet.ofDeclarations_eq_ok_iff.mpr ⟨hright, rfl⟩
  have hsheet : Stylesheet.parse r "box \x7b color: red; \x7d" = .ok sheet :=
    Stylesheet.parse_eq_ok_iff_rules.mpr ⟨_, hrule, hrules⟩
  let quoted : Assignment := ⟨⟨"text", ⟨6, 10⟩⟩, ⟨"\"a\\\"\\n\"", ⟨12, 19⟩⟩, ⟨6, 20⟩⟩
  let large : Assignment := ⟨⟨"size", ⟨21, 25⟩⟩, ⟨"5e22", ⟨27, 31⟩⟩, ⟨21, 32⟩⟩
  let doc : Document := ⟨[⟨⟨"box", ⟨0, 3⟩⟩, none, [quoted, large], [], ⟨0, 34⟩⟩]⟩
  have hparse : Document.parse source 1 = .ok doc := by cbv
  have herrors : (Validator.mk r (some sheet)).errors doc.roots = [] := by decide +kernel
  have hchecked : check r ⟨1, some sheet⟩ source = .ok _ :=
    check_eq_ok_iff.mpr ⟨doc, hparse, herrors, rfl⟩
  refine ⟨sheet, _, hsheet, hchecked, by decide +kernel, ?_⟩
  refine check_print_written r ⟨1, some sheet⟩ source _ ?_ hchecked _
    (CheckedDocument.erase_written _)
  rintro _ ⟨⟩
  exact ⟨r, _, hsheet⟩

end UiMarkup
