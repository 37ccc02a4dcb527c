import Mathlib
import UiMarkup.Proofs.Check.Outcome
import UiMarkup.Proofs.Check.Values
import UiMarkup.Proofs.Declaration.Places

/-!
# Which assignment of a stylesheet wins

Of the rules for one kind and class, a stylesheet keeps the last assignment to
each name that a walk meets. The walk meets the assignments of a declaration in
front of those inside it. So it leaves the order of the source where a
declaration assigns behind a declaration inside it that is a rule for the same
kind and class.
-/

namespace UiMarkup

open Declaration (preorderAll)

/-! ## The rule for one kind and class -/

namespace KindStyle

def rule (k : KindStyle) : Option String → NameMap Value
  | none => k.base
  | some styleClass => (k.classes.get? styleClass).getD .empty

theorem rule_extend (k : KindStyle) (values : List (String × Value))
    (styleClass other : Option String) :
    (k.extend values styleClass).rule other =
      if styleClass = other then (k.rule other).insertAll values else k.rule other := by
  cases styleClass with
  | none => cases other <;> simp [extend, rule]
  | some c =>
    cases other with
    | none => simp [extend, rule]
    | some c' =>
      by_cases hc : c = c'
      · subst hc
        simp [extend, rule, NameMap.update]
      · simp [extend, rule, NameMap.update, hc, Ne.symm hc]

theorem get?_valuesFor (k : KindStyle) (styleClass : Option String) (name : String) :
    (k.valuesFor styleClass).get? name =
      (styleClass.bind fun c => (k.rule (some c)).get? name).or ((k.rule none).get? name) := by
  cases styleClass with
  | none => rfl
  | some c =>
    simp only [valuesFor, rule, Option.bind_some]
    cases k.classes.get? c with
    | none => simp
    | some m => rw [NameMap.get?_insertAll_entries, Option.getD_some]

end KindStyle

namespace Stylesheet

def rule (s : Stylesheet) (kind : String) (styleClass : Option String) : NameMap Value :=
  ((s.kinds.get? kind).getD .empty).rule styleClass

theorem get?_valuesFor (s : Stylesheet) (kind : String) (styleClass : Option String)
    (name : String) :
    (s.valuesFor kind styleClass).get? name =
      (styleClass.bind fun c => (s.rule kind (some c)).get? name).or
        ((s.rule kind none).get? name) := by
  simp only [valuesFor, rule]
  cases s.kinds.get? kind with
  | none => cases styleClass <;> rfl
  | some style => exact style.get?_valuesFor styleClass name

end Stylesheet

/-! ## Assignments in rules -/

namespace Declaration

/-- A declaration that is a rule for this kind and class. -/
def IsRule (kind : String) (styleClass : Option String) (d : Declaration) : Prop :=
  d.kindName = kind ∧ d.className = styleClass

instance (kind : String) (styleClass : Option String) :
    DecidablePred (IsRule kind styleClass) := fun d =>
  inferInstanceAs (Decidable (d.kindName = kind ∧ d.className = styleClass))

end Declaration

namespace Stylesheet

/-- The value that an assignment gives in a declaration of this kind. -/
def value? (r : Registry) (kind : String) (a : Assignment) : Option Value :=
  (r.schema? kind).bind fun schema => (schema.resolve? a).toOption

theorem value?_eq_some_iff {r : Registry} {kind : String} {a : Assignment} {w : Value} :
    value? r kind a = some w ↔
      ∃ schema, r.schema? kind = some schema ∧ schema.resolve? a = .ok w := by
  rw [value?, Option.bind_eq_some_iff]
  refine exists_congr fun schema => and_congr_right fun _ => ?_
  cases schema.resolve? a <;> simp [Except.toOption]

def namedValue? (r : Registry) (kind : String) (a : Assignment) : Option (String × Value) :=
  (value? r kind a).map (a.name.value, ·)

theorem filterMap_namedValue? {r : Registry} {d : Declaration} {schema : ComponentSchema}
    (hschema : r.schema? d.kindName = some schema) :
    d.assignments.filterMap (namedValue? r d.kindName) = d.assignedValues schema := by
  rw [Declaration.assignedValues]
  congr 1
  funext a
  rw [namedValue?, value?, hschema, Option.bind_some]
  cases schema.resolve? a <;> rfl

theorem filterMap_namedValue?_of_unknown {r : Registry} {kind : String} (h : r.schema? kind = none)
    (as : List Assignment) : as.filterMap (namedValue? r kind) = [] := by
  rw [List.filterMap_eq_nil_iff]
  intro a _
  rw [namedValue?, value?, h]
  rfl

/-- One declaration adds its values to the rule that it is for, and to no other. -/
theorem rule_addRule (r : Registry) (s : Stylesheet) (d : Declaration) (kind : String)
    (styleClass : Option String) :
    (addRule r s d).rule kind styleClass =
      if d.IsRule kind styleClass then
        (s.rule kind styleClass).insertAll (d.assignments.filterMap (namedValue? r kind))
      else s.rule kind styleClass := by
  unfold addRule
  cases hschema : r.schema? d.kindName with
  | none =>
    split
    · split
      next hrule =>
        rw [← hrule.1, filterMap_namedValue?_of_unknown hschema]
        rfl
      next => rfl
    next h => cases h
  | some schema =>
    by_cases hkind : d.kindName = kind
    · subst hkind
      simp only [rule, NameMap.update, NameMap.get?_insert, if_true, Option.getD_some,
        KindStyle.rule_extend, filterMap_namedValue? hschema, Declaration.IsRule, true_and]
    · simp only [rule, NameMap.update, NameMap.get?_insert, if_neg (Ne.symm hkind),
        Declaration.IsRule, hkind, false_and, if_false]

/-- What is assigned in the rules for a kind and class, in the order of the walk. -/
def ruleAssignments (kind : String) (styleClass : Option String) (rules : List Declaration) :
    List Assignment :=
  (rules.filter (Declaration.IsRule kind styleClass)).flatMap Declaration.assignments

theorem rule_foldl (r : Registry) (rules : List Declaration) (s : Stylesheet) (kind : String)
    (styleClass : Option String) :
    (rules.foldl (addRule r) s).rule kind styleClass =
      (s.rule kind styleClass).insertAll
        ((ruleAssignments kind styleClass rules).filterMap (namedValue? r kind)) := by
  induction rules generalizing s with
  | nil => rfl
  | cons d rules ih =>
    rw [List.foldl_cons, ih, rule_addRule, ruleAssignments, ruleAssignments, List.filter_cons]
    by_cases hrule : d.IsRule kind styleClass
    · simp only [hrule, if_true, decide_true, List.flatMap_cons, List.filterMap_append,
        NameMap.insertAll_append]
    · simp only [hrule, if_false, decide_false, Bool.false_eq_true]

theorem lookup_filterMap_namedValue? {r : Registry} {kind name : String} {as : List Assignment}
    (h : ∀ a ∈ as, ∃ w, value? r kind a = some w) :
    (as.filterMap (namedValue? r kind)).lookup name =
      (as.find? (·.name.value = name)).bind (value? r kind) := by
  induction as with
  | nil => rfl
  | cons a as ih =>
    obtain ⟨w, hw⟩ := h a List.mem_cons_self
    have hrest := ih fun b hb => h b (List.mem_cons_of_mem a hb)
    have hentry : namedValue? r kind a = some (a.name.value, w) := by
      rw [namedValue?, hw, Option.map_some]
    rw [List.filterMap_cons_some hentry, List.lookup_cons, List.find?_cons, hrest]
    by_cases hname : a.name.value = name
    · simp [hname, hw]
    · have hother : (name == a.name.value) = false := by simpa using Ne.symm hname
      simp [hname, hother]

/-- What is assigned to one name, in the order of the walk. -/
def assignmentsTo (name kind : String) (styleClass : Option String) (ds : List Declaration) :
    List Assignment :=
  (ruleAssignments kind styleClass (preorderAll ds)).filter (·.name.value = name)

/-- The value of the last assignment to a name that the walk meets. -/
def lastValue? (r : Registry) (name kind : String) (styleClass : Option String)
    (ds : List Declaration) : Option Value :=
  (assignmentsTo name kind styleClass ds).getLast?.bind (value? r kind)

theorem get?_insertAll_namedValue? {r : Registry} {kind name : String} {as : List Assignment}
    (h : ∀ a ∈ as, ∃ w, value? r kind a = some w) (m : NameMap Value) :
    (m.insertAll (as.filterMap (namedValue? r kind))).get? name =
      ((as.filter (·.name.value = name)).getLast?.bind (value? r kind)).or (m.get? name) := by
  rw [NameMap.get?_insertAll, ← List.filterMap_reverse,
    lookup_filterMap_namedValue? fun a ha => h a (List.mem_reverse.mp ha),
    List.getLast?_eq_head?_reverse, ← List.filter_reverse, List.head?_filter]

/-! ## Stylesheets that were read -/

theorem value?_of_ruleErrors {r : Registry} {d : Declaration} (h : ruleErrors r d = []) :
    ∀ a ∈ d.assignments, ∃ w, value? r d.kindName a = some w := by
  unfold ruleErrors at h
  intro a ha
  unfold value?
  cases hschema : r.schema? d.kindName with
  | none =>
    rw [hschema] at h
    simp at h
  | some schema =>
    rw [hschema] at h
    have hright := List.filterMap_eq_nil_iff.mp h a ha
    rw [Option.bind_some]
    cases hresolve : schema.resolve? a with
    | ok w => exact ⟨w, rfl⟩
    | error e =>
      rw [hresolve] at hright
      simp at hright

theorem ofDeclarations_eq_ok_iff {r : Registry} {ds : List Declaration} {sheet : Stylesheet} :
    ofDeclarations r ds = .ok sheet ↔
      (∀ d ∈ preorderAll ds, ruleErrors r d = []) ∧
        sheet = (preorderAll ds).foldl (addRule r) empty := by
  rw [ofDeclarations_eq_settle, settle_eq_ok_iff, List.flatMap_eq_nil_iff]

theorem parse_eq_ok_iff_rules {r : Registry} {source : String} {sheet : Stylesheet} :
    parse r source = .ok sheet ↔ ∃ doc, Document.parse source defaultMaxDepth = .ok doc ∧
      ofDeclarations r doc.roots = .ok sheet := by
  rw [parse_eq_readThen, readThen_eq_ok_iff]

/-- A document in which every rule is right makes a stylesheet. -/
theorem parse_of_rules {r : Registry} {source : String} {doc : Document}
    (hdoc : Document.parse source defaultMaxDepth = .ok doc)
    (hright : ∀ d ∈ preorderAll doc.roots, ruleErrors r d = []) :
    parse r source = .ok ((preorderAll doc.roots).foldl (addRule r) empty) :=
  parse_eq_ok_iff_rules.mpr ⟨doc, hdoc, ofDeclarations_eq_ok_iff.mpr ⟨hright, rfl⟩⟩

theorem mem_ruleAssignments {kind : String} {styleClass : Option String}
    {rules : List Declaration} {a : Assignment} :
    a ∈ ruleAssignments kind styleClass rules ↔
      ∃ d ∈ rules, d.IsRule kind styleClass ∧ a ∈ d.assignments := by
  simp [ruleAssignments, and_assoc]

/-- A value is that of an assignment in one of the rules. -/
theorem exists_of_lastValue? {r : Registry} {name kind : String} {styleClass : Option String}
    {ds : List Declaration} {w : Value} (h : lastValue? r name kind styleClass ds = some w) :
    ∃ d ∈ preorderAll ds, ∃ a ∈ d.assignments, a.name.value = name ∧ value? r kind a = some w := by
  obtain ⟨a, ha, hvalue⟩ := Option.bind_eq_some_iff.mp h
  obtain ⟨hrule, hname⟩ := List.mem_filter.mp (List.mem_of_getLast? ha)
  obtain ⟨d, hd, -, hassigned⟩ := mem_ruleAssignments.mp hrule
  exact ⟨d, hd, a, hassigned, by simpa using hname, hvalue⟩

/-- In a stylesheet that was read, everything assigned has a value. -/
theorem value?_of_mem_ruleAssignments {r : Registry} {rules : List Declaration} {kind : String}
    {styleClass : Option String} (h : ∀ d ∈ rules, ruleErrors r d = []) :
    ∀ a ∈ ruleAssignments kind styleClass rules, ∃ w, value? r kind a = some w := by
  intro a ha
  obtain ⟨d, hd, ⟨rfl, -⟩, hmem⟩ := mem_ruleAssignments.mp ha
  exact value?_of_ruleErrors (h d hd) a hmem

theorem get?_rule {r : Registry} {ds : List Declaration} {sheet : Stylesheet}
    (h : ofDeclarations r ds = .ok sheet) (name kind : String) (styleClass : Option String) :
    (sheet.rule kind styleClass).get? name = lastValue? r name kind styleClass ds := by
  obtain ⟨hright, rfl⟩ := ofDeclarations_eq_ok_iff.mp h
  have hempty : empty.rule kind styleClass = .empty := by cases styleClass <;> rfl
  rw [rule_foldl, hempty, get?_insertAll_namedValue? (value?_of_mem_ruleAssignments hright),
    NameMap.get?_empty, Option.or_none]
  rfl

/-! ## The order of the source -/

/-- `a` is assigned inside a rule that assigns `b`, and in a rule of its own for the same kind
and class. -/
def Surrounds (kind : String) (styleClass : Option String) (ds : List Declaration)
    (b a : Assignment) : Prop :=
  ∃ d ∈ preorderAll ds, ∃ e ∈ preorderAll d.children,
    d.IsRule kind styleClass ∧ e.IsRule kind styleClass ∧ b ∈ d.assignments ∧ a ∈ e.assignments

theorem pairwise_ruleAssignments {ts : List (Placed Token)} {ds : List Declaration}
    (h : Grammar.Roots ts ds) (hts : InOrder ts) (kind : String) (styleClass : Option String) :
    (ruleAssignments kind styleClass (preorderAll ds)).Pairwise fun a b =>
      a.span.start ≤ b.span.start ∨ Surrounds kind styleClass ds a b := by
  have hbody := Grammar.body_of_roots h
  rw [ruleAssignments, List.pairwise_flatMap]
  constructor
  · intro d hd
    obtain ⟨us, hus, hdeclares⟩ := Grammar.part_body hbody d (List.mem_filter.mp hd).1
    exact (Grammar.pairwise_assignments_declares hdeclares (hts.sublist hus.sublist)).imp .inl
  · rw [List.pairwise_filter]
    refine (Grammar.walk_body hbody hts).imp_of_mem ?_
    intro d e hd he horder hrule hrule' a ha b hb
    rcases horder with hbelow | hbehind
    · exact .inr ⟨d, hd, e, hbelow, by simpa using hrule, by simpa using hrule', ha, hb⟩
    · obtain ⟨us, hus, hd⟩ := Grammar.part_body hbody d hd
      obtain ⟨vs, hvs, he⟩ := Grammar.part_body hbody e he
      have hfront := Grammar.assignment_inside hd (hts.sublist hus.sublist) ha
      have hback := Grammar.assignment_inside he (hts.sublist hvs.sublist) hb
      left
      omega

theorem start_le_of_getLast? {ts : List (Placed Token)} {ds : List Declaration}
    (h : Grammar.Roots ts ds) (hts : InOrder ts) {name kind : String} {styleClass : Option String}
    {a : Assignment} (ha : (assignmentsTo name kind styleClass ds).getLast? = some a)
    {b : Assignment} (hb : b ∈ assignmentsTo name kind styleClass ds) :
    b.span.start ≤ a.span.start ∨ Surrounds kind styleClass ds b a := by
  have horder : (assignmentsTo name kind styleClass ds).Pairwise _ :=
    (pairwise_ruleAssignments h hts kind styleClass).sublist List.filter_sublist
  obtain ⟨front, hfront⟩ := List.getLast?_eq_some_iff.mp ha
  rw [hfront] at horder hb
  rcases List.mem_append.mp hb with hb | hb
  · exact (List.pairwise_append.mp horder).2.2 b hb a List.mem_cons_self
  · obtain rfl := List.mem_singleton.mp hb
    exact .inl (Nat.le_refl _)

/-- **The last assignment of the walk wins.** Each assignment in a rule has a value. An assignment
that stands behind the one that wins is made in a declaration around it. -/
theorem last_assignment_wins (r : Registry) (source : String) (sheet : Stylesheet)
    (h : parse r source = .ok sheet) :
    ∃ doc, Document.parse source defaultMaxDepth = .ok doc ∧ ∀ name kind,
      (∀ styleClass, (sheet.valuesFor kind styleClass).get? name =
        (styleClass.bind fun c => lastValue? r name kind (some c) doc.roots).or
          (lastValue? r name kind none doc.roots)) ∧
      ∀ styleClass,
        (∀ a ∈ assignmentsTo name kind styleClass doc.roots, ∃ w, value? r kind a = some w) ∧
        ∀ a, (assignmentsTo name kind styleClass doc.roots).getLast? = some a →
          ∀ b ∈ assignmentsTo name kind styleClass doc.roots,
            b.span.start ≤ a.span.start ∨ Surrounds kind styleClass doc.roots b a := by
  obtain ⟨doc, hparse, hsheet⟩ := parse_eq_ok_iff_rules.mp h
  obtain ⟨ts, hlex, hroots, -⟩ := parse_eq_ok_iff.mp hparse
  have hts := TokenRun.inOrder_of_lex hlex
  refine ⟨doc, hparse, fun name kind => ⟨fun styleClass => ?_, fun styleClass => ⟨?_, ?_⟩⟩⟩
  · simp only [get?_valuesFor, get?_rule hsheet]
  · intro a ha
    have hright := (ofDeclarations_eq_ok_iff.mp hsheet).1
    exact value?_of_mem_ruleAssignments hright a (List.mem_filter.mp ha).1
  · intro a ha b hb
    exact start_le_of_getLast? hroots hts ha hb

/-- The rule of a class wins over a later one without class, and gray over red. -/
theorem last_assignment_wins_box :
    let color : Attribute := .plain "color" .color "" false
    let box : ComponentSchema := ⟨"box", "", [], [color], by decide⟩
    let r : Registry := ⟨.empty, NameMap.empty.insert "box" box, none⟩
    let source := "box \x7b color: red; \x7d box.hot \x7b color: blue; \x7d box \x7b color: gray; \x7d"
    ∃ sheet, parse r source = .ok sheet ∧
      (sheet.valuesFor "box" (some "hot")).get? "color" = some (.color (.opaqueRgb 0 0 255)) ∧
      (sheet.valuesFor "box" none).get? "color" = some (.color (.opaqueRgb 128 128 128)) := by
  intro color box r source
  let red : Assignment := ⟨⟨"color", ⟨6, 11⟩⟩, ⟨"red", ⟨13, 16⟩⟩, ⟨6, 17⟩⟩
  let blue : Assignment := ⟨⟨"color", ⟨30, 35⟩⟩, ⟨"blue", ⟨37, 41⟩⟩, ⟨30, 42⟩⟩
  let gray : Assignment := ⟨⟨"color", ⟨51, 56⟩⟩, ⟨"gray", ⟨58, 62⟩⟩, ⟨51, 63⟩⟩
  let doc : Document := ⟨[⟨⟨"box", ⟨0, 3⟩⟩, none, [red], [], ⟨0, 19⟩⟩,
    ⟨⟨"box", ⟨20, 23⟩⟩, some ⟨"hot", ⟨24, 27⟩⟩, [blue], [], ⟨20, 44⟩⟩,
    ⟨⟨"box", ⟨45, 48⟩⟩, none, [gray], [], ⟨45, 65⟩⟩]⟩
  have hparse : Document.parse source defaultMaxDepth = .ok doc := by cbv
  have hright : ∀ d ∈ preorderAll doc.roots, ruleErrors r d = [] := by decide +kernel
  have hsheet := ofDeclarations_eq_ok_iff.mpr ⟨hright, rfl⟩
  have hread : parse r source = .ok _ := parse_eq_ok_iff_rules.mpr ⟨_, hparse, hsheet⟩
  obtain ⟨doc', hparse', hvalues⟩ := last_assignment_wins r source _ hread
  obtain rfl : doc = doc' := Except.ok.inj (hparse.symm.trans hparse')
  refine ⟨_, hread, ?_, ?_⟩
  · rw [(hvalues "color" "box").1]
    decide +kernel
  · rw [(hvalues "color" "box").1]
    decide +kernel

/-- A later assignment around a rule of the same kind loses: blue stands behind red. -/
theorem later_assignment_lost :
    let color : Attribute := .plain "color" .color "" false
    let box : ComponentSchema := ⟨"box", "", [], [color], by decide⟩
    let r : Registry := ⟨.empty, NameMap.empty.insert "box" box, none⟩
    let source := "box \x7b box \x7b color: red; \x7d color: blue; \x7d"
    let red : Assignment := ⟨⟨"color", ⟨12, 17⟩⟩, ⟨"red", ⟨19, 22⟩⟩, ⟨12, 23⟩⟩
    let blue : Assignment := ⟨⟨"color", ⟨26, 31⟩⟩, ⟨"blue", ⟨33, 37⟩⟩, ⟨26, 38⟩⟩
    let inner : Declaration := ⟨⟨"box", ⟨6, 9⟩⟩, none, [red], [], ⟨6, 25⟩⟩
    let outer : Declaration := ⟨⟨"box", ⟨0, 3⟩⟩, none, [blue], [inner], ⟨0, 40⟩⟩
    Document.parse source defaultMaxDepth = .ok ⟨[outer]⟩ ∧
      assignmentsTo "color" "box" none [outer] = [blue, red] ∧
      value? r "box" blue = some (.color (.opaqueRgb 0 0 255)) ∧
      ∃ sheet, parse r source = .ok sheet ∧
        (sheet.valuesFor "box" none).get? "color" = some (.color (.opaqueRgb 255 0 0)) := by
  intro color box r source red blue inner outer
  have hparse : Document.parse source defaultMaxDepth = .ok ⟨[outer]⟩ := by cbv
  have hright : ∀ d ∈ preorderAll [outer], ruleErrors r d = [] := by decide +kernel
  have hsheet := ofDeclarations_eq_ok_iff.mpr ⟨hright, rfl⟩
  have hread : parse r source = .ok _ := parse_eq_ok_iff_rules.mpr ⟨_, hparse, hsheet⟩
  refine ⟨hparse, by decide +kernel, by decide +kernel, _, hread, ?_⟩
  decide +kernel

end Stylesheet

end UiMarkup
