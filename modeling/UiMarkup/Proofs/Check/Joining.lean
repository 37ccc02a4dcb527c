import UiMarkup.Proofs.Check.Agreement
import UiMarkup.Proofs.Check.Relocation
import UiMarkup.Proofs.Declaration.Joining

/-!
# Checking documents that are put behind one another

Each error starts with a token of its own document. So the errors of two
documents do not mix, and each of them is checked as it is by itself.
-/

namespace UiMarkup

open Declaration (preorderAll)
open ValidationError (sortByStart)

/-! ## Where errors start -/

namespace Grammar

theorem exists_start_value {ts : List (Placed Token)} {v : Placed String} (h : Value ts v) :
    ∃ t ∈ ts, t.span.start = v.span.start := by
  cases h with
  | scalar => exact ⟨_, List.mem_singleton_self _, rfl⟩
  | tuple => exact ⟨_, by simp, rfl⟩

theorem exists_start_kind {ts : List (Placed Token)} {d : Declaration} (h : Declares ts d) :
    ∃ t ∈ ts, t.span.start = d.kind.span.start := by
  cases h with
  | mk hheading => cases hheading <;> exact ⟨_, by simp, rfl⟩

theorem exists_start_name {ts : List (Placed Token)} {a : Assignment} (h : Assigns ts a) :
    ∃ t ∈ ts, t.span.start = a.name.span.start := by
  cases h with
  | mk => exact ⟨_, by simp, rfl⟩

theorem exists_start_assigned {ts : List (Placed Token)} {a : Assignment} (h : Assigns ts a) :
    ∃ t ∈ ts, t.span.start = a.value.span.start := by
  cases h with
  | mk _ _ hvalue _ =>
    obtain ⟨t, ht, hstart⟩ := exists_start_value hvalue
    exact ⟨t, by simp [ht], hstart⟩

end Grammar

/-- What is blamed for an error: the kind of the declaration, or a name or a value in it. -/
theorem Validator.span_of_mem_errorsAt {v : Validator} {d : Declaration} {e : ValidationError}
    (h : e ∈ v.errorsAt d) : e.span = d.kind.span ∨
      ∃ a ∈ d.assignments, e.span = a.name.span ∨ e.span = a.value.span := by
  unfold errorsAt at h
  cases hschema : v.registry.schema? d.kindName with
  | none =>
    rw [hschema] at h
    obtain rfl := List.mem_singleton.mp h
    exact .inl rfl
  | some schema =>
    simp only [hschema, List.mem_append] at h
    rcases h with h | h
    · obtain ⟨a, ha, hresolve⟩ := ComponentSchema.mem_assignmentErrors.mp h
      rcases ComponentSchema.resolve?_eq_error_iff.mp hresolve with ⟨-, rfl⟩ | ⟨_, _, -, -, rfl⟩
      · exact .inr ⟨a, ha, .inl rfl⟩
      · exact .inr ⟨a, ha, .inr rfl⟩
    · obtain ⟨a, -, rfl⟩ := List.mem_map.mp h
      exact .inl rfl

theorem Validator.exists_start_of_mem_errors {v : Validator} {ts : List (Placed Token)}
    {ds : List Declaration} (hroots : Grammar.Roots ts ds) {e : ValidationError}
    (h : e ∈ v.errors ds) : ∃ t ∈ ts, t.span.start = e.span.start := by
  obtain ⟨d, hd, he⟩ := List.mem_flatMap.mp h
  obtain ⟨us, hus, hdeclares⟩ := Grammar.part_body (Grammar.body_of_roots hroots) d hd
  have hstart : ∃ t ∈ us, t.span.start = e.span.start := by
    rcases span_of_mem_errorsAt he with hkind | ⟨a, ha, hspan⟩
    · rw [hkind]
      exact Grammar.exists_start_kind hdeclares
    · obtain ⟨vs, hvs, hassigns⟩ := Grammar.part_assignment hdeclares ha
      have hname := Grammar.exists_start_name hassigns
      have hvalue := Grammar.exists_start_assigned hassigns
      rcases hspan with hspan | hspan
      · rw [hspan]
        exact hname.imp fun t ht => ⟨hvs.subset ht.1, ht.2⟩
      · rw [hspan]
        exact hvalue.imp fun t ht => ⟨hvs.subset ht.1, ht.2⟩
  exact hstart.imp fun t ht => ⟨hus.subset ht.1, ht.2⟩

theorem Validator.start_le_of_mem_errors {v : Validator} {source : String} {maxDepth : Nat}
    {doc : Document} (hparse : Document.parse source maxDepth = .ok doc) {e : ValidationError}
    (h : e ∈ v.errors doc.roots) : e.span.start ≤ byteLength source.toList := by
  obtain ⟨ts, hlex, hroots, -⟩ := parse_eq_ok_iff.mp hparse
  obtain ⟨t, ht, hstart⟩ := v.exists_start_of_mem_errors hroots h
  have hmem : t ∈ (TokenRun.ofSource source).tokens := by rwa [ofSource_eq_iff.mpr hlex]
  rw [← hstart]
  exact le_of_isBoundary (TokenRun.within_of_mem_tokens hmem).start

/-! ## Documents side by side -/

theorem Validator.errors_append (v : Validator) (ds es : List Declaration) :
    v.errors (ds ++ es) = v.errors ds ++ v.errors es := by
  rw [errors, Grammar.preorderAll_append, List.flatMap_append]
  rfl

theorem Validator.components_append (v : Validator) (ds es : List Declaration) :
    v.components (ds ++ es) = v.components ds ++ v.components es := by
  induction ds with
  | nil => rfl
  | cons d ds ih => rw [List.cons_append, components, ih, components, List.cons_append]

section joined

variable {a b : String} {maxDepth : Nat} {doc doc' : Document}

theorem parse_joined (h : Document.parse a maxDepth = .ok doc)
    (h' : Document.parse b maxDepth = .ok doc') :
    Document.parse (a ++ "\n" ++ b) maxDepth =
      .ok ⟨doc.roots ++ (Relocation.behind a).declarations doc'.roots⟩ := by
  rw [Document.parse_eq_ok_iff_toList, toList_joined h, Document.parse_eq_ok_iff_toList.mp h',
    Relocation.declarations_eq_map, List.map_append, List.map_map, List.map_map]
  rfl

theorem check_joined (h : Document.parse a maxDepth = .ok doc)
    (h' : Document.parse b maxDepth = .ok doc') (r : Registry) (sheet : Option Stylesheet) :
    let v : Validator := ⟨r, sheet⟩
    check r ⟨maxDepth, sheet⟩ (a ++ "\n" ++ b) =
      (settle (v.errors doc.roots ++
          (v.errors doc'.roots).map (Relocation.behind a).validationError)
        ⟨v.components doc.roots ++ v.components doc'.roots⟩).mapError .validation := by
  intro v
  have hcheck : check r ⟨maxDepth, sheet⟩ (a ++ "\n" ++ b) = _ :=
    check_of_parse (parse_joined h h')
  rw [hcheck, Validator.errors_append, Relocation.errors_declarations,
    Validator.components_append, Relocation.components_declarations]

/-- The second document has its errors behind all those of the first one. -/
theorem Validator.sortByStart_joined (v : Validator) (h : Document.parse a maxDepth = .ok doc)
    (errors : List ValidationError) :
    sortByStart (v.errors doc.roots ++ errors.map (Relocation.behind a).validationError) =
      sortByStart (v.errors doc.roots) ++
        (sortByStart errors).map (Relocation.behind a).validationError := by
  rw [ValidationError.sortByStart_append, Relocation.sortByStart_validationError]
  · intro i j
    exact Nat.add_le_add_iff_right
  · intro e he f hf
    obtain ⟨g, -, rfl⟩ := List.mem_map.mp hf
    have hstart := v.start_le_of_mem_errors h he
    show e.span.start ≤ g.span.start + (byteLength a.toList + 1)
    omega

end joined

/-- **Documents compose.** Behind a source that is read to its end, on lines of its own, another
one is read as by itself at its later place. If both are read, both are checked as by
themselves. -/
theorem documents_compose (a b : String) (maxDepth : Nat) (doc : Document)
    (h : Document.parse a maxDepth = .ok doc) :
    (DeclarationStream.ofSource a maxDepth).toList = doc.roots.map .ok ∧
    (DeclarationStream.ofSource (a ++ "\n" ++ b) maxDepth).toList =
      (DeclarationStream.ofSource a maxDepth).toList ++
        (DeclarationStream.ofSource b maxDepth).toList.map (Relocation.behind a).answer ∧
    ∀ doc', Document.parse b maxDepth = .ok doc' →
      ∀ (r : Registry) (sheet : Option Stylesheet),
        let checking := check r ⟨maxDepth, sheet⟩
        let errors := reported (checking a) ++
          (reported (checking b)).map (Relocation.behind a).validationError
        (∀ checked, checking (a ++ "\n" ++ b) = .ok checked ↔
          ∃ x y, checking a = .ok x ∧ checking b = .ok y ∧
            checked = ⟨x.components ++ y.components⟩) ∧
        ∀ e, checking (a ++ "\n" ++ b) = .error e ↔ errors ≠ [] ∧ e = .validation errors := by
  have hlist := Document.parse_eq_ok_iff_toList.mp h
  refine ⟨hlist, ?_, ?_⟩
  · rw [hlist]
    exact toList_joined h b
  intro doc' h' r sheet checking errors
  let v : Validator := ⟨r, sheet⟩
  have hfirst : checking a = _ := check_of_parse h
  have hsecond : checking b = _ := check_of_parse h'
  have hjoined : checking (a ++ "\n" ++ b) = _ := check_joined h h' r sheet
  have herrors : errors = sortByStart (v.errors doc.roots ++
      (v.errors doc'.roots).map (Relocation.behind a).validationError) := by
    rw [v.sortByStart_joined h, ← reported_settle, ← hfirst, ← reported_settle, ← hsecond]
  constructor
  · intro checked
    rw [hjoined, hfirst, hsecond]
    simp only [mapError_eq_ok_iff, settle_eq_ok_iff, List.append_eq_nil_iff, List.map_eq_nil_iff]
    constructor
    · rintro ⟨⟨hright, hright'⟩, rfl⟩
      exact ⟨_, _, ⟨hright, rfl⟩, ⟨hright', rfl⟩, rfl⟩
    · rintro ⟨_, _, ⟨hright, rfl⟩, ⟨hright', rfl⟩, rfl⟩
      exact ⟨⟨hright, hright'⟩, rfl⟩
  · intro e
    rw [hjoined, mapError_eq_error_iff, herrors, ne_eq, ValidationError.sortByStart_eq_nil_iff]
    simp only [settle_eq_error_iff]
    constructor
    · rintro ⟨_, ⟨hwrong, rfl⟩, rfl⟩
      exact ⟨hwrong, rfl⟩
    · rintro ⟨hwrong, rfl⟩
      exact ⟨_, ⟨hwrong, rfl⟩, rfl⟩

/-- The comment ends with its line. What stands behind it stands 13 bytes further on. -/
theorem documents_compose_comment :
    let text : Attribute := .plain "text" .string "" true
    let box : ComponentSchema := ⟨"box", "", [], [text], by decide⟩
    let r : Registry := ⟨.empty, NameMap.empty.insert "box" box, none⟩
    let a := "box \x7b \x7d // c"
    let b := "box \x7b \x7d"
    let root (n : Nat) : Declaration := ⟨⟨"box", ⟨n, n + 3⟩⟩, none, [], [], ⟨n, n + 7⟩⟩
    let missing (n : Nat) : ValidationError := ⟨⟨n, n + 3⟩, .missingRequired "box" "text"⟩
    Document.parse a 1 = .ok ⟨[root 0]⟩ ∧ Document.parse b 1 = .ok ⟨[root 0]⟩ ∧
      (DeclarationStream.ofSource (a ++ "\n" ++ b) 1).toList = [.ok (root 0), .ok (root 13)] ∧
      check r ⟨1, none⟩ (a ++ "\n" ++ b) = .error (.validation [missing 0, missing 13]) := by
  intro text box r a b root missing
  have hfirst : Document.parse a 1 = .ok ⟨[root 0]⟩ := by cbv
  have hsecond : Document.parse b 1 = .ok ⟨[root 0]⟩ := by cbv
  obtain ⟨hroots, hlist, hchecks⟩ := documents_compose a b 1 _ hfirst
  obtain ⟨-, hfailed⟩ := hchecks _ hsecond r none
  have hlength : byteLength a.toList = 12 := by decide +kernel
  have hbehind : Relocation.behind a = .shift 13 := by rw [Relocation.behind, hlength]
  have hreported {source : String} (h : Document.parse source 1 = .ok ⟨[root 0]⟩) :
      reported (check r ⟨1, none⟩ source) = [missing 0] := by
    have hcheck : check r ⟨1, none⟩ source = _ := check_of_parse h
    rw [hcheck, reported_settle]
    decide +kernel
  refine ⟨hfirst, hsecond, ?_, ?_⟩
  · rw [hlist, hroots, Document.parse_eq_ok_iff_toList.mp hsecond, hbehind]
    rfl
  · rw [hfailed, hreported hfirst, hreported hsecond, hbehind]
    exact ⟨by simp, rfl⟩

end UiMarkup
