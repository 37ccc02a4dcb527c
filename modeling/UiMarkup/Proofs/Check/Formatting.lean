import UiMarkup.Proofs.Check.Erasure
import UiMarkup.Proofs.Check.Outcome
import UiMarkup.Proofs.Declaration.Printing

/-!
# Canonical text means the same

A source and its canonical text differ in the places of what they say, and in
the order of assignments and children. Neither is looked at when a document is
checked or a stylesheet is made. Only errors have places.
-/

namespace UiMarkup

/-! ## Errors at other places -/

namespace ValidationError

/-- The same errors, each at whatever place. -/
def Moved (errors moved : List ValidationError) : Prop := moved.map erase = errors.map erase

/-- The same errors, at whatever places and in whatever order. -/
def SameBesidesPlaces (errors moved : List ValidationError) : Prop :=
  (moved.map erase).Perm (errors.map erase)

variable {errors moved : List ValidationError}

theorem Moved.eq_nil_iff (h : Moved errors moved) : moved = [] ↔ errors = [] := by
  unfold Moved at h
  rw [← List.map_eq_nil_iff (f := erase), h, List.map_eq_nil_iff]

/-- The order of the source is another one when the places are other ones. -/
theorem Moved.sortByStart (h : Moved errors moved) :
    SameBesidesPlaces (sortByStart errors) (sortByStart moved) := by
  have herrors := (perm_sortByStart errors).map erase
  have hmoved := (perm_sortByStart moved).map erase
  rw [h] at hmoved
  exact hmoved.trans herrors.symm

theorem Moved.settle_eq_ok_iff (h : Moved errors moved) {α : Type} {result x : α} :
    settle moved result = .ok x ↔ settle errors result = .ok x := by
  simp only [UiMarkup.settle_eq_ok_iff, h.eq_nil_iff]

theorem Moved.settle_eq_error (h : Moved errors moved) {α : Type} {result : α}
    {report : List ValidationError} (hreport : settle errors result = .error report) :
    ∃ report', settle moved result = .error report' ∧ SameBesidesPlaces report report' := by
  obtain ⟨hwrong, rfl⟩ := settle_eq_error_iff.mp hreport
  exact ⟨_, settle_eq_error_iff.mpr ⟨mt h.eq_nil_iff.mp hwrong, rfl⟩, h.sortByStart⟩

end ValidationError

open Declaration (eraseAll preorderAll)
open ValidationError (Moved SameBesidesPlaces)

/-! ## Declarations at other places -/

section places

variable {ds es : List Declaration}

theorem Validator.moved_errors (v : Validator) (h : eraseAll es = eraseAll ds) :
    Moved (v.errors ds) (v.errors es) := by
  unfold Moved
  rw [← errors_eraseAll, ← errors_eraseAll, h]

theorem Stylesheet.moved_ruleErrors (r : Registry) (h : eraseAll es = eraseAll ds) :
    Moved ((preorderAll ds).flatMap (ruleErrors r)) ((preorderAll es).flatMap (ruleErrors r)) := by
  unfold Moved
  rw [← ruleErrors_eraseAll, ← ruleErrors_eraseAll, h]

theorem Stylesheet.rules_of_eraseAll (r : Registry) (s : Stylesheet)
    (h : eraseAll es = eraseAll ds) :
    (preorderAll es).foldl (addRule r) s = (preorderAll ds).foldl (addRule r) s := by
  rw [← rules_eraseAll, h, rules_eraseAll]

end places

/-! ## Canonical text -/

/-- **Canonical text means the same.** It is checked as the same document or has the same errors,
and it makes the same stylesheet. -/
theorem check_print (r : Registry) (source : String) (doc : Document)
    (h : Document.parse source defaultMaxDepth = .ok doc) :
    (∀ checked, check r ⟨defaultMaxDepth, none⟩ source = .ok checked ↔
      check r ⟨defaultMaxDepth, none⟩ doc.print = .ok checked) ∧
    (∀ e, check r ⟨defaultMaxDepth, none⟩ source = .error e →
      ∃ errors moved, e = .validation errors ∧
        check r ⟨defaultMaxDepth, none⟩ doc.print = .error (.validation moved) ∧
        SameBesidesPlaces errors moved) ∧
    ∀ sheet, Stylesheet.parse r source = .ok sheet ↔ Stylesheet.parse r doc.print = .ok sheet := by
  obtain ⟨ts, hlex, hroots, hdepth⟩ := parse_eq_ok_iff.mp h
  obtain ⟨again, hagain, herase⟩ := parse_print_of_roots hroots (legibleAll_of_lex hlex) hdepth
  have hsame : eraseAll again.roots = eraseAll doc.roots := congrArg Document.roots herase
  let v : Validator := ⟨r, none⟩
  have hmoved : Moved (v.errors doc.roots) (v.errors again.roots) := v.moved_errors hsame
  have hcomponents : v.components again.roots = v.components doc.roots :=
    v.components_of_eraseAll hsame
  simp only [check_eq_readThen, Stylesheet.parse_eq_readThen, readThen_of_parse h,
    readThen_of_parse hagain, Validator.validateDocument_eq_settle,
    Stylesheet.ofDeclarations_eq_settle, mapError_eq_ok_iff]
  rw [hcomponents, Stylesheet.rules_of_eraseAll r _ hsame]
  refine ⟨?_, ?_, ?_⟩
  · intro checked
    exact hmoved.settle_eq_ok_iff.symm
  · intro e herror
    obtain ⟨errors, herrors, rfl⟩ := mapError_eq_error_iff.mp herror
    obtain ⟨moved, hreport, hbesides⟩ := hmoved.settle_eq_error herrors
    exact ⟨errors, moved, rfl, mapError_eq_error_iff.mpr ⟨moved, hreport, rfl⟩, hbesides⟩
  · intro sheet
    exact (Stylesheet.moved_ruleErrors r hsame).settle_eq_ok_iff.symm

/-- The unknown attribute moves in front of the child, and so does its error. -/
theorem check_print_swapped :
    let text : Attribute := .plain "text" .string "" true
    let box : ComponentSchema := ⟨"box", "", [], [text], by decide⟩
    let r : Registry := ⟨.empty, NameMap.empty.insert "box" box, none⟩
    let size : Assignment := ⟨⟨"size", ⟨14, 18⟩⟩, ⟨"2", ⟨20, 21⟩⟩, ⟨14, 22⟩⟩
    let inner : Declaration := ⟨⟨"box", ⟨6, 9⟩⟩, none, [], [], ⟨6, 13⟩⟩
    let doc : Document := ⟨[⟨⟨"box", ⟨0, 3⟩⟩, none, [size], [inner], ⟨0, 24⟩⟩]⟩
    let errors : List ValidationError := [⟨⟨0, 3⟩, .missingRequired "box" "text"⟩,
      ⟨⟨6, 9⟩, .missingRequired "box" "text"⟩, ⟨⟨14, 18⟩, .unknownAttribute "box" "size"⟩]
    Document.parse "box \x7b box \x7b \x7d size: 2; \x7d" defaultMaxDepth = .ok doc ∧
      doc.print = "box \x7b\n    size: 2;\n    box \x7b\x7d\n\x7d\n" ∧
      check r ⟨defaultMaxDepth, none⟩ "box \x7b box \x7b \x7d size: 2; \x7d" =
        .error (.validation errors) ∧
      ∃ moved, check r ⟨defaultMaxDepth, none⟩ doc.print = .error (.validation moved) ∧
        SameBesidesPlaces errors moved := by
  intro text box r size inner doc errors
  have hparse : Document.parse "box \x7b box \x7b \x7d size: 2; \x7d" defaultMaxDepth =
      .ok doc := by
    cbv
  have hcheck : check r ⟨defaultMaxDepth, none⟩ "box \x7b box \x7b \x7d size: 2; \x7d" =
      .error (.validation errors) := by
    rw [check_eq_readThen, readThen_of_parse hparse, Validator.validateDocument_eq_settle]
    have hwrong : (Validator.mk r none).errors doc.roots ≠ [] ∧
        errors = ValidationError.sortByStart ((Validator.mk r none).errors doc.roots) := by
      decide +kernel
    rw [settle_eq_error_iff.mpr hwrong]
    rfl
  obtain ⟨-, hfailed, -⟩ := check_print r _ doc hparse
  obtain ⟨errors', moved, hsame, hmoved, hbesides⟩ := hfailed _ hcheck
  cases hsame
  exact ⟨hparse, by decide +kernel, hcheck, moved, hmoved, hbesides⟩

end UiMarkup
