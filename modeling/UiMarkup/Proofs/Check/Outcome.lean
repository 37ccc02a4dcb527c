import UiMarkup.Check.Validator
import UiMarkup.Proofs.Check.Order

/-!
# What is answered

A document and a stylesheet are answered alike. Their source is read, and then
the errors of their declarations decide: there is a result if there are none,
and otherwise all of them are reported.
-/

namespace UiMarkup

open ValidationError (sortByStart)

variable {α : Type}

/-! ## Errors decide -/

def settle (errors : List ValidationError) (result : α) : Except (List ValidationError) α :=
  match errors with
  | [] => .ok result
  | errors => .error (sortByStart errors)

theorem settle_eq_ok_iff {errors : List ValidationError} {result x : α} :
    settle errors result = .ok x ↔ errors = [] ∧ x = result := by
  unfold settle
  cases errors <;> simp [eq_comm]

theorem settle_eq_error_iff {errors report : List ValidationError} {result : α} :
    settle errors result = .error report ↔ errors ≠ [] ∧ report = sortByStart errors := by
  unfold settle
  cases errors <;> simp [eq_comm]

theorem Validator.validate_eq_settle (v : Validator) (ds : List Declaration) :
    v.validate ds = settle (v.errors ds) (v.components ds) := rfl

theorem Validator.validateDocument_eq_settle (v : Validator) (doc : Document) :
    v.validateDocument doc = settle (v.errors doc.roots) ⟨v.components doc.roots⟩ := by
  unfold validateDocument
  rw [validate_eq_settle]
  unfold settle
  cases v.errors doc.roots <;> rfl

theorem Stylesheet.ofDeclarations_eq_settle (r : Registry) (ds : List Declaration) :
    ofDeclarations r ds =
      settle ((Declaration.preorderAll ds).flatMap (ruleErrors r))
        ((Declaration.preorderAll ds).foldl (addRule r) empty) := rfl

/-! ## Sources -/

/-- Reads a source and works on its document. -/
def readThen (source : String) (maxDepth : Nat)
    (work : Document → Except (List ValidationError) α) : Except CheckError α := do
  let doc ← (Document.parse source maxDepth).mapError .parse
  (work doc).mapError .validation

theorem check_eq_readThen (r : Registry) (options : CheckOptions) (source : String) :
    check r options source =
      readThen source options.maxDepth (Validator.mk r options.stylesheet).validateDocument := rfl

theorem Stylesheet.parse_eq_readThen (r : Registry) (source : String) :
    parse r source = readThen source defaultMaxDepth fun doc => ofDeclarations r doc.roots := rfl

section readThen

variable {source : String} {maxDepth : Nat} {work : Document → Except (List ValidationError) α}

theorem readThen_of_parse {doc : Document} (h : Document.parse source maxDepth = .ok doc) :
    readThen source maxDepth work = (work doc).mapError .validation := by
  unfold readThen
  rw [h]
  rfl

theorem readThen_of_error {e : ParseError} (h : Document.parse source maxDepth = .error e) :
    readThen source maxDepth work = .error (.parse e) := by
  unfold readThen
  rw [h]
  rfl

theorem readThen_eq_ok_iff {x : α} :
    readThen source maxDepth work = .ok x ↔
      ∃ doc, Document.parse source maxDepth = .ok doc ∧ work doc = .ok x := by
  unfold readThen
  simp only [bind_eq_ok_iff, mapError_eq_ok_iff]

theorem readThen_eq_parse_iff {e : ParseError} :
    readThen source maxDepth work = .error (.parse e) ↔
      Document.parse source maxDepth = .error e := by
  cases hparse : Document.parse source maxDepth with
  | error e' => rw [readThen_of_error hparse]; simp
  | ok doc =>
    rw [readThen_of_parse hparse, mapError_eq_error_iff]
    simp

end readThen

/-- A document that is read is checked by its errors alone. -/
theorem check_of_parse {r : Registry} {options : CheckOptions} {source : String} {doc : Document}
    (h : Document.parse source options.maxDepth = .ok doc) :
    let v : Validator := ⟨r, options.stylesheet⟩
    check r options source =
      (settle (v.errors doc.roots) ⟨v.components doc.roots⟩).mapError .validation := by
  intro v
  rw [check_eq_readThen, readThen_of_parse h, Validator.validateDocument_eq_settle]

theorem check_eq_ok_iff {r : Registry} {options : CheckOptions} {source : String}
    {checked : CheckedDocument} :
    check r options source = .ok checked ↔ ∃ doc, Document.parse source options.maxDepth = .ok doc ∧
      (Validator.mk r options.stylesheet).errors doc.roots = [] ∧
      checked = ⟨(Validator.mk r options.stylesheet).components doc.roots⟩ := by
  simp only [check_eq_readThen, readThen_eq_ok_iff, Validator.validateDocument_eq_settle,
    settle_eq_ok_iff]

end UiMarkup
