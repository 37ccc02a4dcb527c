import Mathlib.Data.List.Sort
import UiMarkup.Check.Error

/-!
# The order of errors

Errors are sorted by their starts, and those with one start keep their order.
What was in an order of its own is then in order of the starts first, and in
that order where starts are equal.
-/

namespace UiMarkup.ValidationError

variable {α : Type}

/-- Errors, each with a mark that says what was found. -/
abbrev Found (α : Type) := List (α × ValidationError)

/-- The first one is not behind the second one. -/
def StartsBy (e f : ValidationError) : Prop := e.span.start ≤ f.span.start

instance : DecidableRel StartsBy :=
  fun e f => inferInstanceAs (Decidable (e.span.start ≤ f.span.start))

theorem insertByStart_eq (e : ValidationError) (errors : List ValidationError) :
    insertByStart e errors = errors.orderedInsert StartsBy e := by
  induction errors with
  | nil => rfl
  | cons f rest ih =>
    rw [insertByStart, List.orderedInsert, ih]
    rfl

theorem sortByStart_cons (e : ValidationError) (errors : List ValidationError) :
    sortByStart (e :: errors) = insertByStart e (sortByStart errors) := rfl

theorem sortByStart_eq (errors : List ValidationError) :
    sortByStart errors = errors.insertionSort StartsBy := by
  induction errors with
  | nil => rfl
  | cons e rest ih =>
    rw [List.insertionSort_cons, ← ih, ← insertByStart_eq, sortByStart_cons]

theorem perm_sortByStart (errors : List ValidationError) : (sortByStart errors).Perm errors := by
  rw [sortByStart_eq]
  exact List.perm_insertionSort StartsBy errors

theorem sortByStart_eq_nil_iff {errors : List ValidationError} :
    sortByStart errors = [] ↔ errors = [] := by
  rw [← List.length_eq_zero_iff, (perm_sortByStart errors).length_eq, List.length_eq_zero_iff]

instance : Std.Total StartsBy := ⟨fun e f => Nat.le_total e.span.start f.span.start⟩

instance : IsTrans ValidationError StartsBy := ⟨fun _ _ _ => Nat.le_trans⟩

theorem pairwise_sortByStart (errors : List ValidationError) :
    (sortByStart errors).Pairwise StartsBy := by
  rw [sortByStart_eq]
  exact List.pairwise_insertionSort StartsBy errors

/-! ## Errors that are left out -/

theorem insertByStart_first {e : ValidationError} {errors : List ValidationError}
    (h : ∀ f ∈ errors, e.StartsBy f) : insertByStart e errors = e :: errors := by
  cases errors with
  | nil => rfl
  | cons f rest =>
    rw [insertByStart, if_pos]
    exact h f List.mem_cons_self

theorem filter_insertByStart (keep : ValidationError → Bool) (e : ValidationError)
    {errors : List ValidationError} (h : errors.Pairwise StartsBy) :
    (insertByStart e errors).filter keep =
      if keep e then insertByStart e (errors.filter keep) else errors.filter keep := by
  induction errors with
  | nil => simp [insertByStart, List.filter_cons]
  | cons f rest ih =>
    obtain ⟨hf, hrest⟩ := List.pairwise_cons.mp h
    rw [insertByStart]
    by_cases hle : e.span.start ≤ f.span.start
    · -- `f` may be left out, but what is kept behind it does not start before `e` either.
      have hfirst : ∀ g ∈ (f :: rest).filter keep, e.StartsBy g := by
        intro g hg
        rcases List.mem_cons.mp (List.mem_of_mem_filter hg) with rfl | hg
        · exact hle
        · exact Nat.le_trans hle (hf g hg)
      rw [if_pos hle, insertByStart_first hfirst, List.filter_cons]
    · rw [if_neg hle, List.filter_cons, List.filter_cons, ih hrest]
      by_cases hkeep : keep f
      · simp only [hkeep, if_true]
        split
        · rw [insertByStart, if_neg hle]
        · rfl
      · simp [hkeep]

/-- Leaving errors out keeps the order of the others. -/
theorem filter_sortByStart (keep : ValidationError → Bool) (errors : List ValidationError) :
    (sortByStart errors).filter keep = sortByStart (errors.filter keep) := by
  induction errors with
  | nil => rfl
  | cons e rest ih =>
    rw [sortByStart_cons, filter_insertByStart keep e (pairwise_sortByStart rest), ih,
      List.filter_cons]
    split <;> rfl

/-! ## Errors behind one another -/

theorem insertByStart_append {e : ValidationError} {errors rest : List ValidationError}
    (h : ∀ f ∈ rest, e.StartsBy f) :
    insertByStart e (errors ++ rest) = insertByStart e errors ++ rest := by
  induction errors with
  | nil => exact insertByStart_first h
  | cons f errors ih =>
    rw [List.cons_append, insertByStart, insertByStart, ih]
    split <;> rfl

/-- Errors that start no later than the others are sorted in front of them. -/
theorem sortByStart_append {errors rest : List ValidationError}
    (h : ∀ e ∈ errors, ∀ f ∈ rest, e.StartsBy f) :
    sortByStart (errors ++ rest) = sortByStart errors ++ sortByStart rest := by
  induction errors with
  | nil => rfl
  | cons e errors ih =>
    obtain ⟨he, herrors⟩ := List.forall_mem_cons.mp h
    rw [List.cons_append, sortByStart_cons, sortByStart_cons, ih herrors, insertByStart_append]
    intro f hf
    exact he f ((perm_sortByStart rest).mem_iff.mp hf)

/-! ## Marks stay with their errors -/

namespace Found

/-- The same order on errors with marks. -/
def StartsBy (x y : α × ValidationError) : Prop := x.2.StartsBy y.2

instance : DecidableRel (StartsBy (α := α)) :=
  fun x y => inferInstanceAs (Decidable (x.2.StartsBy y.2))

def sort (found : Found α) : Found α := found.insertionSort StartsBy

theorem map_snd_sort (found : Found α) :
    found.sort.map Prod.snd = sortByStart (found.map Prod.snd) := by
  rw [sortByStart_eq, sort]
  exact List.map_insertionSort _ _ _ _ fun _ _ _ _ => Iff.rfl

theorem perm_sort (found : Found α) : found.sort.Perm found := List.perm_insertionSort _ found

/-- In front by the start, or by the marks if the starts are equal. -/
def Sooner (before : α → α → Prop) (x y : α × ValidationError) : Prop :=
  x.2.span.start < y.2.span.start ∨ x.2.span.start = y.2.span.start ∧ before x.1 y.1

theorem sooner_of_startsBy {before : α → α → Prop} {x y : α × ValidationError}
    (h : StartsBy x y) (hbefore : before x.1 y.1) : Sooner before x y := by
  rcases Nat.lt_or_eq_of_le h with h | h
  · exact .inl h
  · exact .inr ⟨h, hbefore⟩

theorem startsBy_of_sooner {before : α → α → Prop} {x y : α × ValidationError}
    (h : Sooner before x y) : StartsBy x y := by
  rcases h with h | ⟨h, -⟩
  · exact Nat.le_of_lt h
  · exact Nat.le_of_eq h

theorem pairwise_orderedInsert {before : α → α → Prop} {x : α × ValidationError}
    {found : Found α} (hx : ∀ y ∈ found, before x.1 y.1) (h : found.Pairwise (Sooner before)) :
    (found.orderedInsert StartsBy x).Pairwise (Sooner before) := by
  induction found with
  | nil => exact List.pairwise_singleton _ x
  | cons y rest ih =>
    obtain ⟨hy, hrest⟩ := List.pairwise_cons.mp h
    rw [List.orderedInsert]
    split
    next hle =>
      refine List.pairwise_cons.mpr ⟨fun z hz => sooner_of_startsBy ?_ (hx z hz), h⟩
      rcases List.mem_cons.mp hz with rfl | hz
      · exact hle
      · exact Nat.le_trans hle (startsBy_of_sooner (hy z hz))
    next hlt =>
      have hx' : ∀ z ∈ rest, before x.1 z.1 := fun z hz => hx z (List.mem_cons_of_mem _ hz)
      refine List.pairwise_cons.mpr ⟨fun z hz => ?_, ih hx' hrest⟩
      rcases (List.mem_orderedInsert StartsBy).mp hz with rfl | hz
      · exact .inl (Nat.lt_of_not_le hlt)
      · exact hy z hz

/-- Sorting keeps the order of the marks where the starts leave it open. -/
theorem pairwise_sort {before : α → α → Prop} {found : Found α}
    (h : found.Pairwise fun x y => before x.1 y.1) : found.sort.Pairwise (Sooner before) := by
  induction found with
  | nil => exact .nil
  | cons x rest ih =>
    obtain ⟨hx, hrest⟩ := List.pairwise_cons.mp h
    refine pairwise_orderedInsert (fun y hy => hx y ?_) (ih hrest)
    exact (perm_sort rest).mem_iff.mp hy

end Found

end UiMarkup.ValidationError
