import UiMarkup.Proofs.Token.Spelling
import UiMarkup.Text.Blank
import UiMarkup.Text.Pieces

/-!
# Text trimmed and in pieces

What is left of a text without the white space at its ends, and what the pieces
of a text are, said without the loops that find them.
-/

namespace UiMarkup

/-! ## White space at the ends -/

/-- White space was taken from both ends of a text, as much as there is. -/
def Trims (cs inner : List Char) : Prop :=
  ∃ front back, cs = front ++ (inner ++ back) ∧ (∀ c ∈ front, isBlank c) ∧
    (∀ c ∈ back, isBlank c) ∧ Stops isBlank inner ∧ Stops isBlank inner.reverse

theorem stops_dropWhile (p : Char → Bool) (cs : List Char) : Stops p (cs.dropWhile p) := by
  intro c hc
  have hfirst := List.head?_dropWhile_not p cs
  rw [Option.mem_def.mp hc] at hfirst
  exact hfirst

theorem stops_of_append {p : Char → Bool} {cs rest : List Char} (h : Stops p (cs ++ rest)) :
    Stops p cs := by
  intro c hc
  exact h c (by rw [List.head?_append, Option.mem_def.mp hc]; rfl)

theorem stops_append {p : Char → Bool} {cs rest : List Char} (hcs : cs ≠ []) (h : Stops p cs) :
    Stops p (cs ++ rest) := by
  cases cs with
  | nil => exact absurd rfl hcs
  | cons c cs => exact h

theorem exists_dropBlankEnd (cs : List Char) :
    ∃ back, dropBlankEnd cs ++ back = cs ∧ ∀ c ∈ back, isBlank c := by
  refine ⟨(cs.reverse.takeWhile isBlank).reverse, ?_, ?_⟩
  · rw [dropBlankEnd, ← List.reverse_append, List.takeWhile_append_dropWhile, List.reverse_reverse]
  · exact fun c hc => List.mem_takeWhile_imp (List.mem_reverse.mp hc)

theorem trims_trimBlank (cs : List Char) : Trims cs (trimBlank cs) := by
  obtain ⟨back, hback, hblank⟩ := exists_dropBlankEnd (cs.dropWhile isBlank)
  refine ⟨cs.takeWhile isBlank, back, ?_, fun c hc => List.mem_takeWhile_imp hc, hblank, ?_, ?_⟩
  · rw [trimBlank, hback, List.takeWhile_append_dropWhile]
  · exact stops_of_append (hback.symm ▸ stops_dropWhile isBlank cs)
  · rw [trimBlank, dropBlankEnd, List.reverse_reverse]
    exact stops_dropWhile isBlank _

theorem trimBlank_eq_iff {cs inner : List Char} : trimBlank cs = inner ↔ Trims cs inner := by
  constructor
  · rintro rfl
    exact trims_trimBlank cs
  · rintro ⟨front, back, rfl, hfront, hback, hfirst, hlast⟩
    by_cases hinner : inner = []
    · subst hinner
      have hblank : ∀ c ∈ front ++ ([] ++ back), isBlank c := by
        simpa [or_imp, forall_and] using ⟨hfront, hback⟩
      rw [trimBlank, List.dropWhile_eq_nil_iff.mpr hblank]
      rfl
    · rw [trimBlank, dropWhile_stop hfront (stops_append hinner hfirst), dropBlankEnd,
        List.reverse_append, dropWhile_stop (fun c hc => hback c (List.mem_reverse.mp hc)) hlast,
        List.reverse_reverse]

/-! ## Pieces -/

/-- The pieces of a text lie between its marks, the first in front of all of them and
the last behind. -/
structure Pieces (mark : Char) (cs : List Char) (pieces : List (List Char)) : Prop where
  nonempty : pieces ≠ []
  unmarked : ∀ piece ∈ pieces, mark ∉ piece
  joined : [mark].intercalate pieces = cs

theorem piecesAt_ne_nil (mark : Char) (cs : List Char) : piecesAt mark cs ≠ [] := by
  fun_cases piecesAt mark cs <;> simp

theorem piecesAt_mark (mark : Char) (cs : List Char) :
    piecesAt mark (mark :: cs) = [] :: piecesAt mark cs := by
  rw [piecesAt, if_pos rfl]

theorem piecesAt_unmarked {mark : Char} {piece : List Char} (h : mark ∉ piece) :
    piecesAt mark piece = [piece] := by
  induction piece with
  | nil => rfl
  | cons c piece ih =>
    have hc : c ≠ mark := fun hc => h (hc ▸ List.mem_cons_self)
    rw [piecesAt, if_neg hc, ih fun hmem => h (List.mem_cons_of_mem c hmem)]

theorem piecesAt_append {mark : Char} {piece : List Char} (h : mark ∉ piece) (cs : List Char) :
    piecesAt mark (piece ++ mark :: cs) = piece :: piecesAt mark cs := by
  induction piece with
  | nil => exact piecesAt_mark mark cs
  | cons c piece ih =>
    have hc : c ≠ mark := fun hc => h (hc ▸ List.mem_cons_self)
    rw [List.cons_append, piecesAt, if_neg hc, ih fun hmem => h (List.mem_cons_of_mem c hmem)]

theorem intercalate_cons (mark : Char) (piece : List Char) (pieces : List (List Char)) :
    [mark].intercalate (piece :: pieces) = piece ++ pieces.flatMap (mark :: ·) := by
  induction pieces generalizing piece with
  | nil => simp
  | cons next pieces ih => rw [List.intercalate_cons_cons, ih, List.flatMap_cons]; simp

theorem pieces_piecesAt (mark : Char) (cs : List Char) : Pieces mark cs (piecesAt mark cs) := by
  fun_induction piecesAt mark cs with
  | case1 => exact ⟨by simp, by simp, rfl⟩
  | case2 cs ih =>
    refine ⟨by simp, by simpa using ih.unmarked, ?_⟩
    obtain ⟨piece, pieces, hpieces⟩ := List.exists_cons_of_ne_nil ih.nonempty
    have hjoined := ih.joined
    rw [hpieces, intercalate_cons] at hjoined
    rw [intercalate_cons, hpieces, List.flatMap_cons, ← hjoined]
    rfl
  | case3 c cs hc hnone ih => exact absurd hnone (piecesAt_ne_nil mark cs)
  | case4 c cs hc piece pieces hpieces ih =>
    rw [hpieces] at ih
    refine ⟨by simp, ?_, ?_⟩
    · obtain ⟨hpiece, hmore⟩ := List.forall_mem_cons.mp ih.unmarked
      have hfirst := List.not_mem_cons_of_ne_of_not_mem (Ne.symm hc) hpiece
      exact List.forall_mem_cons.mpr ⟨hfirst, hmore⟩
    · have hjoined := ih.joined
      rw [intercalate_cons] at hjoined ⊢
      rw [← hjoined]
      rfl

theorem piecesAt_eq_iff {mark : Char} {cs : List Char} {pieces : List (List Char)} :
    piecesAt mark cs = pieces ↔ Pieces mark cs pieces := by
  constructor
  · rintro rfl
    exact pieces_piecesAt mark cs
  · rintro ⟨hsome, hunmarked, rfl⟩
    induction pieces with
    | nil => exact absurd rfl hsome
    | cons piece pieces ih =>
      have hpiece := hunmarked piece List.mem_cons_self
      cases pieces with
      | nil =>
        rw [List.intercalate_singleton]
        exact piecesAt_unmarked hpiece
      | cons next pieces =>
        rw [List.intercalate_cons_cons, List.append_assoc, List.singleton_append,
          piecesAt_append hpiece,
          ih (List.cons_ne_nil _ _) fun p hp => hunmarked p (List.mem_cons_of_mem _ hp)]

end UiMarkup
