import Mathlib.Data.List.Induction
import UiMarkup.Proofs.Token.Places

/-!
# Lines and columns count what is in front

A position is found by a walk over the characters that begin in front of a
byte. What it says can be read off these characters alone: their newlines give
the line, and those behind the last newline give the column. So positions keep
the order of the places that they are shown for.
-/

namespace UiMarkup

variable {p q : Position} {cs front back : List Char} {ps : List (Placed Char)} {first n : Nat}

/-! ## Characters and the bytes they begin at -/

/-- The characters of a text, one behind the other from the byte `first` on. -/
def placeChars (first : Nat) : List Char → List (Placed Char)
  | [] => []
  | c :: cs => ⟨c, ⟨first, first + c.utf8Size⟩⟩ :: placeChars (first + c.utf8Size) cs

theorem map_value_placeChars (first : Nat) (cs : List Char) :
    (placeChars first cs).map Placed.value = cs := by
  induction cs generalizing first with
  | nil => rfl
  | cons c cs ih => simp [placeChars, ih]

theorem bounds_of_mem_placeChars {p : Placed Char} (h : p ∈ placeChars first cs) :
    first ≤ p.span.start ∧ p.span.start < p.span.stop ∧
      p.span.stop ≤ first + byteLength cs := by
  induction cs generalizing first with
  | nil => simp [placeChars] at h
  | cons c cs ih =>
    have hpos := c.utf8Size_pos
    rw [byteLength]
    rcases List.mem_cons.mp h with rfl | h
    · simp; omega
    · have := ih h
      omega

theorem inOrder_placeChars (first : Nat) (cs : List Char) : InOrder (placeChars first cs) := by
  refine ⟨fun p hp => (bounds_of_mem_placeChars hp).2.1, ?_⟩
  induction cs generalizing first with
  | nil => exact .nil
  | cons c cs ih =>
    refine List.pairwise_cons.mpr ⟨?_, ih _⟩
    intro p hp
    exact (bounds_of_mem_placeChars hp).1

theorem filter_placeChars_append (first : Nat) (front back : List Char) :
    (placeChars first (front ++ back)).filter (·.span.start < first + byteLength front) =
      placeChars first front := by
  induction front generalizing first with
  | nil =>
    rw [List.nil_append, placeChars, List.filter_eq_nil_iff]
    intro p hp
    have := (bounds_of_mem_placeChars hp).1
    rw [decide_eq_true_iff, byteLength]
    omega
  | cons c front ih =>
    have hpos := c.utf8Size_pos
    rw [List.cons_append, placeChars, byteLength, ← Nat.add_assoc,
      List.filter_cons_of_pos (by simp; omega), ih, placeChars]

/-- The characters of a source that begin in front of a byte. An offset behind the source counts
as its end. -/
def begunBefore (source : String) (offset : Nat) : List (Placed Char) :=
  (placeChars 0 source.toList).filter
    (·.span.start < min offset (byteLength source.toList))

theorem inOrder_begunBefore (source : String) (offset : Nat) :
    InOrder (begunBefore source offset) :=
  (inOrder_placeChars _ _).sublist List.filter_sublist

/-! ## The walk -/

namespace Position

/-- A walk of `n` bytes steps over the characters that begin in them. -/
theorem advance_eq_foldl (p : Position) (first n : Nat) (cs : List Char) :
    p.advance cs n =
      (((placeChars first cs).filter (·.span.start < first + n)).map Placed.value).foldl step p := by
  induction cs generalizing p first n with
  | nil => rfl
  | cons c cs ih =>
    cases n with
    | zero =>
      have hnone : (placeChars first (c :: cs)).filter (·.span.start < first + 0) = [] := by
        rw [List.filter_eq_nil_iff]
        intro p hp
        have := (bounds_of_mem_placeChars hp).1
        simp; omega
      rw [hnone]
      rfl
    | succ n =>
      -- No character begins inside of `c`, so the step over it may take all its bytes.
      have hrest : (placeChars (first + c.utf8Size) cs).filter
            (·.span.start < first + c.utf8Size + (n + 1 - c.utf8Size)) =
          (placeChars (first + c.utf8Size) cs).filter (·.span.start < first + (n + 1)) := by
        apply List.filter_congr
        intro p hp
        have := (bounds_of_mem_placeChars hp).1
        simp; omega
      rw [advance, ih (p.step c) (first + c.utf8Size), hrest, placeChars,
        List.filter_cons_of_pos (by simp), List.map_cons, List.foldl_cons]

theorem ofOffset_eq_begun (source : String) (offset : Nat) :
    ofOffset source offset =
      ((begunBefore source offset).map Placed.value).foldl step start := by
  have hsame : begunBefore source offset =
      (placeChars 0 source.toList).filter (·.span.start < 0 + offset) := by
    apply List.filter_congr
    intro p hp
    have := bounds_of_mem_placeChars hp
    simp; omega
  rw [hsame, ← advance_eq_foldl]
  rfl

/-- In front of a boundary are the characters up to it. -/
theorem ofOffset_eq_foldl {source : String} (hsource : source.toList = front ++ back) :
    ofOffset source (byteLength front) = front.foldl step start := by
  have hfront := filter_placeChars_append 0 front back
  rw [Nat.zero_add] at hfront
  rw [ofOffset, hsource, advance_eq_foldl start 0, Nat.zero_add, hfront, map_value_placeChars]

end Position

/-! ## Newlines and what is behind them -/

/-- All newlines of the text begin in front of the character. -/
def BehindNewlines (ps : List (Placed Char)) (p : Placed Char) : Prop :=
  ∀ q ∈ ps, q.value = '\n' → q.span.start < p.span.start

instance (ps : List (Placed Char)) (p : Placed Char) : Decidable (BehindNewlines ps p) :=
  inferInstanceAs (Decidable (∀ q ∈ ps, q.value = '\n' → q.span.start < p.span.start))

theorem start_lt_of_inOrder {p : Placed Char} (h : InOrder (ps ++ [p])) :
    ∀ q ∈ ps, q.span.start < p.span.start := by
  intro q hq
  have hlt := h.start_lt_stop q (by simp [hq])
  have hle := (List.pairwise_append.mp h.apart).2.2 q hq p (by simp)
  omega

theorem countP_behind_newline {p : Placed Char} (h : InOrder (ps ++ [p])) (hp : p.value = '\n') :
    (ps ++ [p]).countP (BehindNewlines (ps ++ [p])) = 0 := by
  rw [List.countP_eq_zero]
  intro q hq hbehind
  have hlt := of_decide_eq_true hbehind p (by simp) hp
  rcases List.mem_append.mp hq with hq | hq
  · have := start_lt_of_inOrder h q hq
    omega
  · rw [List.mem_singleton.mp hq] at hlt
    omega

theorem countP_behind_other {p : Placed Char} (h : InOrder (ps ++ [p])) (hp : p.value ≠ '\n') :
    (ps ++ [p]).countP (BehindNewlines (ps ++ [p])) = ps.countP (BehindNewlines ps) + 1 := by
  have hsame (q : Placed Char) : BehindNewlines (ps ++ [p]) q ↔ BehindNewlines ps q := by
    simp [BehindNewlines, or_imp, forall_and, hp]
  have hlast : BehindNewlines ps p := fun q hq _ => start_lt_of_inOrder h q hq
  simp [List.countP_append, hsame, hlast]

theorem foldl_step_of_inOrder (h : InOrder ps) :
    (ps.map Placed.value).foldl Position.step .start =
      ⟨1 + ps.countP (·.value = '\n'), 1 + ps.countP (BehindNewlines ps)⟩ := by
  -- From the right: the last character alone says whether a line begins behind it.
  induction ps using List.reverseRecOn with
  | nil => rfl
  | append_singleton ps p ih =>
    have hfront : InOrder ps := h.sublist (List.sublist_append_left ps [p])
    rw [List.map_append, List.foldl_append, ih hfront]
    by_cases hp : p.value = '\n'
    · rw [countP_behind_newline h hp]
      simp [Position.step, hp, List.countP_append]
      omega
    · rw [countP_behind_other h hp]
      simp [Position.step, hp, List.countP_append]
      omega

/-! ## Order -/

/-- What stands between two boundaries. -/
theorem exists_between {a b : Nat} (ha : IsBoundary cs a) (hb : IsBoundary cs b) (h : a < b) :
    ∃ front middle back, cs = front ++ middle ++ back ∧ middle ≠ [] ∧
      a = byteLength front ∧ b = byteLength (front ++ middle) := by
  obtain ⟨front, rest, rfl, rfl⟩ := ha
  obtain ⟨front', back, hcs, rfl⟩ := hb
  rcases List.append_eq_append_iff.mp hcs with ⟨middle, rfl, rfl⟩ | ⟨middle, rfl, rfl⟩
  · refine ⟨front, middle, back, by simp, ?_, rfl, rfl⟩
    rintro rfl
    simp at h
  · rw [byteLength_append] at h
    omega

namespace Position

/-- On an earlier line, or on the same line further to the left. -/
def Before (p q : Position) : Prop :=
  p.line < q.line ∨ p.line = q.line ∧ p.column < q.column

instance (p q : Position) : Decidable (p.Before q) :=
  inferInstanceAs (Decidable (p.line < q.line ∨ p.line = q.line ∧ p.column < q.column))

theorem Before.trans {r : Position} (hpq : p.Before q) (hqr : q.Before r) : p.Before r := by
  unfold Before at *
  omega

theorem Before.ne (h : p.Before q) : p ≠ q := by
  rintro rfl
  unfold Before at h
  omega

theorem before_step (p : Position) (c : Char) : p.Before (p.step c) := by
  unfold Before step
  split <;> simp

theorem before_foldl_step (h : cs ≠ []) : p.Before (cs.foldl step p) := by
  induction cs generalizing p with
  | nil => exact absurd rfl h
  | cons c cs ih =>
    rw [List.foldl_cons]
    by_cases hcs : cs = []
    · rw [hcs]
      exact p.before_step c
    · exact (p.before_step c).trans (ih hcs)

theorem before_of_lt {source : String} {a b : Nat} (ha : IsBoundary source.toList a)
    (hb : IsBoundary source.toList b) (h : a < b) :
    (ofOffset source a).Before (ofOffset source b) := by
  obtain ⟨front, middle, back, hsource, hmiddle, rfl, rfl⟩ := exists_between ha hb h
  rw [ofOffset_eq_foldl hsource]
  rw [List.append_assoc] at hsource
  rw [ofOffset_eq_foldl hsource, List.foldl_append]
  exact before_foldl_step hmiddle

/-- **Positions are exact and keep the order.** A position counts the newlines that begin in
front of its offset, and the characters that do so behind the last of them. Boundaries of a
source that follow one another have positions that do, so no two boundaries share a position. -/
theorem ofOffset_exact (source : String) :
    (∀ offset,
      (ofOffset source offset).line =
          1 + (begunBefore source offset).countP (·.value = '\n') ∧
      (ofOffset source offset).column =
          1 + (begunBefore source offset).countP (BehindNewlines (begunBefore source offset))) ∧
    (∀ a b, IsBoundary source.toList a → IsBoundary source.toList b → a < b →
      (ofOffset source a).Before (ofOffset source b)) ∧
    ∀ a b, IsBoundary source.toList a → IsBoundary source.toList b →
      ofOffset source a = ofOffset source b → a = b := by
  refine ⟨?_, fun a b ha hb h => before_of_lt ha hb h, ?_⟩
  · intro offset
    have hcounts := foldl_step_of_inOrder (inOrder_begunBefore source offset)
    rw [← ofOffset_eq_begun] at hcounts
    rw [hcounts]
    exact ⟨rfl, rfl⟩
  · intro a b ha hb hsame
    rcases Nat.lt_trichotomy a b with hlt | heq | hgt
    · exact absurd hsame (before_of_lt ha hb hlt).ne
    · exact heq
    · exact absurd hsame.symm (before_of_lt hb ha hgt).ne

/-- The newline is behind a character of two bytes. -/
theorem ofOffset_exact_accent :
    let source := "é\nab"
    IsBoundary source.toList 2 ∧ IsBoundary source.toList 4 ∧ 2 < 4 ∧
      ofOffset source 1 = ⟨1, 2⟩ ∧ ofOffset source 2 = ⟨1, 2⟩ ∧ ofOffset source 4 = ⟨2, 2⟩ ∧
      (ofOffset source 2).Before (ofOffset source 4) := by
  intro source
  have hsource : source.toList = ['é', '\n', 'a', 'b'] := by decide +kernel
  have ha : IsBoundary source.toList 2 := ⟨['é'], ['\n', 'a', 'b'], hsource, by decide⟩
  have hb : IsBoundary source.toList 4 := ⟨['é', '\n', 'a'], ['b'], hsource, by decide⟩
  exact ⟨ha, hb, by decide, by decide +kernel, by decide +kernel, by decide +kernel,
    (ofOffset_exact source).2.1 2 4 ha hb (by decide)⟩

end Position

end UiMarkup
