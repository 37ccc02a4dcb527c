import UiMarkup.Proofs.Report.Lines
import UiMarkup.Proofs.Source.Positions

/-!
# When reports and positions agree

Spans count bytes and reports count characters, and a position begins a line
only behind a newline. So a report walks on behind the place that a position
stops at, and over more lines, unless the text in front has neither a long
character nor a line end of another kind.
-/

namespace UiMarkup

variable {p q : Position} {front back cs : List Char} {n : Nat}

namespace Position

/-! ## Walks go on -/

/-- A walk comes to a later line, or goes on by a column for each character. -/
theorem line_lt_or_walk (p : Position) (n : Nat) (cs : List Char) :
    p.line < (p.walk n cs).line ∨ p.walk n cs = ⟨p.line, p.column + min n cs.length⟩ := by
  induction cs generalizing p n with
  | nil => exact .inr (by cases n <;> simp [walk])
  | cons c cs ih =>
    cases n with
    | zero => exact .inr (by simp)
    | succ n =>
      rw [walk_cons]
      rcases ih (p.stepReport c cs) n with hlt | hsame
      · refine .inl (Nat.lt_of_le_of_lt ?_ hlt)
        unfold stepReport
        split <;> simp
      · rw [hsame]
        cases hstarts : startsLine c cs with
        | true => exact .inl (by simp [stepReport_of_startsLine hstarts])
        | false =>
          refine .inr ?_
          rw [stepReport_of_not_startsLine hstarts]
          simp only [mk.injEq, true_and, List.length_cons]
          omega

theorem line_le_walk (p : Position) (n : Nat) (cs : List Char) : p.line ≤ (p.walk n cs).line := by
  rcases p.line_lt_or_walk n cs with hlt | hsame
  · exact Nat.le_of_lt hlt
  · exact Nat.le_of_eq (congrArg line hsame).symm

theorem walk_ne (hpos : 0 < n) (hn : n ≤ cs.length) : p.walk n cs ≠ p := by
  intro h
  rcases p.line_lt_or_walk n cs with hlt | hsame
  · rw [h] at hlt
    exact Nat.lt_irrefl _ hlt
  · have hcolumn := congrArg column (h.symm.trans hsame)
    simp only at hcolumn
    omega

end Position

/-! ## Line ends -/

theorem startsLine_newline : startsLine '\n' cs ↔ cs ≠ [] := by
  have hends : isLineEnd '\n' := by decide
  simp [startsLine, hends]

/-- Reports begin a line behind the newlines of `front`, and nowhere else in it. -/
def SameLines (front back : List Char) : Prop :=
  ∀ as c bs, front = as ++ c :: bs → (startsLine c (bs ++ back) ↔ c = '\n')

theorem sameLines_nil : SameLines [] back := by
  intro as c bs h
  simp at h

theorem sameLines_cons {c : Char} :
    SameLines (c :: front) back ↔
      (startsLine c (front ++ back) ↔ c = '\n') ∧ SameLines front back := by
  constructor
  · intro h
    exact ⟨h [] c front rfl, fun as d bs hfront => h (c :: as) d bs (by rw [hfront]; rfl)⟩
  · rintro ⟨hc, hfront⟩ as d bs h
    cases as with
    | nil =>
      obtain ⟨rfl, rfl⟩ := List.cons.inj h
      exact hc
    | cons a as =>
      obtain ⟨rfl, rfl⟩ := List.cons.inj h
      exact hfront as d bs rfl

namespace Position

theorem stepReport_eq_step {c : Char} (h : startsLine c cs ↔ c = '\n') :
    p.stepReport c cs = p.step c := by
  by_cases hc : c = '\n'
  · rw [stepReport_of_startsLine (h.mpr hc), step, if_pos hc]
  · have hstarts : startsLine c cs = false := Bool.eq_false_iff.mpr fun hstarts => hc (h.mp hstarts)
    rw [stepReport_of_not_startsLine hstarts, step, if_neg hc]

/-- Behind the newline that ends a source a position is on a new line, and a report is not. -/
theorem walk_ne_of_last_newline (hcolumn : 0 < p.column)
    (hlast : startsLine '\n' (front ++ back) = false) (hn : n ≤ (front ++ back).length) :
    (p.stepReport '\n' (front ++ back)).walk n (front ++ back) ≠
      front.foldl step (q.step '\n') := by
  have hnil : front ++ back = [] := Decidable.byContradiction fun hcs => by
    rw [startsLine_newline.mpr hcs] at hlast
    cases hlast
  obtain ⟨rfl, rfl⟩ := List.append_eq_nil_iff.mp hnil
  obtain rfl : n = 0 := Nat.le_zero.mp hn
  rw [walk_zero, stepReport_of_not_startsLine hlast]
  intro h
  have hsame := congrArg column h
  simp only [List.foldl_nil, step, if_true] at hsame
  omega

/-- A walk that is on a later line stays apart from the position. -/
theorem walk_ne_of_line_lt (hline : q.line < p.line) (hcolumn : 0 < p.column)
    (hfront : front.length ≤ n) (hn : n ≤ (front ++ back).length) :
    p.walk n (front ++ back) ≠ front.foldl step q := by
  induction front generalizing p q n with
  | nil =>
    intro h
    have hle := p.line_le_walk n ([] ++ back)
    rw [h] at hle
    exact absurd hline (Nat.not_lt.mpr hle)
  | cons c front ih =>
    obtain ⟨n, rfl⟩ := Nat.exists_eq_add_one_of_ne_zero (Nat.ne_zero_of_lt hfront)
    have hrest := Nat.le_of_succ_le_succ hfront
    have hlength := Nat.le_of_succ_le_succ hn
    rw [List.cons_append, walk_cons, List.foldl_cons]
    by_cases hc : c = '\n'
    · subst hc
      cases hstarts : startsLine '\n' (front ++ back) with
      | false => exact walk_ne_of_last_newline hcolumn hstarts hlength
      | true =>
        rw [stepReport_of_startsLine hstarts]
        exact ih (Nat.succ_lt_succ hline) Nat.one_pos hrest hlength
    · have hstep : (q.step c).line = q.line := by rw [step, if_neg hc]
      cases hstarts : startsLine c (front ++ back) with
      | false =>
        rw [stepReport_of_not_startsLine hstarts]
        exact ih (hstep ▸ hline) (Nat.succ_pos _) hrest hlength
      | true =>
        rw [stepReport_of_startsLine hstarts]
        exact ih (hstep ▸ Nat.lt_succ_of_lt hline) Nat.one_pos hrest hlength

/-- From one place on, a walk and a position come to one place only if they take as many
characters, over the same lines. -/
theorem walk_eq_iff (hcolumn : 0 < p.column) (hfront : front.length ≤ n)
    (hn : n ≤ (front ++ back).length) :
    p.walk n (front ++ back) = front.foldl step p ↔ n = front.length ∧ SameLines front back := by
  induction front generalizing p n with
  | nil =>
    rcases Nat.eq_zero_or_pos n with rfl | hpos
    · simp [sameLines_nil]
    · exact iff_of_false (walk_ne hpos hn) fun h => Nat.ne_of_gt hpos h.1
  | cons c front ih =>
    obtain ⟨n, rfl⟩ := Nat.exists_eq_add_one_of_ne_zero (Nat.ne_zero_of_lt hfront)
    have hrest := Nat.le_of_succ_le_succ hfront
    have hlength := Nat.le_of_succ_le_succ hn
    rw [List.cons_append, walk_cons, List.foldl_cons, sameLines_cons, List.length_cons,
      Nat.add_right_cancel_iff]
    by_cases hsame : startsLine c (front ++ back) ↔ c = '\n'
    · have hstep : 0 < (p.step c).column := by
        unfold step
        split <;> simp
      rw [stepReport_eq_step hsame, ih hstep hrest hlength]
      simp [hsame]
    · refine iff_of_false ?_ fun h => hsame h.2.1
      by_cases hc : c = '\n'
      · subst hc
        exact walk_ne_of_last_newline hcolumn (by simpa using hsame) hlength
      · have hstarts : startsLine c (front ++ back) := by simpa [hc] using hsame
        rw [stepReport_of_startsLine hstarts, step, if_neg hc]
        exact walk_ne_of_line_lt (Nat.lt_succ_self _) Nat.one_pos hrest hlength

end Position

/-! ## Long characters -/

theorem length_le_byteLength (cs : List Char) : cs.length ≤ byteLength cs := by
  induction cs with
  | nil => exact Nat.le_refl _
  | cons c cs ih =>
    have hpos := c.utf8Size_pos
    rw [List.length_cons, byteLength]
    omega

theorem byteLength_eq_length_iff : byteLength cs = cs.length ↔ ∀ c ∈ cs, c.utf8Size = 1 := by
  induction cs with
  | nil => simp [byteLength]
  | cons c cs ih =>
    have hpos := c.utf8Size_pos
    have hle := length_le_byteLength cs
    rw [List.forall_mem_cons, ← ih, List.length_cons, byteLength]
    omega

/-- **Where a report and a position agree.** A report takes the bytes in front of a place for
characters. It comes to the place itself only if they are, and if no line ends but newlines are
in front of it. -/
theorem Position.walk_byteLength_eq_iff {source : String} (hsource : source.toList = front ++ back)
    (hlength : byteLength front ≤ source.toList.length) :
    start.walk (byteLength front) source.toList = ofOffset source (byteLength front) ↔
      (∀ c ∈ front, c.utf8Size = 1) ∧ SameLines front back := by
  rw [ofOffset_eq_foldl hsource]
  rw [hsource] at hlength ⊢
  rw [walk_eq_iff Nat.one_pos (length_le_byteLength front) hlength, byteLength_eq_length_iff]

end UiMarkup
