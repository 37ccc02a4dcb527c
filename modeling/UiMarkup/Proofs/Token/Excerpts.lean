import UiMarkup.Proofs.Token.Slices

/-!
# Excerpts of a source

Lexing looks ahead only to make a lexeme longer. So a run of lexemes that are
all recognized is found again if its text is lexed by itself, without what
stands in front of it and behind it.
-/

namespace UiMarkup

/-! ## Runs of lexemes -/

/-- Behind a lexeme the source is lexed as if it began there. -/
theorem lexemes_back {front back : List Lexeme} {cs : List Char} (h : lexemes cs = front ++ back) :
    lexemes (back.flatMap Lexeme.text) = back := by
  induction front generalizing cs with
  | nil =>
    rw [List.nil_append] at h
    rw [← h, flatMap_text_lexemes]
  | cons l front ih =>
    cases cs with
    | nil => simp [lexemes] at h
    | cons c cs =>
      rw [lexemes, List.cons_append] at h
      exact ih (List.cons.inj h).2

/-- The longest match stays the longest one if less stands behind it. -/
theorem Munch.of_front {cs ds : List Char} {l : Lexeme} (h : Munch cs l) (hl : l.IsRecognized)
    (hfront : l.text <+: ds) (hds : ds <+: cs) : Munch ds l := by
  cases h with
  | @matched p w hw hp honly =>
    rw [Pattern.text_lexeme hp] at hfront
    exact .matched ⟨hfront, hw.holds, fun v hv => hw.longest v (hv.trans hds)⟩ hp honly
  | unmatched => exact absurd rfl (hl _)

theorem lexemes_append {l : Lexeme} {cs : List Char} (h : Munch (l.text ++ cs) l) :
    lexemes (l.text ++ cs) = l :: lexemes cs := by
  cases htext : l.text ++ cs with
  | nil => exact absurd (htext ▸ h) (not_munch_nil l)
  | cons d ds =>
    rw [htext] at h
    have hfirst := h.unique (munch_first d ds)
    have hsplit := Lexeme.first_append d ds
    rw [← htext, ← hfirst] at hsplit
    rw [lexemes, ← hfirst, List.append_cancel_left hsplit]

/-- In front of any text that was cut off, recognized lexemes are lexed as before. -/
theorem lexemes_front {front back : List Lexeme} {cs : List Char} (h : lexemes cs = front ++ back)
    (hfront : ∀ l ∈ front, l.IsRecognized) : lexemes (front.flatMap Lexeme.text) = front := by
  induction front generalizing cs with
  | nil => rw [List.flatMap_nil, lexemes]
  | cons l front ih =>
    obtain ⟨hl, hfront'⟩ := List.forall_mem_cons.mp hfront
    have hcs := flatMap_text_lexemes cs
    rw [h] at hcs
    cases cs with
    | nil => simp [lexemes] at h
    | cons c cs =>
      rw [lexemes, List.cons_append] at h
      obtain ⟨rfl, hrest⟩ := List.cons.inj h
      have hshort : Munch ((Lexeme.first c cs).1.text ++ front.flatMap Lexeme.text)
          (Lexeme.first c cs).1 := by
        refine (munch_first c cs).of_front hl (List.prefix_append _ _) ?_
        exact ⟨back.flatMap Lexeme.text, by rw [← hcs]; simp⟩
      rw [List.flatMap_cons, lexemes_append hshort, ih hrest hfront']

theorem lexemes_part {front part back : List Lexeme} {cs : List Char}
    (h : lexemes cs = front ++ (part ++ back)) (hpart : ∀ l ∈ part, l.IsRecognized) :
    lexemes (part.flatMap Lexeme.text) = part :=
  lexemes_front (lexemes_back h) hpart

/-! ## Lexemes in their places -/

theorem exists_of_placeFrom_eq_append {offset : Nat} {ls : List Lexeme}
    {ps qs : List (Placed Lexeme)} (h : placeFrom offset ls = ps ++ qs) :
    ∃ front back, ls = front ++ back ∧ placeFrom offset front = ps ∧
      placeFrom (offset + byteLength (front.flatMap Lexeme.text)) back = qs := by
  induction ps generalizing offset ls with
  | nil => exact ⟨[], ls, rfl, rfl, h⟩
  | cons p ps ih =>
    cases ls with
    | nil => simp [placeFrom] at h
    | cons l ls =>
      rw [placeFrom, List.cons_append] at h
      obtain ⟨rfl, hrest⟩ := List.cons.inj h
      obtain ⟨front, back, rfl, rfl, hback⟩ := ih hrest
      refine ⟨l :: front, back, rfl, rfl, ?_⟩
      rw [List.flatMap_cons, byteLength_append, ← Nat.add_assoc]
      exact hback

theorem start_of_head?_placeFrom {offset : Nat} {ls : List Lexeme} {p : Placed Lexeme}
    (h : (placeFrom offset ls).head? = some p) : p.span.start = offset := by
  cases ls with
  | nil => simp [placeFrom] at h
  | cons l ls =>
    rw [placeFrom, List.head?_cons, Option.some.injEq] at h
    rw [← h]

theorem stop_of_getLast?_placeFrom {offset : Nat} {ls : List Lexeme} {p : Placed Lexeme}
    (h : (placeFrom offset ls).getLast? = some p) :
    p.span.stop = offset + byteLength (ls.flatMap Lexeme.text) := by
  obtain ⟨ps, hps⟩ := List.getLast?_eq_some_iff.mp h
  obtain ⟨front, back, rfl, -, hback⟩ := exists_of_placeFrom_eq_append hps
  cases back with
  | nil => simp [placeFrom] at hback
  | cons l back =>
    rw [placeFrom] at hback
    obtain ⟨rfl, hnil⟩ := List.cons.inj hback
    cases back with
    | nil => simp [Nat.add_assoc]
    | cons _ _ => simp [placeFrom] at hnil

/-- What a filter keeps side by side stood between its first and its last in the whole list. -/
theorem exists_part_of_filter {α : Type} {p : α → Bool} {l front part back : List α}
    (h : l.filter p = front ++ (part ++ back)) (hne : part ≠ []) :
    ∃ before whole after, l = before ++ (whole ++ after) ∧ whole.filter p = part ∧
      whole.head? = part.head? ∧ whole.getLast? = part.getLast? := by
  obtain ⟨first, part, rfl⟩ := List.exists_cons_of_ne_nil hne
  obtain ⟨l₁, l₂, rfl, -, hkept⟩ := List.filter_eq_append_iff.mp h
  obtain ⟨gap, l₃, rfl, -, hfirst, hkept⟩ := List.filter_eq_cons_iff.mp hkept
  rcases List.eq_nil_or_concat' part with rfl | ⟨inner, last, rfl⟩
  · exact ⟨l₁ ++ gap, [first], l₃, by simp, by simp [hfirst], rfl, rfl⟩
  · change l₃.filter p = inner ++ [last] ++ back at hkept
    rw [List.append_assoc] at hkept
    obtain ⟨l₄, l₅, rfl, hinner, hkept⟩ := List.filter_eq_append_iff.mp hkept
    obtain ⟨gap', after, rfl, hgap', hlast, -⟩ := List.filter_eq_cons_iff.mp hkept
    have hdropped : gap'.filter p = [] := List.filter_eq_nil_iff.mpr hgap'
    refine ⟨l₁ ++ gap, first :: (l₄ ++ gap' ++ [last]), after, by simp, ?_, rfl, ?_⟩
    · simp [hfirst, hlast, hinner, hdropped]
    · rw [← List.cons_append, List.getLast?_concat, ← List.cons_append, List.getLast?_concat]

/-- The text from the first to the last of some items says these items by itself, each as far
from its start as it stands behind the first in the source. -/
theorem lex_excerpt {source : String} {front part back : List (Placed Lexeme)}
    {first last : Placed Lexeme} (h : lex source = front ++ (part ++ back))
    (hrecognized : ∀ l ∈ lexemes source.toList, l.IsRecognized)
    (hfirst : part.head? = some first) (hlast : part.getLast? = some last) :
    ∃ text, Span.Slices ⟨first.span.start, last.span.stop⟩ source.toList text ∧
      (lex (String.ofList text)).map (Relocation.shift first.span.start).placed = part := by
  have hne : part ≠ [] := by
    rintro rfl
    simp at hfirst
  obtain ⟨before, whole, after, hplaced, hpart, hhead, hend⟩ := exists_part_of_filter h hne
  obtain ⟨ls₁, ls₂, hls, -, hplaced⟩ := exists_of_placeFrom_eq_append hplaced
  obtain ⟨ls, ls₃, rfl, hwhole, -⟩ := exists_of_placeFrom_eq_append hplaced
  rw [Nat.zero_add] at hwhole
  have hsource := flatMap_text_lexemes source.toList
  have hagain : lexemes (ls.flatMap Lexeme.text) = ls := by
    refine lexemes_part hls fun l hl => hrecognized l ?_
    rw [hls]
    simp [hl]
  rw [← hwhole] at hhead hend
  have hstart := start_of_head?_placeFrom (hhead.trans hfirst)
  have hstop := stop_of_getLast?_placeFrom (hend.trans hlast)
  refine ⟨ls.flatMap Lexeme.text, ?_, ?_⟩
  · refine ⟨ls₁.flatMap Lexeme.text, ls₃.flatMap Lexeme.text, ?_, hstart, ?_⟩
    · rw [← hsource, hls, List.flatMap_append, List.flatMap_append]
    · rw [hstart]
      exact hstop
  · rw [lex_eq_lexFrom, ← lexFrom_shift, String.toList_ofList, lexFrom, hagain, Nat.zero_add,
      hstart, hwhole, hpart]

end UiMarkup
