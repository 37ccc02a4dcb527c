import UiMarkup.Token.Lexeme

/-!
# Where lexemes stand

The lexemes of a source stand one behind the other, so no two places overlap,
and every place starts and stops between two characters.
-/

namespace UiMarkup

/-! ## Places in a text -/

/-- An offset in front of a character of the text, or at its end. -/
def IsBoundary (cs : List Char) (offset : Nat) : Prop :=
  ∃ front back, cs = front ++ back ∧ offset = byteLength front

theorem le_of_isBoundary {cs : List Char} {offset : Nat} (h : IsBoundary cs offset) :
    offset ≤ byteLength cs := by
  obtain ⟨front, back, rfl, rfl⟩ := h
  rw [byteLength_append]
  omega

theorem isBoundary_byteLength (cs : List Char) : IsBoundary cs (byteLength cs) :=
  ⟨cs, [], by simp, rfl⟩

/-- A slice of the text: it starts no later than it stops, and cuts no character in two. -/
structure Span.Within (s : Span) (cs : List Char) : Prop where
  start_le_stop : s.start ≤ s.stop
  start : IsBoundary cs s.start
  stop : IsBoundary cs s.stop

/-- Things that take up some bytes each, one behind the other. -/
structure InOrder {α : Type} (ps : List (Placed α)) : Prop where
  start_lt_stop : ∀ p ∈ ps, p.span.start < p.span.stop
  apart : ps.Pairwise fun p q => p.span.stop ≤ q.span.start

theorem InOrder.sublist {α : Type} {ps qs : List (Placed α)} (h : InOrder qs)
    (hsub : ps.Sublist qs) : InOrder ps :=
  ⟨fun p hp => h.start_lt_stop p (hsub.subset hp), h.apart.sublist hsub⟩

theorem byteLength_pos {cs : List Char} (h : cs ≠ []) : 0 < byteLength cs := by
  cases cs with
  | nil => exact absurd rfl h
  | cons c cs =>
    have := c.utf8Size_pos
    rw [byteLength]
    omega

/-! ## Other places -/

/-- What becomes of the starts and of the stops of all spans. -/
structure Relocation where
  start : Nat → Nat
  stop : Nat → Nat

namespace Relocation

/-- Everything stands `n` bytes further on. -/
def shift (n : Nat) : Relocation := ⟨(· + n), (· + n)⟩

def span (m : Relocation) (s : Span) : Span := ⟨m.start s.start, m.stop s.stop⟩

def placed {α : Type} (m : Relocation) (p : Placed α) : Placed α := ⟨p.value, m.span p.span⟩

end Relocation

/-! ## Lexemes -/

/-- The lexemes of a source put side by side are the source. -/
theorem flatMap_text_lexemes (cs : List Char) : (lexemes cs).flatMap Lexeme.text = cs := by
  fun_induction lexemes cs with
  | case1 => rfl
  | case2 c cs ih => rw [List.flatMap_cons, ih, Lexeme.first_append]

theorem text_ne_nil_of_mem_lexemes {cs : List Char} {l : Lexeme} (h : l ∈ lexemes cs) :
    l.text ≠ [] := by
  fun_induction lexemes cs with
  | case1 => simp at h
  | case2 c cs ih =>
    rcases List.mem_cons.mp h with rfl | h
    · exact Lexeme.first_text_ne_nil c cs
    · exact ih h

/-- A lexeme stands behind the texts of those in front of it. -/
theorem exists_of_mem_placeFrom {offset : Nat} {ls : List Lexeme} {p : Placed Lexeme}
    (h : p ∈ placeFrom offset ls) : ∃ front back, ls = front ++ p.value :: back ∧
      p.span.start = offset + byteLength (front.flatMap Lexeme.text) ∧
      p.span.stop = p.span.start + byteLength p.value.text := by
  induction ls generalizing offset with
  | nil => simp [placeFrom] at h
  | cons l ls ih =>
    rcases List.mem_cons.mp h with rfl | h
    · exact ⟨[], ls, rfl, by simp [byteLength], rfl⟩
    · obtain ⟨front, back, rfl, hstart, hstop⟩ := ih h
      refine ⟨l :: front, back, rfl, ?_, hstop⟩
      rw [hstart, List.flatMap_cons, byteLength_append]
      omega

theorem inOrder_placeFrom {ls : List Lexeme} (h : ∀ l ∈ ls, l.text ≠ []) (offset : Nat) :
    InOrder (placeFrom offset ls) := by
  constructor
  · intro p hp
    obtain ⟨front, back, rfl, -, hstop⟩ := exists_of_mem_placeFrom hp
    have := byteLength_pos (h p.value (by simp))
    omega
  · clear h
    induction ls generalizing offset with
    | nil => exact .nil
    | cons l ls ih =>
      refine List.pairwise_cons.mpr ⟨?_, ih _⟩
      intro p hp
      obtain ⟨front, -, -, hstart, -⟩ := exists_of_mem_placeFrom hp
      show offset + byteLength l.text ≤ p.span.start
      omega

theorem inOrder_lex (source : String) : InOrder (lex source) := by
  have hwhole : InOrder (placeFrom 0 (lexemes source.toList)) :=
    inOrder_placeFrom (fun _ => text_ne_nil_of_mem_lexemes) 0
  exact hwhole.sublist List.filter_sublist

theorem within_of_mem_lex {source : String} {p : Placed Lexeme} (h : p ∈ lex source) :
    p.span.Within source.toList := by
  obtain ⟨front, back, hls, hstart, hstop⟩ := exists_of_mem_placeFrom (List.mem_filter.mp h).1
  have hsource := flatMap_text_lexemes source.toList
  rw [hls, List.flatMap_append, List.flatMap_cons] at hsource
  refine ⟨by omega, ⟨_, _, hsource.symm, by omega⟩, ?_⟩
  refine ⟨front.flatMap Lexeme.text ++ p.value.text, back.flatMap Lexeme.text, ?_, ?_⟩
  · rw [List.append_assoc, hsource]
  · rw [byteLength_append]
    omega

end UiMarkup
