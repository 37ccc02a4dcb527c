import UiMarkup.Proofs.Token.Munch

/-!
# Slices of a source

Each item of a source is the slice of it at the item's span, and the slices
between the items are blanks and comments. Put side by side, items and gaps
are the source.
-/

namespace UiMarkup

open scoped Computability

/-! ## Slices -/

/-- The bytes of the span hold the text. -/
def Span.Slices (s : Span) (cs text : List Char) : Prop :=
  ∃ front back, cs = front ++ (text ++ back) ∧ s.start = byteLength front ∧
    s.stop = s.start + byteLength text

/-- A text is cut in one way at a byte. -/
theorem append_inj_byteLength {front front' back back' : List Char}
    (h : front ++ back = front' ++ back') (hlength : byteLength front = byteLength front') :
    front = front' ∧ back = back' := by
  induction front generalizing front' with
  | nil =>
    cases front' with
    | nil => exact ⟨rfl, h⟩
    | cons c front' =>
      have := byteLength_pos (List.cons_ne_nil c front')
      rw [byteLength] at hlength
      omega
  | cons c front ih =>
    cases front' with
    | nil =>
      have := byteLength_pos (List.cons_ne_nil c front)
      rw [show byteLength [] = 0 from rfl] at hlength
      omega
    | cons d front' =>
      obtain ⟨rfl, hrest⟩ := List.cons.inj h
      obtain ⟨rfl, rfl⟩ := ih hrest (by simpa [byteLength] using hlength)
      exact ⟨rfl, rfl⟩

namespace Span.Slices

variable {s : Span} {cs text text' : List Char}

theorem unique (h : s.Slices cs text) (h' : s.Slices cs text') : text = text' := by
  obtain ⟨front, back, hcs, hstart, hstop⟩ := h
  obtain ⟨front', back', hcs', hstart', hstop'⟩ := h'
  obtain ⟨rfl, hrest⟩ := append_inj_byteLength (hcs.symm.trans hcs') (by omega)
  exact (append_inj_byteLength hrest (by omega)).1

/-- Slices side by side are one slice. -/
theorem append_iff {start stop : Nat} :
    Slices ⟨start, stop⟩ cs (text ++ text') ↔
      Slices ⟨start, start + byteLength text⟩ cs text ∧
      Slices ⟨start + byteLength text, stop⟩ cs text' := by
  constructor
  · rintro ⟨front, back, rfl, hstart, hstop⟩
    simp only [byteLength_append] at hstart hstop
    refine ⟨⟨front, text' ++ back, by simp, hstart, rfl⟩, front ++ text, back, by simp, ?_, ?_⟩
    · simp only [byteLength_append]
      omega
    · dsimp only
      omega
  · rintro ⟨⟨front, rest, hcs, hstart, -⟩, front', back, hcs', hstart', hstop⟩
    dsimp only at hstart hstart' hstop
    rw [hcs, ← List.append_assoc] at hcs'
    obtain ⟨-, rfl⟩ := append_inj_byteLength hcs' (by rw [byteLength_append]; omega)
    refine ⟨front, back, by simpa using hcs, hstart, ?_⟩
    simp only [byteLength_append]
    omega

theorem within (h : s.Slices cs text) : s.Within cs := by
  obtain ⟨front, back, rfl, hstart, hstop⟩ := h
  refine ⟨by omega, ⟨front, text ++ back, rfl, hstart⟩, front ++ text, back, by simp, ?_⟩
  rw [byteLength_append, ← hstart, hstop]

end Span.Slices

theorem slices_of_mem_lex {source : String} {p : Placed Lexeme} (h : p ∈ lex source) :
    p.span.Slices source.toList p.value.text := by
  obtain ⟨front, back, hls, hstart, hstop⟩ := exists_of_mem_placeFrom (List.mem_filter.mp h).1
  have hsource := flatMap_text_lexemes source.toList
  rw [hls, List.flatMap_append, List.flatMap_cons] at hsource
  exact ⟨_, _, hsource.symm, by omega, hstop⟩

theorem Span.Slices.whole_iff {s : Span} {cs : List Char} :
    s.Slices cs cs ↔ s = ⟨0, byteLength cs⟩ := by
  constructor
  · rintro ⟨front, back, hcs, hstart, hstop⟩
    have hlength := congrArg byteLength hcs
    rw [byteLength_append, byteLength_append] at hlength
    have hfirst : s.start = 0 := by omega
    rw [hfirst, Nat.zero_add] at hstop
    exact congrArg₂ Span.mk hfirst hstop
  · rintro rfl
    exact ⟨[], [], by simp, rfl, (Nat.zero_add _).symm⟩

/-- A source is one token, from its first byte to its last, if the token has just that text. -/
theorem lex_eq_token_iff {source : String} {t : Token} :
    lex source = [⟨.token t, ⟨0, byteLength source.toList⟩⟩] ↔ t.text = source ∧ Legible t := by
  constructor
  · intro h
    have hmem : ⟨.token t, ⟨0, byteLength source.toList⟩⟩ ∈ lex source :=
      h ▸ List.mem_singleton_self _
    have hwhole : Span.Slices ⟨0, byteLength source.toList⟩ source.toList source.toList :=
      Span.Slices.whole_iff.mpr rfl
    exact ⟨String.toList_inj.mp ((slices_of_mem_lex hmem).unique hwhole), legible_of_mem_lex hmem⟩
  · rintro ⟨rfl, hlegible⟩
    have hspoken := spells_of_legible hlegible [] (by simp [Stops])
    rw [List.append_nil, spoken_nil, List.append_nil, ← map_value_lex] at hspoken
    obtain ⟨p, hlex, hvalue⟩ := List.map_eq_singleton_iff.mp hspoken
    have hslices := slices_of_mem_lex (hlex ▸ List.mem_singleton_self p)
    rw [hvalue] at hslices
    have hspan := Span.Slices.whole_iff.mp hslices
    rw [hlex, ← hvalue, ← hspan]

/-! ## Gaps -/

/-- Blanks, a line comment or a closed block comment. -/
def skippedText : Language Char :=
  Pattern.blanks.language + Pattern.lineComment.language + Pattern.blockComment.language

/-- Nothing but blanks and comments. -/
def IsGap (cs : List Char) : Prop := cs ∈ skippedText∗

theorem isGap_nil : IsGap [] := Language.nil_mem_kstar _

theorem IsGap.append {w cs : List Char} (hw : w ∈ skippedText) (h : IsGap cs) : IsGap (w ++ cs) :=
  Pattern.append_mem_kstar hw h

/-- What is skipped has been matched. -/
theorem Munch.mem_skippedText {cs : List Char} {l : Lexeme} (h : Munch cs l)
    (hskipped : l.isSkipped) : l.text ∈ skippedText := by
  cases h with
  | @matched p w _ hp _ =>
    rw [Pattern.text_lexeme hp]
    cases p with
    | blanks => exact .inl (.inl hp)
    | lineComment => exact .inl (.inr hp)
    | blockComment => exact .inr hp
    | _ => simp [Pattern.lexeme, Lexeme.isSkipped] at hskipped
  | unmatched => simp [Lexeme.isSkipped] at hskipped

/-! ## Items and gaps -/

/-- The text from the byte `offset` on is these items, each where it stands,
with a gap in front of each and one behind the last. -/
inductive Tiles : Nat → List Char → List (Placed Lexeme) → Prop
  | gap {offset : Nat} {cs : List Char} : IsGap cs → Tiles offset cs []
  | item {offset : Nat} {gap rest : List Char} {l : Lexeme} {items : List (Placed Lexeme)} :
      IsGap gap → l.isSkipped = false → l.text ≠ [] →
      Tiles (offset + byteLength gap + byteLength l.text) rest items →
      Tiles offset (gap ++ (l.text ++ rest))
        (⟨l, ⟨offset + byteLength gap, offset + byteLength gap + byteLength l.text⟩⟩ :: items)

namespace Tiles

variable {offset : Nat} {w rest : List Char} {items : List (Placed Lexeme)}

/-- What is skipped makes the first gap longer. -/
theorem behind_skipped (hw : w ∈ skippedText) (h : Tiles (offset + byteLength w) rest items) :
    Tiles offset (w ++ rest) items := by
  cases h with
  | gap hgap => exact .gap (hgap.append hw)
  | item hgap hskipped hne hrest =>
    rename_i gap rest l items
    have htiles := @Tiles.item offset _ _ _ _ (hgap.append hw) hskipped hne
      (by rwa [byteLength_append, ← Nat.add_assoc])
    rwa [byteLength_append, ← Nat.add_assoc, List.append_assoc] at htiles

theorem length_le (h : Tiles offset rest items) : items.length ≤ rest.length := by
  induction h with
  | gap => exact Nat.zero_le _
  | item _ _ hne _ ih =>
    have := List.length_pos_iff.mpr hne
    simp only [List.length_cons, List.length_append]
    omega

end Tiles

theorem tiles_lexFrom (offset : Nat) (cs : List Char) : Tiles offset cs (lexFrom offset cs) := by
  fun_induction lexemes cs generalizing offset with
  | case1 =>
    rw [lexFrom_nil]
    exact .gap isGap_nil
  | case2 c cs ih =>
    have hrest := ih (offset + byteLength (Lexeme.first c cs).1.text)
    rw [lexFrom_cons, Lexeme.placed]
    conv => arg 2; rw [← Lexeme.first_append c cs]
    cases hskipped : (Lexeme.first c cs).1.isSkipped with
    | true => exact hrest.behind_skipped ((munch_first c cs).mem_skippedText hskipped)
    | false => exact .item isGap_nil hskipped (Lexeme.first_text_ne_nil c cs) hrest

/-- No byte of a source is lost or doubled. -/
theorem lex_loses_nothing (source : String) :
    Tiles 0 source.toList (lex source) ∧ InOrder (lex source) ∧
      (∀ p ∈ lex source,
        p.span.Within source.toList ∧ p.span.Slices source.toList p.value.text) ∧
      (lex source).length ≤ source.length := by
  have htiles : Tiles 0 source.toList (lex source) := tiles_lexFrom 0 source.toList
  refine ⟨htiles, inOrder_lex source, ?_, htiles.length_le⟩
  intro p hp
  have hslices := slices_of_mem_lex hp
  exact ⟨hslices.within, hslices⟩

end UiMarkup
