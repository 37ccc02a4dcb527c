import UiMarkup.Proofs.Token.Excerpts

/-!
# Text that says nothing

Blanks and comments may be put in front of a token or behind it. They say
nothing, they end the token in front of them, and they end themselves before
the text behind them begins. So what stands behind them only moves.
-/

namespace UiMarkup

open scoped Computability

/-! ## Fillers -/

/-- Blanks, a line comment with the newline that closes it, or a closed block comment. -/
def fillerText : Language Char :=
  Pattern.blanks.language + Pattern.lineComment.language * Pattern.word "\n" +
    Pattern.blockComment.language

/-- Blanks and comments, of which none goes on behind the last. -/
def IsFiller (w : List Char) : Prop := w ∈ fillerText∗

theorem isBreak_of_mem_fillerText {w : List Char} (h : w ∈ fillerText) :
    ∃ d ds, w = d :: ds ∧ IsBreak d := by
  rcases h with (hblanks | hline) | hblock
  · obtain ⟨hne, hspaces⟩ := Pattern.mem_blanks.mp hblanks
    obtain ⟨d, ds, rfl⟩ := List.exists_cons_of_ne_nil hne
    exact ⟨d, ds, rfl, .inl (hspaces d List.mem_cons_self)⟩
  · obtain ⟨_, hcomment, newline, -, rfl⟩ := hline
    obtain ⟨body, -, rfl⟩ := Pattern.mem_lineComment.mp hcomment
    exact ⟨'/', '/' :: body ++ newline, rfl, .inr rfl⟩
  · obtain ⟨body, -, rfl⟩ := Pattern.mem_blockComment.mp hblock
    exact ⟨'/', '*' :: body, rfl, .inr rfl⟩

theorem isBreak_of_isFiller {w : List Char} (h : IsFiller w) (hne : w ≠ []) :
    ∃ d ds, w = d :: ds ∧ IsBreak d := by
  obtain ⟨parts, rfl, hparts⟩ := Language.mem_kstar.mp h
  cases parts with
  | nil => exact absurd rfl hne
  | cons part parts =>
    obtain ⟨d, ds, rfl, hd⟩ := isBreak_of_mem_fillerText (hparts part List.mem_cons_self)
    exact ⟨d, ds ++ parts.flatten, rfl, hd⟩

/-- A comment that closes in front of a text says nothing of it. -/
theorem lexFrom_comment {c : Char} {cs text rest : List Char}
    (h : Lexeme.first c cs = (.comment text, rest)) (offset : Nat) :
    lexFrom offset (c :: cs) = lexFrom (offset + byteLength text) rest :=
  lexFrom_of_first h offset

theorem lexFrom_fillerText {w : List Char} (h : w ∈ fillerText) (offset : Nat)
    (rest : List Char) : lexFrom offset (w ++ rest) = lexFrom (offset + byteLength w) rest := by
  rcases h with (hblanks | hline) | hblock
  · exact lexFrom_spaces (Pattern.mem_blanks.mp hblanks).2 offset rest
  · obtain ⟨_, hcomment, _, rfl, rfl⟩ := hline
    obtain ⟨body, hbody, rfl⟩ := Pattern.mem_lineComment.mp hcomment
    have hfirst : Lexeme.first '/' ('/' :: (body ++ '\n' :: rest)) =
        (.comment ('/' :: '/' :: body), '\n' :: rest) := by
      show Lexeme.ofSlash ('/' :: (body ++ '\n' :: rest)) = _
      have hstop : Stops (fun c => decide (c ≠ '\n')) ('\n' :: rest) := by simp [Stops]
      rw [Lexeme.ofSlash, takeWhile_stop (by simpa using hbody) hstop,
        dropWhile_stop (by simpa using hbody) hstop]
    rw [byteLength_append, List.append_assoc, ← Nat.add_assoc]
    exact (lexFrom_comment hfirst offset).trans (lexFrom_spacing rfl _ rest)
  · obtain ⟨body, hbody, rfl⟩ := Pattern.mem_blockComment.mp hblock
    have hfirst : Lexeme.first '/' ('*' :: (body ++ rest)) =
        (.comment ('/' :: '*' :: body), rest) := by
      show Lexeme.ofSlash ('*' :: (body ++ rest)) = _
      rw [Lexeme.ofSlash, Pattern.Closes.append hbody]
      rfl
    exact lexFrom_comment hfirst offset

theorem lexFrom_filler {w : List Char} (h : IsFiller w) (offset : Nat) (rest : List Char) :
    lexFrom offset (w ++ rest) = lexFrom (offset + byteLength w) rest := by
  obtain ⟨parts, rfl, hparts⟩ := Language.mem_kstar.mp h
  clear h
  induction parts generalizing offset with
  | nil => rfl
  | cons part parts ih =>
    obtain ⟨hpart, hrest⟩ := List.forall_mem_cons.mp hparts
    rw [List.flatten_cons, List.append_assoc, lexFrom_fillerText hpart, ih _ hrest,
      byteLength_append, Nat.add_assoc]

/-! ## Where a text can be cut -/

/-- Both parts say what they say together, and the first one does not end in a comment that
only a newline closes. -/
structure IsCut (front back : List Char) : Prop where
  lexemes : lexemes (front ++ back) = lexemes front ++ lexemes back
  last : ∀ l ∈ (UiMarkup.lexemes front).getLast?, ¬ l.IsLineComment

/-- Behind a line comment stands a blank, or nothing. -/
theorem blank_of_isLineComment {cs : List Char} {front back : List Lexeme} {l m : Lexeme}
    (h : lexemes cs = front ++ l :: m :: back) (hl : l.IsLineComment) : ∃ text, m = .blank text := by
  obtain ⟨body, rfl⟩ := hl
  have hagain := lexemes_back h
  rw [List.flatMap_cons, Lexeme.text, List.cons_append, List.cons_append, lexemes] at hagain
  obtain ⟨-, hbehind⟩ := List.cons.inj hagain
  change lexemes (List.dropWhile (fun c => decide (c ≠ '\n')) _) = _ at hbehind
  cases hrest : List.dropWhile (fun c => decide (c ≠ '\n'))
      (body ++ (m :: back).flatMap Lexeme.text) with
  | nil =>
    rw [hrest, lexemes] at hbehind
    cases hbehind
  | cons c rest =>
    have hc := List.head?_dropWhile_not (fun c => decide (c ≠ '\n'))
      (body ++ (m :: back).flatMap Lexeme.text)
    rw [hrest] at hbehind hc
    obtain rfl : c = '\n' := by simpa using hc
    rw [lexemes] at hbehind
    exact ⟨_, (List.cons.inj hbehind).1.symm⟩

theorem isCut_of_lexemes {cs : List Char} {front back : List Lexeme}
    (h : lexemes cs = front ++ back) (hfront : ∀ l ∈ front, l.IsRecognized)
    (hlast : ∀ l ∈ front.getLast?, ¬ l.IsLineComment) :
    IsCut (front.flatMap Lexeme.text) (back.flatMap Lexeme.text) := by
  have hcs := flatMap_text_lexemes cs
  rw [h, List.flatMap_append] at hcs
  constructor
  · rw [lexemes_front h hfront, lexemes_back h, hcs, h]
  · rwa [lexemes_front h hfront]

/-- A source can be cut in front of each of its items and behind it. -/
theorem isCut_of_mem_lex {front back : String} {t : Placed Lexeme}
    (h : ∀ l ∈ lexemes (front ++ back).toList, l.IsRecognized) (ht : t ∈ lex (front ++ back))
    (hplace : byteLength front.toList = t.span.start ∨ byteLength front.toList = t.span.stop) :
    IsCut front.toList back.toList := by
  obtain ⟨hmem, hspoken⟩ := List.mem_filter.mp ht
  obtain ⟨ls, ms, hls, hstart, hstop⟩ := exists_of_mem_placeFrom hmem
  have hsource := flatMap_text_lexemes (front ++ back).toList
  rw [hls, List.flatMap_append, List.flatMap_cons, String.toList_append] at hsource
  have hrecognized : ∀ l ∈ ls ++ [t.value], l.IsRecognized := by
    intro l hl
    refine h l ?_
    rw [hls]
    simp only [List.mem_append, List.mem_cons, List.not_mem_nil, or_false] at hl ⊢
    exact hl.imp_right .inl
  rcases hplace with hplace | hplace
  · -- In front of an item: the lexeme before it is no line comment, or a blank would follow it.
    obtain ⟨hfront, hback⟩ := append_inj_byteLength hsource (by omega)
    rw [← hfront, ← hback]
    refine isCut_of_lexemes hls (fun l hl => hrecognized l (List.mem_append_left _ hl)) ?_
    intro l hl hcomment
    obtain ⟨ls, rfl⟩ := List.getLast?_eq_some_iff.mp (Option.mem_def.mp hl)
    rw [List.append_assoc, List.singleton_append] at hls
    obtain ⟨text, hblank⟩ := blank_of_isLineComment hls hcomment
    simp [hblank, Lexeme.isSkipped] at hspoken
  · rw [← List.append_assoc] at hsource
    obtain ⟨hfront, hback⟩ := append_inj_byteLength hsource (by
      rw [byteLength_append]
      omega)
    have hls' : lexemes (front ++ back).toList = (ls ++ [t.value]) ++ ms := by
      rw [hls, List.append_assoc, List.singleton_append]
    have hcut := isCut_of_lexemes hls' hrecognized ?_
    · rwa [List.flatMap_append, List.flatMap_singleton, hfront, hback] at hcut
    · intro l hl hcomment
      rw [List.getLast?_concat] at hl
      obtain rfl := Option.some.inj hl
      obtain ⟨body, hbody⟩ := hcomment
      simp [hbody, Lexeme.isSkipped] at hspoken

theorem placeFrom_append (offset : Nat) (ls ms : List Lexeme) :
    placeFrom offset (ls ++ ms) =
      placeFrom offset ls ++ placeFrom (offset + byteLength (ls.flatMap Lexeme.text)) ms := by
  induction ls generalizing offset with
  | nil => rfl
  | cons l ls ih =>
    rw [List.cons_append, placeFrom, ih, placeFrom, List.flatMap_cons, byteLength_append,
      Nat.add_assoc]
    rfl

namespace IsCut

variable {front back : List Char} (hcut : IsCut front back)

include hcut

theorem lexFrom_append (offset : Nat) :
    lexFrom offset (front ++ back) =
      lexFrom offset front ++ lexFrom (offset + byteLength front) back := by
  rw [lexFrom, hcut.lexemes, placeFrom_append, List.filter_append, flatMap_text_lexemes]
  rfl

/-- A filler makes the way to the second part longer. -/
theorem lexFrom_filler {w : List Char} (hw : IsFiller w)
    (h : ∀ l ∈ UiMarkup.lexemes front, l.IsRecognized) (offset : Nat) :
    lexFrom offset (front ++ (w ++ back)) =
      lexFrom offset front ++ lexFrom (offset + byteLength front + byteLength w) back := by
  rcases eq_or_ne w [] with rfl | hne
  · exact hcut.lexFrom_append offset
  · obtain ⟨d, ds, rfl, hd⟩ := isBreak_of_isFiller hw hne
    rw [List.cons_append, lexFrom_break hd _ h (.inr hcut.last), ← List.cons_append,
      UiMarkup.lexFrom_filler hw]

end IsCut

/-! ## Places around a gap -/

theorem bounds_of_mem_lexFrom {offset : Nat} {cs : List Char} {p : Placed Lexeme}
    (h : p ∈ lexFrom offset cs) :
    offset ≤ p.span.start ∧ p.span.start < p.span.stop ∧ p.span.stop ≤ offset + byteLength cs := by
  have hmem := (List.mem_filter.mp h).1
  obtain ⟨front, back, hls, hstart, hstop⟩ := exists_of_mem_placeFrom hmem
  have hsource := congrArg byteLength (flatMap_text_lexemes cs)
  rw [hls, List.flatMap_append, List.flatMap_cons, byteLength_append, byteLength_append] at hsource
  have hvalue : p.value ∈ lexemes cs := by simp [hls]
  have hpos := byteLength_pos (text_ne_nil_of_mem_lexemes hvalue)
  omega

namespace Relocation

/-- A gap of `n` bytes opens at a byte: all that starts there or behind it starts later, and all
that stops behind it stops later. -/
def opening (offset n : Nat) : Relocation :=
  ⟨fun i => if offset ≤ i then i + n else i, fun i => if offset < i then i + n else i⟩

theorem opening_start_le_iff (offset n i j : Nat) :
    (opening offset n).start i ≤ (opening offset n).start j ↔ i ≤ j := by
  simp only [opening]
  split <;> split <;> omega

theorem opening_placed_of_front {α : Type} {offset : Nat} (n : Nat) {p : Placed α}
    (hstart : p.span.start < p.span.stop) (hstop : p.span.stop ≤ offset) :
    (opening offset n).placed p = p := by
  simp only [placed, span, opening]
  rw [if_neg (by omega), if_neg (by omega)]

theorem opening_placed_of_back {α : Type} {offset : Nat} (n : Nat) {p : Placed α}
    (hstart : offset ≤ p.span.start) (hstop : p.span.start < p.span.stop) :
    (opening offset n).placed p = (shift n).placed p := by
  simp only [placed, span, opening, shift]
  rw [if_pos hstart, if_pos (by omega)]

end Relocation

/-- A filler that is put into a source at a cut moves what stands behind it. -/
theorem lex_filler {front w back : String} (hcut : IsCut front.toList back.toList)
    (hw : IsFiller w.toList) (h : ∀ l ∈ lexemes front.toList, l.IsRecognized) :
    lex (front ++ w ++ back) = (lex (front ++ back)).map
      (Relocation.opening (byteLength front.toList) (byteLength w.toList)).placed := by
  rw [lex_eq_lexFrom, lex_eq_lexFrom, String.append_assoc, String.toList_append,
    String.toList_append, String.toList_append, hcut.lexFrom_filler hw h, hcut.lexFrom_append,
    List.map_append, lexFrom_shift]
  congr 1
  · refine ((List.map_congr_left fun p hp => ?_).trans (List.map_id _)).symm
    obtain ⟨-, hstart, hstop⟩ := bounds_of_mem_lexFrom hp
    exact Relocation.opening_placed_of_front _ hstart (by omega)
  · refine List.map_congr_left fun p hp => ?_
    obtain ⟨hstart, hstop, -⟩ := bounds_of_mem_lexFrom hp
    exact (Relocation.opening_placed_of_back _ (by omega) hstop).symm

end UiMarkup
