import UiMarkup.Proofs.Token.Filler

/-!
# Where a block comment ends

A block comment ends with the first closing mark behind its opening mark. Its
pattern can be cut into items in many ways, but it matches one front of a text at
most, the one through that mark. Without a closing mark the rest of the source is
left over as a whole.
-/

namespace UiMarkup

/-- `*/` stands behind `body`, and nowhere earlier. -/
structure FirstMark (cs body rest : List Char) : Prop where
  split : cs = body ++ '*' :: '/' :: rest
  first : ∀ body' rest', cs = body' ++ '*' :: '/' :: rest' → body.length ≤ body'.length

/-- The comment with this text between its marks. -/
def blockComment (body : List Char) : List Char := '/' :: '*' :: (body ++ ['*', '/'])

section

variable {cs body rest body' rest' : List Char}

theorem FirstMark.unique (h : FirstMark cs body rest) (h' : FirstMark cs body' rest') :
    body = body' ∧ rest = rest' := by
  have hlength := Nat.le_antisymm (h.first _ _ h'.split) (h'.first _ _ h.split)
  obtain ⟨hbody, hrest⟩ := List.append_inj (h.split.symm.trans h'.split) hlength
  exact ⟨hbody, by simpa using hrest⟩

theorem FirstMark.holdsMark (h : FirstMark cs body rest) : ['*', '/'] <:+: cs :=
  ⟨body, rest, by rw [h.split]; simp⟩

/-- The first mark stays the first behind one more character, if they make no mark together. -/
theorem FirstMark.cons {c : Char} (hmark : ∀ tail, c = '*' → cs = '/' :: tail → False)
    (h : FirstMark cs body rest) : FirstMark (c :: cs) (c :: body) rest := by
  refine ⟨by rw [h.split]; rfl, ?_⟩
  intro body' rest' hsplit
  cases body' with
  | nil =>
    obtain ⟨hc, hcs⟩ := List.cons.inj hsplit
    exact absurd hcs (hmark rest' hc)
  | cons d body' => exact Nat.succ_le_succ (h.first body' rest' (List.cons.inj hsplit).2)

/-! ## The scanner -/

theorem firstMark_takeComment (h : (takeComment cs).whole) :
    ∃ body, (takeComment cs).text = body ++ ['*', '/'] ∧
      FirstMark cs body (takeComment cs).rest := by
  fun_induction takeComment cs with
  | case1 => simp at h
  | case2 cs => exact ⟨[], rfl, rfl, fun _ _ _ => Nat.zero_le _⟩
  | case3 c cs hmark ih =>
    obtain ⟨body, htext, hfirst⟩ := ih h
    exact ⟨c :: body, congrArg (c :: ·) htext, hfirst.cons hmark⟩

theorem unmarked_of_takeComment (h : (takeComment cs).whole = false) : ¬ ['*', '/'] <:+: cs := by
  fun_induction takeComment cs with
  | case1 => simp
  | case2 => simp at h
  | case3 c cs hmark ih =>
    rw [List.infix_cons_iff, not_or]
    refine ⟨?_, ih h⟩
    rintro ⟨tail, htail⟩
    obtain ⟨hc, hcs⟩ := List.cons.inj htail
    exact hmark tail hc.symm hcs.symm

theorem takeComment_of_marked (h : ['*', '/'] <:+: cs) :
    ∃ body rest, FirstMark cs body rest ∧ takeComment cs = ⟨true, body ++ ['*', '/'], rest⟩ := by
  cases hwhole : (takeComment cs).whole with
  | false => exact absurd h (unmarked_of_takeComment hwhole)
  | true =>
    obtain ⟨body, htext, hfirst⟩ := firstMark_takeComment hwhole
    exact ⟨body, _, hfirst, by rw [← hwhole, ← htext]⟩

theorem takeComment_of_firstMark (h : FirstMark cs body rest) :
    takeComment cs = ⟨true, body ++ ['*', '/'], rest⟩ := by
  obtain ⟨body', rest', hfirst, htaken⟩ := takeComment_of_marked h.holdsMark
  obtain ⟨rfl, rfl⟩ := h.unique hfirst
  exact htaken

theorem takeComment_of_unmarked (h : ¬ ['*', '/'] <:+: cs) : takeComment cs = ⟨false, cs, []⟩ := by
  cases hwhole : (takeComment cs).whole with
  | true =>
    obtain ⟨body, -, hfirst⟩ := firstMark_takeComment hwhole
    exact absurd hfirst.holdsMark h
  | false =>
    obtain ⟨htext, -⟩ := closes_of_not_whole hwhole
    have hsplit := takeComment_append cs
    have hrest : (takeComment cs).rest = [] := by simpa [htext] using hsplit
    rw [← hwhole, ← hrest]
    conv => rhs; arg 2; rw [← htext]

/-! ## The pattern -/

/-- Of all fronts of a text, the pattern matches the one through the first closing mark. -/
theorem mem_blockComment_iff_firstMark {w : List Char} (hw : w <+: '/' :: '*' :: cs) :
    w ∈ Pattern.blockComment.language ↔
      ∃ body rest, FirstMark cs body rest ∧ w = blockComment body := by
  rw [Pattern.mem_blockComment]
  constructor
  · rintro ⟨text, hcloses, rfl⟩
    obtain ⟨rest, hrest⟩ := hw
    obtain rfl : text ++ rest = cs := by simpa using hrest
    have htaken := hcloses.append rest
    obtain ⟨body, htext, hfirst⟩ := @firstMark_takeComment (text ++ rest) (by rw [htaken])
    simp only [htaken] at htext hfirst
    exact ⟨body, rest, hfirst, by rw [htext, blockComment]⟩
  · rintro ⟨body, rest, hfirst, rfl⟩
    have htaken := takeComment_of_firstMark hfirst
    have hmem := @Pattern.text_takeComment_mem cs (by rw [htaken])
    rw [htaken] at hmem
    exact ⟨body ++ ['*', '/'], Pattern.closes_commentBody hmem, rfl⟩

end

/-! ## Sources -/

/-- What lexemes say, the first of them at the byte `offset`. -/
def spokenFrom (offset : Nat) (ls : List Lexeme) : List (Placed Lexeme) :=
  (placeFrom offset ls).filter (!·.value.isSkipped)

theorem lex_append {source : String} {front back : List Lexeme}
    (h : lexemes source.toList = front ++ back) :
    lex source =
      spokenFrom 0 front ++ spokenFrom (byteLength (front.flatMap Lexeme.text)) back := by
  rw [lex, h, placeFrom_append, List.filter_append, Nat.zero_add]
  rfl

/-- **A block comment ends at the first closing mark.** Where the lexemes of a source come to an
opening mark, the text through the first closing mark is skipped, and lexing goes on right behind
it. No other front of the text matches the pattern. Without a closing mark, the text from the
opening mark to the end of the source is one piece that is not recognized. -/
theorem block_comment_ends_at_first_mark {source : String} {front back : List Lexeme}
    {cs : List Char} (hlex : lexemes source.toList = front ++ back)
    (hopen : back.flatMap Lexeme.text = '/' :: '*' :: cs) :
    (['*', '/'] <:+: cs → ∃ body rest, FirstMark cs body rest ∧
      back = .comment (blockComment body) :: lexemes rest ∧
      lex source = spokenFrom 0 front ++ lexFrom
        (byteLength (front.flatMap Lexeme.text) + byteLength (blockComment body)) rest) ∧
    (∀ w, w <+: '/' :: '*' :: cs → (w ∈ Pattern.blockComment.language ↔
      ∃ body rest, FirstMark cs body rest ∧ w = blockComment body)) ∧
    (¬ ['*', '/'] <:+: cs → back = [.unrecognized ('/' :: '*' :: cs)] ∧
      lex source = spokenFrom 0 front ++ [⟨.unrecognized ('/' :: '*' :: cs),
        ⟨byteLength (front.flatMap Lexeme.text), byteLength source.toList⟩⟩]) := by
  have hback : back = (Lexeme.ofTaken ['/', '*'] (takeComment cs) .comment).1 ::
      lexemes (takeComment cs).rest := by
    rw [← lexemes_back hlex, hopen, lexemes]
    rfl
  have hsource := congrArg byteLength (flatMap_text_lexemes source.toList)
  rw [hlex, List.flatMap_append, byteLength_append, hopen] at hsource
  refine ⟨fun hmark => ?_, fun w hw => mem_blockComment_iff_firstMark hw, fun hnone => ?_⟩
  · obtain ⟨body, rest, hfirst, htaken⟩ := takeComment_of_marked hmark
    rw [htaken] at hback
    refine ⟨body, rest, hfirst, hback, ?_⟩
    rw [lex_append hlex, hback]
    rfl
  · rw [takeComment_of_unmarked hnone] at hback
    have hrest : back = [.unrecognized ('/' :: '*' :: cs)] := by
      rw [hback, lexemes]
      rfl
    refine ⟨hrest, ?_⟩
    rw [lex_append hlex, hrest, ← hsource]
    rfl

/-- Behind a token, a comment with stars, a quote and an opening mark in it. -/
theorem block_comment_ends_at_first_mark_stars :
    let source := "a /**\"/*\n**/ b */"
    let front : List Lexeme := [.token (.ident "a"), .blank [' ']]
    let back : List Lexeme := [.comment "/**\"/*\n**/".toList, .blank [' '], .token (.ident "b"),
      .blank [' '], .unrecognized ['*'], .unrecognized ['/']]
    let cs := "*\"/*\n**/ b */".toList
    lexemes source.toList = front ++ back ∧ back.flatMap Lexeme.text = '/' :: '*' :: cs ∧
      ['*', '/'] <:+: cs ∧ ∃ body rest, FirstMark cs body rest ∧
        back = .comment (blockComment body) :: lexemes rest := by
  intro source front back cs
  have hlex : lexemes source.toList = front ++ back := by cbv
  have hopen : back.flatMap Lexeme.text = '/' :: '*' :: cs := by rfl
  have hmark : ['*', '/'] <:+: cs := by decide
  obtain ⟨body, rest, hfirst, hback, -⟩ := (block_comment_ends_at_first_mark hlex hopen).1 hmark
  exact ⟨hlex, hopen, hmark, body, rest, hfirst, hback⟩

end UiMarkup
