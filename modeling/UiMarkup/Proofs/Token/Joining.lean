import UiMarkup.Proofs.Token.Places
import UiMarkup.Proofs.Token.Spelling

/-!
# Texts put behind one another

Blanks, and the slash of a comment, end every token. So a text of which all is
recognized says in front of them what it says by itself, unless it ends in a
comment that only a newline closes. In front of a newline it always does.
-/

namespace UiMarkup

/-! ## Nothing is taken over a break -/

/-- A blank, or the slash in front of a comment. -/
def IsBreak (c : Char) : Prop := isSpacing c ∨ c = '/'

theorem isBreak_newline : IsBreak '\n' := .inl rfl

theorem IsBreak.cases {c : Char} (h : IsBreak c) :
    c = ' ' ∨ c = '\t' ∨ c = '\n' ∨ c = '\r' ∨ c = '/' := by
  rcases h with h | rfl
  · rcases isSpacing_iff.mp h with rfl | rfl | rfl | rfl <;> simp
  · simp

theorem IsBreak.isIdentPart_eq_false {c : Char} (h : IsBreak c) : isIdentPart c = false := by
  rcases h.cases with rfl | rfl | rfl | rfl | rfl <;> rfl

theorem IsBreak.isAlphanum_eq_false {c : Char} (h : IsBreak c) : c.isAlphanum = false := by
  rcases h.cases with rfl | rfl | rfl | rfl | rfl <;> rfl

theorem IsBreak.isDigit_eq_false {c : Char} (h : IsBreak c) : c.isDigit = false := by
  rcases h.cases with rfl | rfl | rfl | rfl | rfl <;> rfl

/-- What stops in a text stops there, whatever stands behind it. -/
theorem takeWhile_append_of_stops {p : Char → Bool} {cs : List Char} (h : cs.dropWhile p ≠ [])
    (ds : List Char) : (cs ++ ds).takeWhile p = cs.takeWhile p ∧
      (cs ++ ds).dropWhile p = cs.dropWhile p ++ ds := by
  have hlength := congrArg List.length (List.takeWhile_append_dropWhile (p := p) (l := cs))
  rw [List.length_append] at hlength
  have hpos := List.length_pos_iff.mpr h
  rw [List.takeWhile_append, List.dropWhile_append, if_neg (by omega), if_neg (by simpa using h)]
  exact ⟨rfl, rfl⟩

/-- What is taken does not change, and the text behind it is longer. -/
def Taken.before (t : Taken) (cs : List Char) : Taken := { t with rest := t.rest ++ cs }

section breaks

variable (cs ds : List Char) {d : Char}

theorem takeWhile_break {p : Char → Bool} (h : p d = false) :
    (cs ++ d :: ds).takeWhile p = cs.takeWhile p := by
  induction cs with
  | nil => simp [h]
  | cons c cs ih => simp only [List.cons_append, List.takeWhile_cons, ih]

theorem dropWhile_break {p : Char → Bool} (h : p d = false) :
    (cs ++ d :: ds).dropWhile p = cs.dropWhile p ++ d :: ds := by
  induction cs with
  | nil => simp [h]
  | cons c cs ih =>
    rw [List.cons_append, List.dropWhile_cons, List.dropWhile_cons, ih]
    split <;> rfl

variable (hd : IsBreak d)

include hd

theorem takeSign_break :
    takeSign (cs ++ d :: ds) = ((takeSign cs).1, (takeSign cs).2 ++ d :: ds) := by
  fun_cases takeSign cs with
  | case1 | case2 => rfl
  | case3 hplus hminus =>
    cases cs with
    | nil => rcases hd.cases with rfl | rfl | rfl | rfl | rfl <;> rfl
    | cons c cs =>
      unfold takeSign
      split <;> simp_all

theorem takeFraction_break :
    takeFraction (cs ++ d :: ds) = ((takeFraction cs).1, (takeFraction cs).2 ++ d :: ds) := by
  have hdigit := hd.isDigit_eq_false
  fun_cases takeFraction cs with
  | case1 cs hnone =>
    rw [List.cons_append, takeFraction, takeWhile_break _ _ hdigit, hnone]
  | case2 cs hsome =>
    rw [List.cons_append, takeFraction, takeWhile_break _ _ hdigit, dropWhile_break _ _ hdigit]
    split
    · contradiction
    · rfl
  | case3 hdot =>
    cases cs with
    | nil => rcases hd.cases with rfl | rfl | rfl | rfl | rfl <;> rfl
    | cons c cs =>
      unfold takeFraction
      split <;> simp_all

theorem takeExponent_break :
    takeExponent (cs ++ d :: ds) = ((takeExponent cs).1, (takeExponent cs).2 ++ d :: ds) := by
  have hdigit := hd.isDigit_eq_false
  fun_cases takeExponent cs with
  | case1 => rcases hd.cases with rfl | rfl | rfl | rfl | rfl <;> rfl
  | case2 e cs he hnone =>
    rw [List.cons_append, takeExponent, if_pos he, takeSign_break _ _ hd,
      takeWhile_break _ _ hdigit, hnone]
  | case3 e cs he hsome =>
    rw [List.cons_append, takeExponent, if_pos he, takeSign_break _ _ hd,
      takeWhile_break _ _ hdigit, dropWhile_break _ _ hdigit]
    split
    · contradiction
    · rfl
  | case4 e cs he => rw [List.cons_append, takeExponent, if_neg he]

theorem takeNumber_break : takeNumber (cs ++ d :: ds) = (takeNumber cs).before (d :: ds) := by
  unfold takeNumber
  simp only [takeSign_break _ _ hd, takeWhile_break _ _ hd.isDigit_eq_false,
    dropWhile_break _ _ hd.isDigit_eq_false, takeFraction_break _ _ hd, takeExponent_break _ _ hd]
  split <;> rfl

end breaks

theorem takeString_before {cs : List Char} (ds : List Char) (h : (takeString cs).whole) :
    takeString (cs ++ ds) = (takeString cs).before ds := by
  conv_lhs => rw [← takeString_append cs, List.append_assoc, takeString_stop h]
  rw [Taken.before, ← h]

theorem takeComment_before {cs : List Char} (ds : List Char) (h : (takeComment cs).whole) :
    takeComment (cs ++ ds) = (takeComment cs).before ds := by
  conv_lhs => rw [← takeComment_append cs, List.append_assoc, takeComment_stop h]
  rw [Taken.before, ← h]

namespace Lexeme

def IsRecognized (l : Lexeme) : Prop := ∀ text, l ≠ .unrecognized text

/-- A comment to the end of its line. -/
def IsLineComment (l : Lexeme) : Prop := ∃ text, l = .comment ('/' :: '/' :: text)

theorem whole_of_isRecognized {front : List Char} {t : Taken} {make : List Char → Lexeme}
    (h : (ofTaken front t make).1.IsRecognized) : t.whole := by
  cases hwhole : t.whole with
  | true => rfl
  | false => exact absurd (by simp [ofTaken, hwhole]) (h (front ++ t.text))

/-- A line comment goes on over every break but the end of its line. -/
theorem ofSlash_break {cs : List Char} {d : Char} (ds : List Char)
    (h : (ofSlash cs).1.IsRecognized)
    (hline : d = '\n' ∨ ((ofSlash cs).1.IsLineComment → (ofSlash cs).2 ≠ [])) :
    ofSlash (cs ++ d :: ds) = ((ofSlash cs).1, (ofSlash cs).2 ++ d :: ds) := by
  revert h hline
  fun_cases ofSlash cs with
  | case1 cs =>
    intro _ hline
    rw [List.cons_append, ofSlash]
    rcases hline with rfl | hne
    · rw [takeWhile_break _ _ rfl, dropWhile_break _ _ rfl]
    · have hstops := takeWhile_append_of_stops (hne ⟨_, rfl⟩) (d :: ds)
      rw [hstops.1, hstops.2]
  | case2 cs =>
    intro h _
    have hwhole := whole_of_isRecognized h
    rw [List.cons_append, ofSlash, takeComment_before _ hwhole]
    rfl
  | case3 =>
    intro h _
    exact absurd rfl (h ['/'])

theorem first_of_isSpacing {c : Char} (h : isSpacing c) (cs : List Char) :
    first c cs = (blank (c :: cs.takeWhile isSpacing), cs.dropWhile isSpacing) := by
  rw [first, if_pos h]

theorem first_break {c : Char} {cs : List Char} {d : Char} (hd : IsBreak d) (ds : List Char)
    (hspacing : ¬ isSpacing c) (h : (first c cs).1.IsRecognized)
    (hline : d = '\n' ∨ ((first c cs).1.IsLineComment → (first c cs).2 ≠ [])) :
    first c (cs ++ d :: ds) = ((first c cs).1, (first c cs).2 ++ d :: ds) := by
  -- One case for each kind of lexeme, in the order in which they are tried.
  unfold first at h hline ⊢
  simp only [if_neg hspacing] at h hline ⊢
  by_cases hstart : isIdentStart c
  · simp only [if_pos hstart, takeWhile_break _ _ hd.isIdentPart_eq_false,
      dropWhile_break _ _ hd.isIdentPart_eq_false]
  simp only [if_neg hstart] at h hline ⊢
  by_cases hhash : c = '#'
  · simp only [if_pos hhash, takeWhile_break _ _ hd.isAlphanum_eq_false,
      dropWhile_break _ _ hd.isAlphanum_eq_false]
  simp only [if_neg hhash] at h hline ⊢
  by_cases hquote : c = '"'
  · simp only [if_pos hquote] at h ⊢
    rw [takeString_before _ (whole_of_isRecognized h)]
    rfl
  simp only [if_neg hquote] at h hline ⊢
  by_cases hslash : c = '/'
  · simp only [if_pos hslash] at h hline ⊢
    exact ofSlash_break ds h hline
  simp only [if_neg hslash] at h ⊢
  by_cases hnumber : c.isDigit || c = '+' || c = '-'
  · simp only [if_pos hnumber, ← List.cons_append, takeNumber_break _ _ hd]
    rfl
  simp only [if_neg hnumber] at h ⊢
  split at h
  · rfl
  · exact absurd rfl (h [c])

end Lexeme

/-! ## Lexemes in their places -/

/-- What a text says, each lexeme in its place, if the text begins at the byte `offset`. -/
def lexFrom (offset : Nat) (cs : List Char) : List (Placed Lexeme) :=
  (placeFrom offset (lexemes cs)).filter (!·.value.isSkipped)

theorem lex_eq_lexFrom (source : String) : lex source = lexFrom 0 source.toList := rfl

@[simp] theorem lexFrom_nil (offset : Nat) : lexFrom offset [] = [] := by
  rw [lexFrom, lexemes]
  rfl

/-- A lexeme in its place, or nothing if it is skipped. -/
def Lexeme.placed (offset : Nat) (l : Lexeme) : List (Placed Lexeme) :=
  if l.isSkipped then [] else [⟨l, ⟨offset, offset + byteLength l.text⟩⟩]

theorem lexFrom_of_first {c : Char} {cs rest : List Char} {l : Lexeme}
    (h : Lexeme.first c cs = (l, rest)) (offset : Nat) :
    lexFrom offset (c :: cs) = l.placed offset ++ lexFrom (offset + byteLength l.text) rest := by
  rw [lexFrom, lexemes, h, placeFrom, List.filter_cons, Lexeme.placed]
  cases l.isSkipped <;> rfl

theorem lexFrom_cons (offset : Nat) (c : Char) (cs : List Char) :
    lexFrom offset (c :: cs) = (Lexeme.first c cs).1.placed offset ++
      lexFrom (offset + byteLength (Lexeme.first c cs).1.text) (Lexeme.first c cs).2 :=
  lexFrom_of_first rfl offset

/-- A blank takes up its bytes and says nothing, however many follow it. -/
theorem lexFrom_spacing {c : Char} (h : isSpacing c) (offset : Nat) (cs : List Char) :
    lexFrom offset (c :: cs) = lexFrom (offset + c.utf8Size) cs := by
  have hblank (offset : Nat) (d : Char) (ds : List Char) (hd : isSpacing d) :
      lexFrom offset (d :: ds) =
        lexFrom (offset + byteLength (d :: ds.takeWhile isSpacing)) (ds.dropWhile isSpacing) := by
    exact lexFrom_of_first (Lexeme.first_of_isSpacing hd ds) offset
  rw [hblank offset c cs h, byteLength]
  cases cs with
  | nil => rfl
  | cons d ds =>
    by_cases hd : isSpacing d
    · rw [hblank _ d ds hd, List.takeWhile_cons_of_pos hd, List.dropWhile_cons_of_pos hd,
        Nat.add_assoc]
    · rw [List.takeWhile_cons_of_neg hd, List.dropWhile_cons_of_neg hd]
      rfl

theorem lexFrom_spaces {cs : List Char} (h : ∀ c ∈ cs, isSpacing c) (offset : Nat)
    (rest : List Char) : lexFrom offset (cs ++ rest) = lexFrom (offset + byteLength cs) rest := by
  induction cs generalizing offset with
  | nil => rfl
  | cons c cs ih =>
    rw [List.cons_append, lexFrom_spacing (h c List.mem_cons_self), byteLength, ← Nat.add_assoc]
    exact ih (fun d hd => h d (List.mem_cons_of_mem _ hd)) _

theorem lexFrom_cons_break {c d : Char} {cs : List Char} (hd : IsBreak d) (ds : List Char)
    (h : (Lexeme.first c cs).1.IsRecognized)
    (hline : d = '\n' ∨ ((Lexeme.first c cs).1.IsLineComment → (Lexeme.first c cs).2 ≠ []))
    (offset : Nat) :
    lexFrom offset (c :: cs ++ d :: ds) = (Lexeme.first c cs).1.placed offset ++
      lexFrom (offset + byteLength (Lexeme.first c cs).1.text)
        ((Lexeme.first c cs).2 ++ d :: ds) := by
  by_cases hspacing : isSpacing c
  · -- A blank takes the blanks behind it with it, so its characters are counted one by one.
    have hspaces : ∀ e ∈ c :: cs.takeWhile isSpacing, isSpacing e := by
      intro e he
      rcases List.mem_cons.mp he with rfl | he
      · exact hspacing
      · exact List.mem_takeWhile_imp he
    have hcut : c :: cs ++ d :: ds =
        (c :: cs.takeWhile isSpacing) ++ (cs.dropWhile isSpacing ++ d :: ds) := by
      rw [List.cons_append, List.cons_append, ← List.append_assoc,
        List.takeWhile_append_dropWhile]
    rw [hcut, lexFrom_spaces hspaces, Lexeme.first_of_isSpacing hspacing]
    rfl
  · exact lexFrom_of_first (Lexeme.first_break hd ds hspacing h hline) offset

/-- All lexemes: a recognized text says in front of a break what it says at the end, if it does
not end in a comment that only a newline closes. -/
theorem lexFrom_break {cs : List Char} {d : Char} (hd : IsBreak d) (ds : List Char)
    (h : ∀ l ∈ lexemes cs, l.IsRecognized)
    (hline : d = '\n' ∨ ∀ l ∈ (lexemes cs).getLast?, ¬ l.IsLineComment) (offset : Nat) :
    lexFrom offset (cs ++ d :: ds) =
      lexFrom offset cs ++ lexFrom (offset + byteLength cs) (d :: ds) := by
  fun_induction lexemes cs generalizing offset with
  | case1 =>
    rw [List.nil_append, lexFrom_nil]
    rfl
  | case2 c cs ih =>
    obtain ⟨hfirst, hrest⟩ := List.forall_mem_cons.mp h
    have hlength := congrArg byteLength (Lexeme.first_append c cs)
    rw [byteLength_append] at hlength
    have hlineFirst :
        d = '\n' ∨ ((Lexeme.first c cs).1.IsLineComment → (Lexeme.first c cs).2 ≠ []) := by
      refine hline.imp_right fun hlast hcomment hnil => ?_
      rw [hnil, lexemes] at hlast
      exact hlast _ rfl hcomment
    have hlineRest :
        d = '\n' ∨ ∀ l ∈ (lexemes (Lexeme.first c cs).2).getLast?, ¬ l.IsLineComment := by
      refine hline.imp_right fun hlast l hl => hlast l ?_
      rw [List.getLast?_cons, Option.mem_def.mp hl]
      rfl
    rw [lexFrom_cons_break hd ds hfirst hlineFirst, ih hrest hlineRest, lexFrom_cons offset c cs,
      List.append_assoc, ← hlength, Nat.add_assoc offset]

/-! ## Sources -/

/-- What is skipped is recognized, so only what is said can be not. -/
theorem isRecognized_of_lex {source : String}
    (h : ∀ l ∈ lex source, l.value.IsRecognized) : ∀ l ∈ lexemes source.toList, l.IsRecognized := by
  rintro l hl text rfl
  have hspoken : .unrecognized text ∈ spoken source.toList := List.mem_filter.mpr ⟨hl, rfl⟩
  rw [← map_value_lex] at hspoken
  obtain ⟨p, hp, hvalue⟩ := List.mem_map.mp hspoken
  exact h p hp text hvalue

theorem placeFrom_shift (n offset : Nat) (ls : List Lexeme) :
    placeFrom (offset + n) ls = (placeFrom offset ls).map (Relocation.shift n).placed := by
  induction ls generalizing offset with
  | nil => rfl
  | cons l ls ih =>
    rw [placeFrom, placeFrom, List.map_cons, ← ih]
    simp only [Relocation.placed, Relocation.span, Relocation.shift, Nat.add_right_comm offset n]

theorem lexFrom_shift (n offset : Nat) (cs : List Char) :
    lexFrom (offset + n) cs = (lexFrom offset cs).map (Relocation.shift n).placed := by
  rw [lexFrom, lexFrom, placeFrom_shift, List.filter_map]
  rfl

/-- What two sources say, the second one on a line of its own behind the first one. -/
theorem lex_newline {a : String} (b : String) (h : ∀ l ∈ lexemes a.toList, l.IsRecognized) :
    lex (a ++ "\n" ++ b) =
      lex a ++ (lex b).map (Relocation.shift (byteLength a.toList + 1)).placed := by
  have hchars : (a ++ "\n" ++ b).toList = a.toList ++ '\n' :: b.toList := by
    simp
  rw [lex_eq_lexFrom, hchars, lexFrom_break isBreak_newline _ h (.inl rfl), lexFrom_spacing rfl,
    lex_eq_lexFrom, lex_eq_lexFrom, ← lexFrom_shift, Nat.add_assoc]
  rfl

end UiMarkup
