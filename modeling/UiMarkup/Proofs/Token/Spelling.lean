import Mathlib
import UiMarkup.Token.Lexeme

/-!
# How tokens are spelled

A token that was read from a source is read again wherever its text stands, as
long as the text behind it cannot belong to it.
-/

namespace UiMarkup

/-! ## What a text says -/

/-- The lexemes of a text without blanks and comments. -/
def spoken (cs : List Char) : List Lexeme := (lexemes cs).filter (!·.isSkipped)

@[simp] theorem spoken_nil : spoken [] = [] := by simp [spoken, lexemes]

theorem map_value_placeFrom (offset : Nat) (ls : List Lexeme) :
    (placeFrom offset ls).map Placed.value = ls := by
  induction ls generalizing offset with
  | nil => rfl
  | cons l ls ih => rw [placeFrom, List.map_cons, ih]

theorem map_value_lex (source : String) :
    (lex source).map Placed.value = spoken source.toList := by
  rw [spoken, ← map_value_placeFrom 0 (lexemes source.toList), List.filter_map, lex]
  congr 2

theorem spoken_of_token {c : Char} {cs rest : List Char} {t : Token}
    (h : Lexeme.first c cs = (.token t, rest)) : spoken (c :: cs) = .token t :: spoken rest := by
  rw [spoken, lexemes, h]
  rfl

theorem isSpacing_iff {c : Char} :
    isSpacing c ↔ c = ' ' ∨ c = '\t' ∨ c = '\n' ∨ c = '\r' := by
  simp [isSpacing, or_assoc]

/-- A blank in front says nothing, however many follow it. -/
theorem spoken_spacing {c : Char} (h : isSpacing c) (cs : List Char) :
    spoken (c :: cs) = spoken cs := by
  have hblank (d : Char) (ds : List Char) (hd : isSpacing d) :
      spoken (d :: ds) = spoken (ds.dropWhile isSpacing) := by
    rw [spoken, lexemes, Lexeme.first, if_pos hd]
    rfl
  rw [hblank c cs h]
  cases cs with
  | nil => rfl
  | cons d ds =>
    by_cases hd : isSpacing d
    · rw [hblank d ds hd, List.dropWhile_cons_of_pos hd]
    · rw [List.dropWhile_cons_of_neg hd]

theorem spoken_spaces {cs : List Char} (h : ∀ c ∈ cs, isSpacing c) (rest : List Char) :
    spoken (cs ++ rest) = spoken rest := by
  induction cs with
  | nil => rfl
  | cons c cs ih =>
    rw [List.cons_append, spoken_spacing (h c List.mem_cons_self)]
    exact ih fun d hd => h d (List.mem_cons_of_mem _ hd)

theorem spoken_mark {c : Char} {t : Token} (h : Token.ofMark? c = some t) (cs : List Char) :
    spoken (c :: cs) = .token t :: spoken cs := by
  have hfirst : Lexeme.first c cs = (.token t, cs) := by
    unfold Token.ofMark? at h
    split at h <;> simp at h <;> subst h <;> rfl
  exact spoken_of_token hfirst

/-! ## Ends of tokens -/

/-- A text goes on with a character outside a class, or not at all. -/
def Stops (p : Char → Bool) (cs : List Char) : Prop := ∀ c ∈ cs.head?, p c = false

theorem takeWhile_stop {p : Char → Bool} {cs rest : List Char} (hcs : ∀ c ∈ cs, p c)
    (hrest : Stops p rest) : (cs ++ rest).takeWhile p = cs := by
  rw [List.takeWhile_append_of_pos hcs]
  cases rest with
  | nil => simp
  | cons c rest => simp [hrest c rfl]

theorem dropWhile_stop {p : Char → Bool} {cs rest : List Char} (hcs : ∀ c ∈ cs, p c)
    (hrest : Stops p rest) : (cs ++ rest).dropWhile p = rest := by
  rw [List.dropWhile_append_of_pos hcs]
  cases rest with
  | nil => simp
  | cons c rest => simp [hrest c rfl]

/-- A text falls apart at the end of a class in one way. -/
theorem append_inj_of_stops {p : Char → Bool} {as bs rest rest' : List Char} (has : ∀ c ∈ as, p c)
    (hbs : ∀ c ∈ bs, p c) (hrest : Stops p rest) (hrest' : Stops p rest')
    (h : as ++ rest = bs ++ rest') : as = bs ∧ rest = rest' := by
  have htake := congrArg (List.takeWhile p) h
  have hdrop := congrArg (List.dropWhile p) h
  rw [takeWhile_stop has hrest, takeWhile_stop hbs hrest'] at htake
  rw [dropWhile_stop has hrest, dropWhile_stop hbs hrest'] at hdrop
  exact ⟨htake, hdrop⟩

/-- The characters that may go on with a token, whatever token it is. -/
def isTokenPart (c : Char) : Bool := isIdentPart c || c = '.'

theorem stops_mono {p q : Char → Bool} {cs : List Char} (h : Stops q cs)
    (hpq : ∀ c, p c → q c) : Stops p cs := by
  intro c hc
  cases hp : p c with
  | false => rfl
  | true =>
    have := h c hc
    rw [hpq c hp] at this
    simp at this

theorem isTokenPart_of_isIdentPart {c : Char} (h : isIdentPart c) : isTokenPart c := by
  simp [isTokenPart, h]

theorem isTokenPart_of_isAlphanum {c : Char} (h : c.isAlphanum) : isTokenPart c := by
  simp [isTokenPart, isIdentPart, h]

theorem isTokenPart_of_isDigit {c : Char} (h : c.isDigit) : isTokenPart c := by
  simp [isTokenPart, isIdentPart, Char.isAlphanum, h]

/-! ## Strings -/

/-- The closing quote is found at the same place, whatever stands behind it. -/
theorem takeString_stop {cs : List Char} (h : (takeString cs).whole) (rest : List Char) :
    takeString ((takeString cs).text ++ rest) = ⟨true, (takeString cs).text, rest⟩ := by
  fun_induction takeString cs with
  | case1 => simp at h
  | case2 cs => simp [takeString]
  | case3 => simp at h
  | case4 => simp at h
  | case5 c cs hnewline ih =>
    have ih := ih (by simpa [Taken.cons] using h)
    simp only [Taken.cons, List.cons_append]
    rw [takeString, ih]
    · rfl
    · exact hnewline
  | case6 c cs hquote hend hnewline hescape ih =>
    have ih := ih (by simpa [Taken.cons] using h)
    simp only [Taken.cons, List.cons_append]
    rw [takeString, ih]
    · rfl
    -- The character is no backslash, or it would have taken the next one with it.
    all_goals
      cases cs with
      | nil => simp_all
      | cons d ds => simp_all

/-! ## Comments -/

theorem text_takeComment_ne_nil {cs : List Char} (h : (takeComment cs).whole) :
    (takeComment cs).text ≠ [] := by
  fun_cases takeComment cs with
  | case1 => simp [takeComment] at h
  | case2 | case3 => simp [Taken.cons]

/-- The closing mark is found at the same place, whatever stands behind it. -/
theorem takeComment_stop {cs : List Char} (h : (takeComment cs).whole) (rest : List Char) :
    takeComment ((takeComment cs).text ++ rest) = ⟨true, (takeComment cs).text, rest⟩ := by
  fun_induction takeComment cs with
  | case1 => simp at h
  | case2 => rfl
  | case3 c cs hend ih =>
    obtain ⟨d, ds, htext⟩ := List.exists_cons_of_ne_nil (text_takeComment_ne_nil h)
    have htaken := takeComment_append cs
    rw [Taken.cons, List.cons_append, takeComment, ih h]
    · rfl
    · intro tail hstar hslash
      rw [htext] at htaken hslash
      obtain ⟨rfl, -⟩ := List.cons.inj hslash
      exact hend _ hstar htaken.symm

/-! ## Numbers -/

def IsSign (cs : List Char) : Prop := cs = [] ∨ cs = ['+'] ∨ cs = ['-']

def SomeDigits (cs : List Char) : Prop := cs ≠ [] ∧ ∀ c ∈ cs, c.isDigit

def IsFraction (cs : List Char) : Prop := cs = [] ∨ ∃ ds, SomeDigits ds ∧ cs = '.' :: ds

def IsExponent (cs : List Char) : Prop :=
  cs = [] ∨ ∃ e sign ds, (e = 'e' ∨ e = 'E') ∧ IsSign sign ∧ SomeDigits ds ∧ cs = e :: sign ++ ds

/-- A sign, digits, a fraction and an exponent, of which only the digits have to be there. -/
def IsNumber (cs : List Char) : Prop :=
  ∃ sign ds fraction exponent, IsSign sign ∧ SomeDigits ds ∧ IsFraction fraction ∧
    IsExponent exponent ∧ cs = sign ++ (ds ++ (fraction ++ exponent))

theorem someDigits_takeWhile {cs : List Char} (h : cs.takeWhile Char.isDigit ≠ []) :
    SomeDigits (cs.takeWhile Char.isDigit) :=
  ⟨h, List.all_eq_true.mp List.all_takeWhile⟩

theorem isSign_takeSign (cs : List Char) : IsSign (takeSign cs).1 := by
  fun_cases takeSign cs <;> simp [IsSign]

theorem isFraction_takeFraction (cs : List Char) : IsFraction (takeFraction cs).1 := by
  fun_cases takeFraction cs with
  | case1 => exact .inl rfl
  | case2 cs hdigits => exact .inr ⟨_, someDigits_takeWhile hdigits, rfl⟩
  | case3 => exact .inl rfl

theorem isExponent_takeExponent (cs : List Char) : IsExponent (takeExponent cs).1 := by
  fun_cases takeExponent cs with
  | case1 => exact .inl rfl
  | case2 => exact .inl rfl
  | case3 e cs he hdigits =>
    exact .inr ⟨e, _, _, by simpa using he, isSign_takeSign cs, someDigits_takeWhile hdigits, rfl⟩
  | case4 => exact .inl rfl

theorem isNumber_takeNumber {cs : List Char} (h : (takeNumber cs).whole) :
    IsNumber (takeNumber cs).text := by
  fun_cases takeNumber cs with
  | case1 sign hnone =>
    have hnone : (takeSign cs).2.takeWhile Char.isDigit = [] := hnone
    simp [takeNumber, hnone] at h
  | case2 sign fraction exponent hdigits =>
    refine ⟨sign.1, _, fraction.1, exponent.1, isSign_takeSign cs, someDigits_takeWhile hdigits,
      isFraction_takeFraction _, isExponent_takeExponent _, ?_⟩
    simp only [List.append_assoc]

/-! ### Reading a number again -/

theorem isDigit_ne_sign {c : Char} (h : c.isDigit) : c ≠ '+' ∧ c ≠ '-' := by
  constructor <;> rintro rfl <;> simp at h

theorem takeSign_stop {sign ds : List Char} (hsign : IsSign sign) (hds : SomeDigits ds)
    (rest : List Char) : takeSign (sign ++ (ds ++ rest)) = (sign, ds ++ rest) := by
  obtain ⟨hne, hdigits⟩ := hds
  rcases hsign with rfl | rfl | rfl
  · cases ds with
    | nil => exact absurd rfl hne
    | cons d ds =>
      obtain ⟨hplus, hminus⟩ := isDigit_ne_sign (hdigits d List.mem_cons_self)
      simp [takeSign, hplus, hminus]
  · rfl
  · rfl

theorem takeFraction_stop {fraction rest : List Char} (hfraction : IsFraction fraction)
    (hrest : Stops (fun c => c.isDigit || c = '.') rest) :
    takeFraction (fraction ++ rest) = (fraction, rest) := by
  rcases hfraction with rfl | ⟨ds, ⟨hne, hdigits⟩, rfl⟩
  · cases rest with
    | nil => rfl
    | cons c rest =>
      have hc : c ≠ '.' := by
        have := hrest c rfl
        simp_all
      rw [List.nil_append, takeFraction]
      simpa using hc
  · have hstop : Stops Char.isDigit rest := stops_mono hrest fun c hc => by simp [hc]
    rw [List.cons_append, takeFraction, takeWhile_stop hdigits hstop, dropWhile_stop hdigits hstop]
    split
    · contradiction
    · rfl

theorem takeExponent_stop {exponent rest : List Char} (hexponent : IsExponent exponent)
    (hrest : Stops isTokenPart rest) : takeExponent (exponent ++ rest) = (exponent, rest) := by
  rcases hexponent with rfl | ⟨e, sign, ds, he, hsign, hds, rfl⟩
  · cases rest with
    | nil => rfl
    | cons c rest =>
      have hc : ¬ (c = 'e' ∨ c = 'E') := by
        have := hrest c rfl
        rintro (rfl | rfl) <;> simp [isTokenPart, isIdentPart] at this
      rw [List.nil_append, takeExponent, if_neg (by simpa using hc)]
  · have hstop : Stops Char.isDigit rest := stops_mono hrest fun c => isTokenPart_of_isDigit
    rw [List.append_assoc, List.cons_append, takeExponent, if_pos (by simpa using he),
      takeSign_stop hsign hds, takeWhile_stop hds.2 hstop, dropWhile_stop hds.2 hstop]
    split
    · exact absurd rfl hds.1
    · rfl

/-- Behind the digits a number goes on with a point, an exponent, or not at all. -/
theorem stops_exponent {exponent rest : List Char} (hexponent : IsExponent exponent)
    (hrest : Stops isTokenPart rest) :
    Stops (fun c => c.isDigit || c = '.') (exponent ++ rest) := by
  rcases hexponent with rfl | ⟨e, sign, ds, he, hsign, hds, rfl⟩
  · refine stops_mono hrest fun c hc => ?_
    rcases Bool.or_eq_true _ _ ▸ hc with hc | hc
    · exact isTokenPart_of_isDigit hc
    · simp [isTokenPart, hc]
  · intro c hc
    obtain rfl : e = c := by simpa using hc
    rcases he with rfl | rfl <;> rfl

theorem stops_fraction {fraction exponent rest : List Char} (hfraction : IsFraction fraction)
    (hexponent : IsExponent exponent) (hrest : Stops isTokenPart rest) :
    Stops Char.isDigit (fraction ++ (exponent ++ rest)) := by
  rcases hfraction with rfl | ⟨ds, hds, rfl⟩
  · rw [List.nil_append]
    exact stops_mono (stops_exponent hexponent hrest) fun c hc => by simp [hc]
  · intro c hc
    obtain rfl : '.' = c := by simpa using hc
    rfl

theorem takeNumber_stop {cs : List Char} (h : IsNumber cs) {rest : List Char}
    (hrest : Stops isTokenPart rest) : takeNumber (cs ++ rest) = ⟨true, cs, rest⟩ := by
  obtain ⟨sign, ds, fraction, exponent, hsign, hds, hfraction, hexponent, rfl⟩ := h
  have hstop := stops_fraction hfraction hexponent hrest
  rw [show sign ++ (ds ++ (fraction ++ exponent)) ++ rest =
      sign ++ (ds ++ (fraction ++ (exponent ++ rest))) by simp only [List.append_assoc], takeNumber,
    takeSign_stop hsign hds]
  simp only [takeWhile_stop hds.2 hstop, dropWhile_stop hds.2 hstop,
    takeFraction_stop hfraction (stops_exponent hexponent hrest), takeExponent_stop hexponent hrest]
  split
  · exact absurd rfl hds.1
  · simp only [List.append_assoc]

/-! ## Tokens -/

/-- A quoted text whose last character closes it. -/
def IsString (cs : List Char) : Prop :=
  ∃ body, cs = '"' :: body ∧ takeString body = ⟨true, body, []⟩

def IsHexColor (cs : List Char) : Prop := ∃ body, cs = '#' :: body ∧ ∀ c ∈ body, c.isAlphanum

/-- The text of a token is one that its kind can have. -/
def Legible : Token → Prop
  | .ident text => isIdentifier text.toList
  | .string text => IsString text.toList
  | .number text => IsNumber text.toList
  | .hexColor text => IsHexColor text.toList
  | _ => True

/-! ### What is read is legible -/

theorem ofTaken_eq_token {front rest : List Char} {taken : Taken} {t : Token}
    {whole : List Char → Token}
    (h : Lexeme.ofTaken front taken (fun text => .token (whole text)) = (.token t, rest)) :
    taken.whole ∧ t = whole (front ++ taken.text) := by
  unfold Lexeme.ofTaken at h
  cases hwhole : taken.whole <;> simp_all

theorem ofSlash_ne_token (cs : List Char) {t : Token} {rest : List Char} :
    Lexeme.ofSlash cs ≠ (.token t, rest) := by
  fun_cases Lexeme.ofSlash cs with
  | case1 => simp
  | case2 cs =>
    unfold Lexeme.ofTaken
    cases (takeComment cs).whole <;> simp
  | case3 => simp

theorem legible_of_ofMark? {c : Char} {t : Token} (h : Token.ofMark? c = some t) : Legible t := by
  unfold Token.ofMark? at h
  split at h <;> cases h <;> trivial

theorem isString_takeString {cs : List Char} (h : (takeString cs).whole) :
    IsString ('"' :: (takeString cs).text) := by
  refine ⟨_, rfl, ?_⟩
  have := takeString_stop h []
  rwa [List.append_nil] at this

theorem legible_of_first {c : Char} {cs rest : List Char} {t : Token}
    (h : Lexeme.first c cs = (.token t, rest)) : Legible t := by
  unfold Lexeme.first at h
  split at h
  · cases h
  · split at h
    · next hstart =>
      cases h
      have hparts : (cs.takeWhile isIdentPart).all isIdentPart = true := List.all_takeWhile
      simp [Legible, isIdentifier, hstart, hparts]
    · split at h
      · cases h
        have hbody := List.all_eq_true.mp (List.all_takeWhile (l := cs) (p := Char.isAlphanum))
        exact ⟨_, by simp, hbody⟩
      · split at h
        · obtain ⟨hwhole, rfl⟩ := ofTaken_eq_token h
          simpa [Legible] using isString_takeString hwhole
        · split at h
          · exact absurd h (ofSlash_ne_token cs)
          · split at h
            · obtain ⟨hwhole, rfl⟩ := ofTaken_eq_token h
              simpa [Legible] using isNumber_takeNumber hwhole
            · split at h
              · next hmark =>
                cases h
                exact legible_of_ofMark? hmark
              · cases h

theorem legible_of_mem_lexemes {cs : List Char} {t : Token} (h : .token t ∈ lexemes cs) :
    Legible t := by
  fun_induction lexemes cs with
  | case1 => simp at h
  | case2 c cs ih =>
    rcases List.mem_cons.mp h with h | h
    · exact legible_of_first (Prod.ext h.symm rfl)
    · exact ih h

theorem legible_of_mem_lex {source : String} {t : Token} {span : Span}
    (h : ⟨.token t, span⟩ ∈ lex source) : Legible t := by
  have hspoken : .token t ∈ spoken source.toList := by
    rw [← map_value_lex]
    exact List.mem_map_of_mem h
  exact legible_of_mem_lexemes (List.mem_filter.mp hspoken).1

/-! ### What is legible is read -/

/-- The text says these tokens, whatever stands behind it that belongs to none of them. -/
def Spells (cs : List Char) (ts : List Token) : Prop :=
  ∀ rest, Stops isTokenPart rest → spoken (cs ++ rest) = ts.map Lexeme.token ++ spoken rest

/-- An identifier ends in front of a point too. -/
theorem spoken_ident {text : String} (h : isIdentifier text.toList) {rest : List Char}
    (hrest : Stops isIdentPart rest) :
    spoken (text.toList ++ rest) = .token (.ident text) :: spoken rest := by
  cases hcs : text.toList with
  | nil => simp [hcs, isIdentifier] at h
  | cons c cs =>
    obtain ⟨hstart, hparts⟩ : isIdentStart c ∧ ∀ d ∈ cs, isIdentPart d := by
      simpa [hcs, isIdentifier] using h
    have hspacing : ¬ isSpacing c := by
      intro hspacing
      rcases isSpacing_iff.mp hspacing with rfl | rfl | rfl | rfl <;> simp [isIdentStart] at hstart
    rw [List.cons_append]
    refine spoken_of_token ?_
    rw [Lexeme.first, if_neg hspacing, if_pos hstart, takeWhile_stop hparts hrest,
      dropWhile_stop hparts hrest, ← hcs, String.ofList_toList]

theorem spells_ident {text : String} (h : Legible (.ident text)) :
    Spells text.toList [.ident text] :=
  fun _ hrest => spoken_ident h (stops_mono hrest fun _ => isTokenPart_of_isIdentPart)

theorem spells_hexColor {text : String} (h : IsHexColor text.toList) :
    Spells text.toList [.hexColor text] := by
  obtain ⟨body, htext, hbody⟩ := h
  intro rest hrest
  have hstop : Stops Char.isAlphanum rest := stops_mono hrest fun c => isTokenPart_of_isAlphanum
  rw [htext, List.cons_append]
  refine spoken_of_token ?_
  rw [Lexeme.first, if_neg (by decide), if_neg (by decide), if_pos rfl, takeWhile_stop hbody hstop,
    dropWhile_stop hbody hstop, ← htext, String.ofList_toList]

theorem spells_string {text : String} (h : IsString text.toList) :
    Spells text.toList [.string text] := by
  obtain ⟨body, htext, hbody⟩ := h
  intro rest _
  have hwhole : (takeString body).whole := by rw [hbody]
  have hagain := takeString_stop hwhole rest
  rw [hbody] at hagain
  rw [htext, List.cons_append]
  refine spoken_of_token ?_
  rw [Lexeme.first, if_neg (by decide), if_neg (by decide), if_neg (by decide), if_pos rfl, hagain]
  simp [Lexeme.ofTaken, ← htext]

/-- A number begins with a digit or a sign. -/
theorem isNumber_head {cs : List Char} (h : IsNumber cs) :
    ∃ c ds, cs = c :: ds ∧ (c.isDigit ∨ c = '+' ∨ c = '-') := by
  obtain ⟨sign, ds, fraction, exponent, hsign, ⟨hne, hdigits⟩, -, -, rfl⟩ := h
  rcases hsign with rfl | rfl | rfl
  · cases ds with
    | nil => exact absurd rfl hne
    | cons d ds => exact ⟨d, _, rfl, .inl (hdigits d List.mem_cons_self)⟩
  · exact ⟨'+', _, rfl, .inr (.inl rfl)⟩
  · exact ⟨'-', _, rfl, .inr (.inr rfl)⟩

theorem not_isAlpha_of_isDigit {c : Char} (h : c.isDigit) : c.isAlpha = false := by
  simp only [Char.isDigit, Char.isAlpha, Char.isUpper, Char.isLower, Bool.and_eq_true,
    decide_eq_true_eq, ge_iff_le, UInt32.le_iff_toNat_le, Bool.or_eq_false_iff,
    Bool.and_eq_false_iff, decide_eq_false_iff_not] at *
  simp at *
  omega

/-- A character that a number begins with begins nothing else. -/
theorem begins_number_only {c : Char} (h : c.isDigit ∨ c = '+' ∨ c = '-') :
    ¬ isSpacing c ∧ ¬ isIdentStart c ∧ c ≠ '#' ∧ c ≠ '"' ∧ c ≠ '/' := by
  rcases h with hdigit | rfl | rfl
  · have halpha := not_isAlpha_of_isDigit hdigit
    refine ⟨?_, ?_, ?_, ?_, ?_⟩
    · intro hspacing
      rcases isSpacing_iff.mp hspacing with rfl | rfl | rfl | rfl <;> simp at hdigit
    · simp only [isIdentStart, halpha, Bool.false_or, decide_eq_true_eq]
      rintro rfl
      simp at hdigit
    all_goals
      rintro rfl
      simp at hdigit
  · decide
  · decide

theorem spells_number {text : String} (h : IsNumber text.toList) :
    Spells text.toList [.number text] := by
  intro rest hrest
  obtain ⟨c, cs, htext, hc⟩ := isNumber_head h
  obtain ⟨hspacing, hstart, hhash, hquote, hslash⟩ := begins_number_only hc
  have hagain := takeNumber_stop h hrest
  rw [htext, List.cons_append] at hagain ⊢
  refine spoken_of_token ?_
  rw [Lexeme.first, if_neg hspacing, if_neg hstart, if_neg hhash, if_neg hquote, if_neg hslash,
    if_pos (by simpa [or_assoc] using hc), hagain]
  simp [Lexeme.ofTaken, ← htext]

/-- A legible token says itself. -/
theorem spells_of_legible {t : Token} (h : Legible t) : Spells t.text.toList [t] := by
  intro rest hrest
  cases t with
  | ident text => exact spells_ident h rest hrest
  | string text => exact spells_string h rest hrest
  | number text => exact spells_number h rest hrest
  | hexColor text => exact spells_hexColor h rest hrest
  | _ => exact spoken_mark rfl rest

end UiMarkup
