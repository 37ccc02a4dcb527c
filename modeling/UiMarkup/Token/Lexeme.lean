import UiMarkup.Token.Basic

/-!
# From characters to tokens

A source falls into lexemes: tokens, blanks, comments, and runs of characters
that begin no token. Each lexeme is the longest that begins where it stands,
and their texts joined give the source back.
-/

namespace UiMarkup

/-! ## Classes of characters -/

/-- The characters that separate tokens. -/
def isSpacing (c : Char) : Bool := c = ' ' || c = '\t' || c = '\n' || c = '\r'

/-- An identifier starts with an ASCII letter or a low line. -/
def isIdentStart (c : Char) : Bool := c.isAlpha || c = '_'

def isIdentPart (c : Char) : Bool := c.isAlphanum || c = '_' || c = '-'

/-- Whether the whole text is one identifier. -/
def isIdentifier : List Char → Bool
  | [] => false
  | c :: cs => isIdentStart c && cs.all isIdentPart

/-! ## Parts of lexemes -/

/-- The front of a text and the rest behind it. `whole` tells whether the
front is finished, or only the beginning of something that never ends. -/
structure Taken where
  whole : Bool
  text : List Char
  rest : List Char
deriving DecidableEq, Repr

def Taken.cons (c : Char) (t : Taken) : Taken := ⟨t.whole, c :: t.text, t.rest⟩

/-- What stands behind the opening quote of a string, through its closing quote.
A backslash takes any character but a newline with it. -/
def takeString : List Char → Taken
  | [] => ⟨false, [], []⟩
  | '"' :: cs => ⟨true, ['"'], cs⟩
  | ['\\'] => ⟨false, ['\\'], []⟩
  | '\\' :: '\n' :: cs => ⟨false, ['\\'], '\n' :: cs⟩
  | '\\' :: c :: cs => ((takeString cs).cons c).cons '\\'
  | c :: cs => (takeString cs).cons c

/-- What stands behind the opening mark of a block comment, through the first closing mark. -/
def takeComment : List Char → Taken
  | [] => ⟨false, [], []⟩
  | '*' :: '/' :: cs => ⟨true, ['*', '/'], cs⟩
  | c :: cs => (takeComment cs).cons c

def takeSign : List Char → List Char × List Char
  | '+' :: cs => (['+'], cs)
  | '-' :: cs => (['-'], cs)
  | cs => ([], cs)

/-- A point and the digits behind it, if there are any. -/
def takeFraction : List Char → List Char × List Char
  | '.' :: cs =>
    match cs.takeWhile Char.isDigit with
    | [] => ([], '.' :: cs)
    | digits => ('.' :: digits, cs.dropWhile Char.isDigit)
  | cs => ([], cs)

/-- An exponent, if it has digits. -/
def takeExponent : List Char → List Char × List Char
  | [] => ([], [])
  | e :: cs =>
    if e = 'e' || e = 'E' then
      match (takeSign cs).2.takeWhile Char.isDigit with
      | [] => ([], e :: cs)
      | digits => (e :: (takeSign cs).1 ++ digits, (takeSign cs).2.dropWhile Char.isDigit)
    else ([], e :: cs)

/-- A number: a sign, digits, a fraction and an exponent, of which only the
digits have to be there. -/
def takeNumber (cs : List Char) : Taken :=
  let sign := takeSign cs
  match sign.2.takeWhile Char.isDigit with
  | [] => ⟨false, sign.1, sign.2⟩
  | digits =>
    let fraction := takeFraction (sign.2.dropWhile Char.isDigit)
    let exponent := takeExponent fraction.2
    ⟨true, sign.1 ++ digits ++ fraction.1 ++ exponent.1, exponent.2⟩

/-! ## Lexemes -/

inductive Lexeme
  | token (token : Token)
  | blank (text : List Char)
  | comment (text : List Char)
  | unrecognized (text : List Char)
deriving DecidableEq, Repr

namespace Lexeme

def text : Lexeme → List Char
  | token t => t.text.toList
  | blank text | comment text | unrecognized text => text

/-- A lexeme of what was taken behind `front`, unrecognized unless it is whole. -/
def ofTaken (front : List Char) (t : Taken) (whole : List Char → Lexeme) : Lexeme × List Char :=
  (if t.whole then whole (front ++ t.text) else unrecognized (front ++ t.text), t.rest)

/-- The lexeme that begins with a slash: a comment, or the slash alone. -/
def ofSlash : List Char → Lexeme × List Char
  | '/' :: cs => (comment ('/' :: '/' :: cs.takeWhile (· ≠ '\n')), cs.dropWhile (· ≠ '\n'))
  | '*' :: cs => ofTaken ['/', '*'] (takeComment cs) comment
  | cs => (unrecognized ['/'], cs)

/-- The lexeme at the front of `c :: cs`, and the characters behind it. -/
def first (c : Char) (cs : List Char) : Lexeme × List Char :=
  if isSpacing c then
    (blank (c :: cs.takeWhile isSpacing), cs.dropWhile isSpacing)
  else if isIdentStart c then
    (token (.ident (String.ofList (c :: cs.takeWhile isIdentPart))), cs.dropWhile isIdentPart)
  else if c = '#' then
    (token (.hexColor (String.ofList ('#' :: cs.takeWhile Char.isAlphanum))),
      cs.dropWhile Char.isAlphanum)
  else if c = '"' then
    ofTaken ['"'] (takeString cs) fun text => token (.string (String.ofList text))
  else if c = '/' then
    ofSlash cs
  else if c.isDigit || c = '+' || c = '-' then
    ofTaken [] (takeNumber (c :: cs)) fun text => token (.number (String.ofList text))
  else match Token.ofMark? c with
    | some mark => (token mark, cs)
    | none => (unrecognized [c], cs)

end Lexeme

/-! ## What is taken and what is left -/

theorem takeString_append (cs : List Char) :
    (takeString cs).text ++ (takeString cs).rest = cs := by
  fun_induction takeString cs <;> simp_all [Taken.cons]

theorem takeComment_append (cs : List Char) :
    (takeComment cs).text ++ (takeComment cs).rest = cs := by
  fun_induction takeComment cs <;> simp_all [Taken.cons]

theorem takeSign_append (cs : List Char) : (takeSign cs).1 ++ (takeSign cs).2 = cs := by
  fun_cases takeSign cs <;> rfl

theorem takeFraction_append (cs : List Char) :
    (takeFraction cs).1 ++ (takeFraction cs).2 = cs := by
  fun_cases takeFraction cs <;> simp

theorem takeExponent_append (cs : List Char) :
    (takeExponent cs).1 ++ (takeExponent cs).2 = cs := by
  fun_cases takeExponent cs with
  | case1 => rfl
  | case2 => rfl
  | case3 e cs =>
    have sign := takeSign_append cs
    simp [List.append_assoc, List.takeWhile_append_dropWhile, sign]
  | case4 => rfl

theorem takeNumber_append (cs : List Char) :
    (takeNumber cs).text ++ (takeNumber cs).rest = cs := by
  have sign := takeSign_append cs
  fun_cases takeNumber cs with
  | case1 => exact sign
  | case2 s f e =>
    simp only [List.append_assoc, e, takeExponent_append, f, takeFraction_append, s,
      List.takeWhile_append_dropWhile, sign]

namespace Lexeme

theorem ofTaken_append (front : List Char) (t : Taken) (whole : List Char → Lexeme)
    (keeps : ∀ text, (whole text).text = text) :
    (ofTaken front t whole).1.text ++ (ofTaken front t whole).2 = front ++ (t.text ++ t.rest) := by
  unfold ofTaken
  cases t.whole
  · exact List.append_assoc ..
  · exact (congrArg (· ++ t.rest) (keeps _)).trans (List.append_assoc ..)

theorem ofSlash_append (cs : List Char) : (ofSlash cs).1.text ++ (ofSlash cs).2 = '/' :: cs := by
  fun_cases ofSlash cs with
  | case1 => simp [text, List.takeWhile_append_dropWhile]
  | case2 cs =>
    rw [ofTaken_append _ _ _ fun _ => rfl, takeComment_append]
    rfl
  | case3 => rfl

theorem ofMark?_text {c : Char} {t : Token} (h : Token.ofMark? c = some t) :
    t.text.toList = [c] := by
  unfold Token.ofMark? at h
  split at h <;> simp at h <;> subst h <;> rfl

/-- No character is lost or added. -/
theorem first_append (c : Char) (cs : List Char) :
    (first c cs).1.text ++ (first c cs).2 = c :: cs := by
  unfold first
  split
  · simp [text, List.takeWhile_append_dropWhile]
  · split
    · simp [text, Token.text, List.takeWhile_append_dropWhile]
    · split
      · simp_all [text, Token.text, List.takeWhile_append_dropWhile]
      · split
        · rw [ofTaken_append _ _ _ fun _ => by simp [text, Token.text], takeString_append]
          simp_all
        · split
          · simp_all [ofSlash_append]
          · split
            · rw [ofTaken_append _ _ _ fun _ => by simp [text, Token.text], takeNumber_append]
              rfl
            · split
              next h => simp [text, ofMark?_text h]
              next => rfl

theorem ofTaken_text_ne_nil {front : List Char} {t : Taken} {whole : List Char → Lexeme}
    (keeps : ∀ text, (whole text).text = text) (h : front ++ t.text ≠ []) :
    (ofTaken front t whole).1.text ≠ [] := by
  unfold ofTaken
  cases t.whole
  · exact h
  · exact fun empty => h ((keeps _).symm.trans empty)

theorem takeNumber_text_ne_nil {c : Char} (cs : List Char)
    (h : c.isDigit || c = '+' || c = '-') : (takeNumber (c :: cs)).text ≠ [] := by
  fun_cases takeNumber (c :: cs) with
  | case1 s none =>
    simp only [Bool.or_eq_true, decide_eq_true_eq] at h
    rcases h with (digit | rfl) | rfl
    · have : takeSign (c :: cs) = ([], c :: cs) := by
        unfold takeSign
        split <;> simp_all
      simp [s, this, digit] at none
    · simp [s, takeSign]
    · simp [s, takeSign]
  | case2 s f e some => simp_all

/-- Every lexeme has at least one character. -/
theorem first_text_ne_nil (c : Char) (cs : List Char) : (first c cs).1.text ≠ [] := by
  unfold first
  split
  · simp [text]
  · split
    · simp [text, Token.text]
    · split
      · simp [text, Token.text]
      · split
        · exact ofTaken_text_ne_nil (fun _ => by simp [text, Token.text]) (by simp)
        · split
          · fun_cases ofSlash cs with
            | case1 => simp [text]
            | case2 => exact ofTaken_text_ne_nil (fun _ => rfl) (by simp)
            | case3 => simp [text]
          · split
            next h =>
              exact ofTaken_text_ne_nil (fun _ => by simp [text, Token.text])
                (takeNumber_text_ne_nil cs h)
            next =>
              split
              next h => simp [text, ofMark?_text h]
              next => simp [text]

theorem length_first_lt (c : Char) (cs : List Char) :
    (first c cs).2.length < (c :: cs).length := by
  have whole := congrArg List.length (first_append c cs)
  have some := List.length_pos_iff.2 (first_text_ne_nil c cs)
  rw [List.length_append] at whole
  omega

end Lexeme

/-! ## A whole source -/

/-- The lexemes of a source, from its start to its end. -/
def lexemes : List Char → List Lexeme
  | [] => []
  | c :: cs => (Lexeme.first c cs).1 :: lexemes (Lexeme.first c cs).2
termination_by source => source.length
decreasing_by exact Lexeme.length_first_lt c cs

/-- Puts lexemes one behind the other, the first one at the byte `offset`. -/
def placeFrom (offset : Nat) : List Lexeme → List (Placed Lexeme)
  | [] => []
  | l :: ls =>
    ⟨l, ⟨offset, offset + byteLength l.text⟩⟩ :: placeFrom (offset + byteLength l.text) ls

/-- Blanks and comments mean nothing. -/
def Lexeme.isSkipped : Lexeme → Bool
  | .blank _ | .comment _ => true
  | .token _ | .unrecognized _ => false

/-- What a source says: its lexemes without blanks and comments, each in its place. -/
def lex (source : String) : List (Placed Lexeme) :=
  (placeFrom 0 (lexemes source.toList)).filter (!·.value.isSkipped)

end UiMarkup
