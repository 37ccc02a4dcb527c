import UiMarkup.Proofs.Token.Spelling

/-!
# Patterns of lexemes

The regular expressions of the lexical grammar, read as sets of texts: single
characters, put together by choice, concatenation and repetition. Nothing is
scanned here. Behind the patterns stands what the scanners make of each.
-/

namespace UiMarkup

open scoped Computability

/-! ## Regular sets of texts -/

namespace Pattern

/-- One character of a class. -/
def oneOf (p : Char → Prop) : Language Char := {w | ∃ c, p c ∧ w = [c]}

def word (text : String) : Language Char := {text.toList}

/-- The text may be left out. -/
def option (l : Language Char) : Language Char := 1 + l

def oneOrMore (l : Language Char) : Language Char := l * l∗

/-! ## The patterns -/

/-- `[0-9]+` -/
def digits : Language Char := oneOrMore (oneOf fun c => c.isDigit)

/-- `[+\-]?` -/
def sign : Language Char := option (oneOf fun c => c = '+' ∨ c = '-')

/-- `\.[0-9]+` -/
def fraction : Language Char := oneOf (· = '.') * digits

/-- `[eE][+\-]?[0-9]+` -/
def exponent : Language Char := oneOf (fun c => c = 'e' ∨ c = 'E') * (sign * digits)

/-- `[^"\\]|\\.`, where the point stands for any character but a newline -/
def stringItem : Language Char :=
  oneOf (fun c => c ≠ '"' ∧ c ≠ '\\') + oneOf (· = '\\') * oneOf (· ≠ '\n')

/-- `\*+` -/
def stars : Language Char := oneOrMore (oneOf (· = '*'))

/-- `[^*]|\*+[^*/]` -/
def commentItem : Language Char :=
  oneOf (· ≠ '*') + stars * oneOf fun c => c ≠ '*' ∧ c ≠ '/'

end Pattern

/-- What a lexeme can be. -/
inductive Pattern
  | blanks
  | braceOpen
  | braceClose
  | parenOpen
  | parenClose
  | colon
  | semicolon
  | comma
  | dot
  | identifier
  | string
  | number
  | hexColor
  | lineComment
  | blockComment
deriving DecidableEq, Repr

namespace Pattern

def language : Pattern → Language Char
  /- `[ \t\n\r]+` -/
  | blanks => oneOrMore (oneOf fun c => c = ' ' ∨ c = '\t' ∨ c = '\n' ∨ c = '\r')
  | braceOpen => word "\x7b"
  | braceClose => word "\x7d"
  | parenOpen => word "("
  | parenClose => word ")"
  | colon => word ":"
  | semicolon => word ";"
  | comma => word ","
  | dot => word "."
  /- `[a-zA-Z_][a-zA-Z0-9_\-]*` -/
  | identifier =>
    oneOf (fun c => c.isAlpha ∨ c = '_') * (oneOf fun c => c.isAlphanum ∨ c = '_' ∨ c = '-')∗
  /- `"([^"\\]|\\.)*"` -/
  | string => word "\"" * (stringItem∗ * word "\"")
  /- `[+\-]?[0-9]+(\.[0-9]+)?([eE][+\-]?[0-9]+)?` -/
  | number => sign * (digits * (option fraction * option exponent))
  /- `#[0-9a-zA-Z]*` -/
  | hexColor => word "#" * (oneOf fun c => c.isAlphanum)∗
  /- `//[^\n]*` -/
  | lineComment => word "//" * (oneOf (· ≠ '\n'))∗
  /- `/\*([^*]|\*+[^*/])*\*+/` -/
  | blockComment => word "/*" * (commentItem∗ * (stars * word "/"))

/-- The lexeme that a text of the pattern is. -/
def lexeme : Pattern → List Char → Lexeme
  | blanks, w => .blank w
  | braceOpen, _ => .token .braceOpen
  | braceClose, _ => .token .braceClose
  | parenOpen, _ => .token .parenOpen
  | parenClose, _ => .token .parenClose
  | colon, _ => .token .colon
  | semicolon, _ => .token .semicolon
  | comma, _ => .token .comma
  | dot, _ => .token .dot
  | identifier, w => .token (.ident (String.ofList w))
  | string, w => .token (.string (String.ofList w))
  | number, w => .token (.number (String.ofList w))
  | hexColor, w => .token (.hexColor (String.ofList w))
  | lineComment, w | blockComment, w => .comment w

/-! ## What regular sets hold -/

theorem mem_word {text : String} {w : List Char} : w ∈ word text ↔ w = text.toList := Iff.rfl

theorem mem_option {l : Language Char} {w : List Char} : w ∈ option l ↔ w = [] ∨ w ∈ l := by
  rw [option, Language.mem_add, Language.mem_one]

/-- What holds of the empty text, and of a text with one more in front, holds of repetitions. -/
theorem of_mem_kstar {l : Language Char} {P : List Char → Prop} (nil : P [])
    (append : ∀ w ∈ l, ∀ v, P v → P (w ++ v)) {w : List Char} (h : w ∈ l∗) : P w := by
  obtain ⟨parts, rfl, hparts⟩ := Language.mem_kstar.mp h
  clear h
  induction parts with
  | nil => exact nil
  | cons v parts ih =>
    obtain ⟨hv, hrest⟩ := List.forall_mem_cons.mp hparts
    exact append v hv _ (ih hrest)

theorem append_mem_kstar {l : Language Char} {w v : List Char} (hw : w ∈ l) (hv : v ∈ l∗) :
    w ++ v ∈ l∗ :=
  Set.mem_of_mem_of_subset (Language.append_mem_mul hw hv) (mul_kstar_le_kstar (a := l))

theorem mem_kstar_oneOf {p : Char → Prop} {w : List Char} :
    w ∈ (oneOf p)∗ ↔ ∀ c ∈ w, p c := by
  constructor
  · refine of_mem_kstar (P := fun w => ∀ c ∈ w, p c) (by simp) ?_
    rintro _ ⟨c, hc, rfl⟩ v hv
    exact List.forall_mem_cons.mpr ⟨hc, hv⟩
  · intro h
    induction w with
    | nil => exact Language.nil_mem_kstar _
    | cons c w ih =>
      obtain ⟨hc, hw⟩ := List.forall_mem_cons.mp h
      exact append_mem_kstar (w := [c]) ⟨c, hc, rfl⟩ (ih hw)

theorem mem_oneOf_mul {p : Char → Prop} {l : Language Char} {w : List Char} :
    w ∈ oneOf p * l ↔ ∃ c v, p c ∧ v ∈ l ∧ w = c :: v := by
  constructor
  · rintro ⟨_, ⟨c, hc, rfl⟩, v, hv, rfl⟩
    exact ⟨c, v, hc, hv, rfl⟩
  · rintro ⟨c, v, hc, hv, rfl⟩
    exact ⟨[c], ⟨c, hc, rfl⟩, v, hv, rfl⟩

theorem mem_word_mul {text : String} {l : Language Char} {w : List Char} :
    w ∈ word text * l ↔ ∃ v ∈ l, w = text.toList ++ v := by
  constructor
  · rintro ⟨_, rfl, v, hv, rfl⟩
    exact ⟨v, hv, rfl⟩
  · rintro ⟨v, hv, rfl⟩
    exact ⟨_, rfl, v, hv, rfl⟩

theorem mem_oneOrMore_oneOf {p : Char → Prop} {w : List Char} :
    w ∈ oneOrMore (oneOf p) ↔ w ≠ [] ∧ ∀ c ∈ w, p c := by
  rw [oneOrMore, mem_oneOf_mul]
  simp only [mem_kstar_oneOf]
  constructor
  · rintro ⟨c, v, hc, hv, rfl⟩
    exact ⟨by simp, List.forall_mem_cons.mpr ⟨hc, hv⟩⟩
  · rintro ⟨hne, h⟩
    obtain ⟨c, v, rfl⟩ := List.exists_cons_of_ne_nil hne
    obtain ⟨hc, hv⟩ := List.forall_mem_cons.mp h
    exact ⟨c, v, hc, hv, rfl⟩

/-! ## Strings -/

theorem takeString_cons {c : Char} (hquote : c ≠ '"') (hescape : c ≠ '\\') (cs : List Char) :
    takeString (c :: cs) = (takeString cs).cons c := by
  rw [takeString] <;> simp_all

theorem takeString_escape {c : Char} (h : c ≠ '\n') (cs : List Char) :
    takeString ('\\' :: c :: cs) = ((takeString cs).cons c).cons '\\' := by
  rw [takeString]
  simpa using h

/-- A backslash is met with what stands behind it, never by itself. -/
theorem ne_escape {c : Char} {cs : List Char} (hend : c = '\\' → cs = [] → False)
    (hescape : ∀ d ds, c = '\\' → cs = d :: ds → False) : c ≠ '\\' := by
  intro hc
  cases cs with
  | nil => exact hend hc rfl
  | cons d ds => exact hescape d ds hc rfl

theorem takeString_items {items : List Char} (h : items ∈ stringItem∗) :
    takeString (items ++ ['"']) = ⟨true, items ++ ['"'], []⟩ := by
  refine of_mem_kstar (P := fun items => takeString (items ++ ['"']) = ⟨true, items ++ ['"'], []⟩)
    (by simp [takeString]) ?_ h
  rintro item (⟨c, ⟨hquote, hescape⟩, rfl⟩ | hescaped) items ih
  · rw [List.append_assoc, List.singleton_append, takeString_cons hquote hescape, ih]
    rfl
  · obtain ⟨_, _, rfl, ⟨c, hc, rfl⟩, rfl⟩ := mem_oneOf_mul.mp hescaped
    show takeString ('\\' :: c :: (items ++ ['"'])) = _
    rw [takeString_escape hc, ih]
    rfl

theorem items_takeString {cs : List Char} (h : (takeString cs).whole) :
    ∃ items ∈ stringItem∗, (takeString cs).text = items ++ ['"'] := by
  fun_induction takeString cs with
  | case1 => simp at h
  | case2 cs => exact ⟨[], Language.nil_mem_kstar _, rfl⟩
  | case3 => simp at h
  | case4 => simp at h
  | case5 c cs hnewline ih =>
    obtain ⟨items, hitems, htext⟩ := ih h
    have hitem : ['\\', c] ∈ stringItem :=
      .inr (mem_oneOf_mul.mpr ⟨_, _, rfl, ⟨c, hnewline, rfl⟩, rfl⟩)
    exact ⟨_, append_mem_kstar hitem hitems, by simp [Taken.cons, htext]⟩
  | case6 c cs hquote hend hnewline hescape ih =>
    obtain ⟨items, hitems, htext⟩ := ih h
    have hitem : [c] ∈ stringItem := .inl ⟨c, ⟨hquote, ne_escape hend hescape⟩, rfl⟩
    exact ⟨_, append_mem_kstar hitem hitems, by simp [Taken.cons, htext]⟩

theorem mem_string {w : List Char} : w ∈ string.language ↔ IsString w := by
  constructor
  · intro h
    obtain ⟨_, ⟨items, hitems, _, rfl, rfl⟩, rfl⟩ := mem_word_mul.mp h
    exact ⟨_, rfl, takeString_items hitems⟩
  · rintro ⟨body, rfl, hbody⟩
    obtain ⟨items, hitems, htext⟩ := @items_takeString body (by rw [hbody])
    rw [hbody] at htext
    exact mem_word_mul.mpr ⟨body, ⟨items, hitems, _, rfl, htext.symm⟩, rfl⟩

/-! ## Block comments -/

/-- The text ends with its first closing mark. -/
def Closes (cs : List Char) : Prop := takeComment cs = ⟨true, cs, []⟩

theorem Closes.append {cs : List Char} (h : Closes cs) (rest : List Char) :
    takeComment (cs ++ rest) = ⟨true, cs, rest⟩ := by
  have hstop := @takeComment_stop cs (by rw [h]) rest
  rwa [show (takeComment cs).text = cs by rw [h]] at hstop

theorem closes_mark : Closes ['*', '/'] := rfl

theorem closes_cons {c : Char} {cs : List Char} (h : c = '*' → cs.head? ≠ some '/')
    (hcs : Closes cs) : Closes (c :: cs) := by
  have hcons : takeComment (c :: cs) = (takeComment cs).cons c := by
    rw [takeComment]
    rintro rest rfl rfl
    exact h rfl rfl
  rw [Closes, hcons, hcs]
  rfl

/-- Stars in front do not close the comment before it is closed behind them. -/
theorem closes_stars {row cs : List Char} (hrow : ∀ c ∈ row, c = '*')
    (hhead : cs.head? ≠ some '/') (hcs : Closes cs) : Closes (row ++ cs) := by
  induction row with
  | nil => exact hcs
  | cons c row ih =>
    obtain ⟨-, hrest⟩ := List.forall_mem_cons.mp hrow
    refine closes_cons (fun _ => ?_) (ih hrest)
    cases row with
    | nil => exact hhead
    | cons d row =>
      obtain rfl := hrest d List.mem_cons_self
      simp

theorem mem_stars {w : List Char} : w ∈ stars ↔ w ≠ [] ∧ ∀ c ∈ w, c = '*' :=
  mem_oneOrMore_oneOf

theorem cons_mem_stars {row : List Char} (h : ∀ c ∈ row, c = '*') : '*' :: row ∈ stars :=
  mem_stars.mpr ⟨by simp, List.forall_mem_cons.mpr ⟨rfl, h⟩⟩

/-- What stands behind the opening mark of a block comment. -/
def commentBody : Language Char := commentItem∗ * (stars * word "/")

theorem closes_commentBody {w : List Char} (h : w ∈ commentBody) : Closes w := by
  obtain ⟨items, hitems, _, ⟨row, hrow, _, rfl, rfl⟩, rfl⟩ := h
  obtain ⟨hne, hrow⟩ := mem_stars.mp hrow
  refine of_mem_kstar (P := fun items => Closes (items ++ (row ++ ['/']))) ?_ ?_ hitems
  · -- The last star closes the comment with the slash.
    obtain ⟨front, last, rfl⟩ := (List.eq_nil_or_concat' row).resolve_left hne
    obtain rfl : last = '*' := hrow last (by simp)
    rw [List.nil_append, List.append_assoc]
    exact closes_stars (fun c hc => hrow c (List.mem_append_left _ hc)) (by simp) closes_mark
  · rintro item (⟨c, hc, rfl⟩ | ⟨front, hfront, _, ⟨c, ⟨hstar, hslash⟩, rfl⟩, rfl⟩) items ih
    · exact closes_cons (fun hstar => absurd hstar hc) ih
    · obtain ⟨-, hfront⟩ := mem_stars.mp hfront
      rw [List.append_assoc, List.append_assoc]
      exact closes_stars hfront (by simpa using hslash)
        (closes_cons (fun h => absurd h hstar) ih)

/-- A character in front of the body: a star joins the stars or the item behind it. -/
theorem cons_mem_commentBody {c : Char} {w : List Char} (h : c = '*' → w.head? ≠ some '/')
    (hw : w ∈ commentBody) : c :: w ∈ commentBody := by
  obtain ⟨items, hitems, tail, htail, rfl⟩ := hw
  by_cases hstar : c = '*'
  · subst hstar
    have hhead := h rfl
    obtain ⟨parts, rfl, hparts⟩ := Language.mem_kstar.mp hitems
    cases parts with
    | nil =>
      obtain ⟨front, hfront, slash, hslash, rfl⟩ := htail
      obtain ⟨-, hfront⟩ := mem_stars.mp hfront
      exact ⟨[], Language.nil_mem_kstar _, _, ⟨_, cons_mem_stars hfront, slash, hslash, rfl⟩, rfl⟩
    | cons item parts =>
      obtain ⟨hitem, hrest⟩ := List.forall_mem_cons.mp hparts
      have hlonger : '*' :: item ∈ commentItem := by
        rcases hitem with ⟨d, hd, rfl⟩ | ⟨front, hfront, last, hlast, rfl⟩
        · have hslash : d ≠ '/' := by simpa using hhead
          exact .inr ⟨['*'], cons_mem_stars (by simp), [d], ⟨d, ⟨hd, hslash⟩, rfl⟩, rfl⟩
        · obtain ⟨-, hfront⟩ := mem_stars.mp hfront
          exact .inr ⟨_, cons_mem_stars hfront, last, hlast, rfl⟩
      exact ⟨_, append_mem_kstar hlonger (Language.join_mem_kstar hrest), tail, htail, by simp⟩
  · have hitem : [c] ∈ commentItem := .inl ⟨c, hstar, rfl⟩
    exact ⟨_, append_mem_kstar hitem hitems, tail, htail, rfl⟩

theorem text_takeComment_mem {cs : List Char} (h : (takeComment cs).whole) :
    (takeComment cs).text ∈ commentBody := by
  fun_induction takeComment cs with
  | case1 => simp at h
  | case2 cs =>
    exact ⟨[], Language.nil_mem_kstar _, _, ⟨['*'], cons_mem_stars (by simp), _, rfl, rfl⟩, rfl⟩
  | case3 c cs hend ih =>
    refine cons_mem_commentBody ?_ (ih h)
    rintro rfl hhead
    have htaken := takeComment_append cs
    cases hcs : (takeComment cs).text with
    | nil => simp [hcs] at hhead
    | cons d ds =>
      obtain rfl : d = '/' := by simpa [hcs] using hhead
      rw [hcs] at htaken
      exact hend _ rfl htaken.symm

theorem mem_blockComment {w : List Char} :
    w ∈ blockComment.language ↔ ∃ body, Closes body ∧ w = '/' :: '*' :: body := by
  constructor
  · intro h
    obtain ⟨body, hbody, rfl⟩ := mem_word_mul.mp h
    exact ⟨body, closes_commentBody hbody, rfl⟩
  · rintro ⟨body, hbody, rfl⟩
    have hmem := @text_takeComment_mem body (by rw [hbody])
    rw [hbody] at hmem
    exact mem_word_mul.mpr ⟨body, hmem, rfl⟩

/-! ## The other patterns -/

theorem mem_blanks {w : List Char} :
    w ∈ blanks.language ↔ w ≠ [] ∧ ∀ c ∈ w, isSpacing c := by
  simp only [isSpacing_iff]
  exact mem_oneOrMore_oneOf

theorem mem_identifier {w : List Char} : w ∈ identifier.language ↔ isIdentifier w := by
  rw [language, mem_oneOf_mul]
  simp only [mem_kstar_oneOf]
  cases w with
  | nil => simp [isIdentifier]
  | cons c cs =>
    simp only [isIdentifier, isIdentStart, isIdentPart, Bool.and_eq_true, Bool.or_eq_true,
      decide_eq_true_eq, List.all_eq_true, or_assoc]
    constructor
    · rintro ⟨_, _, hc, hcs, heq⟩
      cases heq
      exact ⟨hc, hcs⟩
    · rintro ⟨hc, hcs⟩
      exact ⟨c, cs, hc, hcs, rfl⟩

theorem mem_hexColor {w : List Char} : w ∈ hexColor.language ↔ IsHexColor w := by
  rw [language, mem_word_mul]
  simp only [mem_kstar_oneOf]
  constructor
  · rintro ⟨body, hbody, rfl⟩
    exact ⟨body, rfl, hbody⟩
  · rintro ⟨body, rfl, hbody⟩
    exact ⟨body, hbody, rfl⟩

theorem mem_lineComment {w : List Char} :
    w ∈ lineComment.language ↔ ∃ body, (∀ c ∈ body, c ≠ '\n') ∧ w = '/' :: '/' :: body := by
  rw [language, mem_word_mul]
  simp only [mem_kstar_oneOf]
  rfl

/-! ### Numbers -/

theorem mem_digits {w : List Char} : w ∈ digits ↔ SomeDigits w := mem_oneOrMore_oneOf

theorem mem_sign {w : List Char} : w ∈ sign ↔ IsSign w := by
  rw [sign, mem_option, IsSign]
  refine or_congr_right ?_
  constructor
  · rintro ⟨c, rfl | rfl, rfl⟩
    · exact .inl rfl
    · exact .inr rfl
  · rintro (rfl | rfl)
    · exact ⟨_, .inl rfl, rfl⟩
    · exact ⟨_, .inr rfl, rfl⟩

theorem mem_option_fraction {w : List Char} : w ∈ option fraction ↔ IsFraction w := by
  rw [mem_option, fraction, mem_oneOf_mul, IsFraction]
  simp only [mem_digits]
  simp

theorem mem_option_exponent {w : List Char} : w ∈ option exponent ↔ IsExponent w := by
  rw [mem_option, exponent, mem_oneOf_mul, IsExponent]
  refine or_congr_right ?_
  constructor
  · rintro ⟨e, _, he, ⟨s, hs, ds, hds, rfl⟩, rfl⟩
    exact ⟨e, s, ds, he, mem_sign.mp hs, mem_digits.mp hds, rfl⟩
  · rintro ⟨e, s, ds, he, hs, hds, rfl⟩
    exact ⟨e, _, he, ⟨s, mem_sign.mpr hs, ds, mem_digits.mpr hds, rfl⟩, rfl⟩

theorem mem_number {w : List Char} : w ∈ number.language ↔ IsNumber w := by
  constructor
  · rintro ⟨s, hs, _, ⟨ds, hds, _, ⟨f, hf, e, he, rfl⟩, rfl⟩, rfl⟩
    exact ⟨s, ds, f, e, mem_sign.mp hs, mem_digits.mp hds, mem_option_fraction.mp hf,
      mem_option_exponent.mp he, rfl⟩
  · rintro ⟨s, ds, f, e, hs, hds, hf, he, rfl⟩
    exact ⟨s, mem_sign.mpr hs, _, ⟨ds, mem_digits.mpr hds, _, ⟨f, mem_option_fraction.mpr hf, e,
      mem_option_exponent.mpr he, rfl⟩, rfl⟩, rfl⟩

/-! ## The pattern of a text -/

def ofMark? : Char → Option Pattern
  | '\x7b' => some braceOpen
  | '\x7d' => some braceClose
  | '(' => some parenOpen
  | ')' => some parenClose
  | ':' => some colon
  | ';' => some semicolon
  | ',' => some comma
  | '.' => some dot
  | _ => none

/-- The pattern that a first character tells. A slash alone tells none. -/
def ofStart? (c : Char) : Option Pattern :=
  if isSpacing c then some blanks
  else if isIdentStart c then some identifier
  else if c = '#' then some hexColor
  else if c = '"' then some string
  else if c.isDigit || c = '+' || c = '-' then some number
  else ofMark? c

/-- The one pattern that a text can match, told by its first characters. -/
def told? : List Char → Option Pattern
  | '/' :: '/' :: _ => some lineComment
  | '/' :: '*' :: _ => some blockComment
  | c :: _ => ofStart? c
  | [] => none

theorem told?_cons {c : Char} (h : c ≠ '/') (cs : List Char) : told? (c :: cs) = ofStart? c := by
  rw [told?] <;> simp_all

/-- Two characters tell as much as a whole text, and one does if it is no slash. -/
theorem told?_front {v : List Char} (hne : v ≠ []) (hslash : v ≠ ['/']) (rest : List Char) :
    told? (v ++ rest) = told? v := by
  rcases v with _ | ⟨c, _ | ⟨d, v⟩⟩
  · exact absurd rfl hne
  · have hc : c ≠ '/' := by simpa using hslash
    rw [List.singleton_append, told?_cons hc, told?_cons hc]
  · by_cases hc : c = '/'
    · subst hc
      by_cases hline : d = '/'
      · subst hline
        rfl
      by_cases hblock : d = '*'
      · subst hblock
        rfl
      rw [List.cons_append, List.cons_append, told?, told?] <;> simp_all
    · rw [List.cons_append, told?_cons hc, told?_cons hc]

/-- A text that matches tells its pattern, whatever stands behind it. -/
theorem told?_append {p : Pattern} {w : List Char} (h : w ∈ p.language) (rest : List Char) :
    told? (w ++ rest) = some p := by
  cases p with
  | blanks =>
    obtain ⟨hne, hw⟩ := mem_blanks.mp h
    obtain ⟨c, w, rfl⟩ := List.exists_cons_of_ne_nil hne
    have hc := hw c List.mem_cons_self
    rw [List.cons_append, told?_cons, ofStart?, if_pos hc]
    rintro rfl
    simp [isSpacing] at hc
  | identifier =>
    have h := mem_identifier.mp h
    cases w with
    | nil => simp [isIdentifier] at h
    | cons c cs =>
      obtain ⟨hstart, -⟩ : isIdentStart c ∧ cs.all isIdentPart := by simpa [isIdentifier] using h
      have hspacing : ¬ isSpacing c := by
        intro hspacing
        rcases isSpacing_iff.mp hspacing with rfl | rfl | rfl | rfl <;>
          simp [isIdentStart] at hstart
      rw [List.cons_append, told?_cons, ofStart?, if_neg hspacing, if_pos hstart]
      rintro rfl
      simp [isIdentStart] at hstart
  | string =>
    obtain ⟨body, rfl, -⟩ := mem_string.mp h
    rfl
  | number =>
    obtain ⟨c, w, rfl, hc⟩ := isNumber_head (mem_number.mp h)
    obtain ⟨hspacing, hstart, hhash, hquote, hslash⟩ := begins_number_only hc
    rw [List.cons_append, told?_cons hslash, ofStart?, if_neg hspacing, if_neg hstart,
      if_neg hhash, if_neg hquote, if_pos (by simpa [or_assoc] using hc)]
  | hexColor =>
    obtain ⟨body, rfl, -⟩ := mem_hexColor.mp h
    rfl
  | lineComment =>
    obtain ⟨body, -, rfl⟩ := mem_lineComment.mp h
    rfl
  | blockComment =>
    obtain ⟨body, -, rfl⟩ := mem_blockComment.mp h
    rfl
  | _ =>
    obtain rfl := mem_word.mp h
    rfl

theorem ne_nil_of_mem_language {p : Pattern} {w : List Char} (h : w ∈ p.language) : w ≠ [] := by
  rintro rfl
  simpa [told?] using told?_append h []

/-- No text matches two patterns. -/
theorem language_disjoint {w : List Char} {p q : Pattern} (hp : w ∈ p.language)
    (hq : w ∈ q.language) : p = q :=
  Option.some.inj ((told?_append hp []).symm.trans (told?_append hq []))

/-- A lexeme keeps the text that matched. -/
theorem text_lexeme {p : Pattern} {w : List Char} (h : w ∈ p.language) :
    (p.lexeme w).text = w := by
  cases p with
  | blanks | lineComment | blockComment => rfl
  | identifier | string | number | hexColor => exact String.toList_ofList
  | _ =>
    obtain rfl := mem_word.mp h
    rfl

end Pattern

end UiMarkup
