import UiMarkup.Proofs.Token.Slices
import UiMarkup.Proofs.Value.Numbers
import UiMarkup.Proofs.Value.Written

/-!
# Literals and tokens

Which texts are one identifier, one number or one string is decided once by the
patterns of the tokens, and once more by the types that read the texts. Both
decide alike.
-/

namespace UiMarkup

open scoped Computability

open Literal (readString unescape unquote?)
open LiteralError (Reason)

/-! ## One token -/

/-- A source is one token of a kind, from its first byte to its last. -/
def IsToken (kind : String → Token) (source : String) : Prop :=
  ∃ text, lex source = [⟨.token (kind text), ⟨0, byteLength source.toList⟩⟩]

section

variable {source : String}

theorem isToken_ident : IsToken .ident source ↔ isIdentifier source.toList := by
  simp only [IsToken, lex_eq_token_iff, Token.text, exists_eq_left, Legible]

theorem isToken_number : IsToken .number source ↔ IsNumber source.toList := by
  simp only [IsToken, lex_eq_token_iff, Token.text, exists_eq_left, Legible]

theorem isToken_string : IsToken .string source ↔ IsString source.toList := by
  simp only [IsToken, lex_eq_token_iff, Token.text, exists_eq_left, Legible]

end

/-! ## Strings -/

/-- The characters that a backslash may stand in front of. -/
def IsEscape (c : Char) : Prop := c = '"' ∨ c = '\\' ∨ c = 'n' ∨ c = 't'

/-- Behind whole items of a string stands a backslash in front of some other character. -/
def HasUnknownEscape (cs : List Char) : Prop :=
  ∃ front ∈ Pattern.stringItem∗, ∃ c back, ¬ IsEscape c ∧ cs = front ++ '\\' :: c :: back

theorem HasUnknownEscape.append {item cs : List Char} (hitem : item ∈ Pattern.stringItem)
    (h : HasUnknownEscape cs) : HasUnknownEscape (item ++ cs) := by
  obtain ⟨front, hfront, c, back, hc, rfl⟩ := h
  exact ⟨item ++ front, Pattern.append_mem_kstar hitem hfront, c, back, hc, by simp⟩

namespace Literal

theorem unescape_plain {c : Char} (hquote : c ≠ '"') (hescape : c ≠ '\\') (cs : List Char) :
    unescape (c :: cs) = (unescape cs).map (c :: ·) := by
  rw [unescape] <;> simp_all

theorem unescape_known {c : Char} (h : IsEscape c) :
    ∃ d, ∀ cs, unescape ('\\' :: c :: cs) = (unescape cs).map (d :: ·) := by
  rcases h with rfl | rfl | rfl | rfl
  · exact ⟨'"', fun cs => by rw [unescape]⟩
  · exact ⟨'\\', fun cs => by rw [unescape]⟩
  · exact ⟨'\n', fun cs => by rw [unescape]⟩
  · exact ⟨'\t', fun cs => by rw [unescape]⟩

theorem unescape_unknown {c : Char} (h : ¬ IsEscape c) (cs : List Char) :
    unescape ('\\' :: c :: cs) = .error .unknownEscape := by
  simp only [IsEscape, not_or] at h
  rw [unescape] <;> simp_all

/-- An item of a string stands for one character, unless it is an unknown escape. -/
theorem unescape_item {item : List Char} (h : item ∈ Pattern.stringItem) :
    (∃ d, ∀ cs, unescape (item ++ cs) = (unescape cs).map (d :: ·)) ∨
      ∃ c, ¬ IsEscape c ∧ item = ['\\', c] := by
  rcases h with ⟨c, ⟨hquote, hescape⟩, rfl⟩ | h
  · exact .inl ⟨c, unescape_plain hquote hescape⟩
  · obtain ⟨_, _, rfl, ⟨c, -, rfl⟩, rfl⟩ := Pattern.mem_oneOf_mul.mp h
    by_cases hc : IsEscape c
    · exact .inl (unescape_known hc)
    · exact .inr ⟨c, hc, rfl⟩

theorem unescape_of_unknown {cs : List Char} (h : HasUnknownEscape cs) :
    unescape cs = .error .unknownEscape := by
  obtain ⟨front, hfront, c, back, hc, rfl⟩ := h
  refine Pattern.of_mem_kstar
    (P := fun front => unescape (front ++ '\\' :: c :: back) = .error .unknownEscape)
    (unescape_unknown hc back) ?_ hfront
  intro item hitem front ih
  rw [List.append_assoc]
  rcases unescape_item hitem with ⟨d, hd⟩ | ⟨c', hc', rfl⟩
  · rw [hd, ih]
    rfl
  · exact unescape_unknown hc' _

/-- Nothing else can be wrong with the items of a string. -/
theorem unknown_of_unescape {items : List Char} (h : items ∈ Pattern.stringItem∗) {r : Reason}
    (herror : unescape items = .error r) : HasUnknownEscape items := by
  revert herror
  refine Pattern.of_mem_kstar
    (P := fun items => unescape items = .error r → HasUnknownEscape items) ?_ ?_ h
  · intro hnone
    simp [unescape] at hnone
  · intro item hitem items ih herror
    rcases unescape_item hitem with ⟨d, hd⟩ | ⟨c, hc, rfl⟩
    · rw [hd, map_eq_error_iff] at herror
      exact (ih herror).append hitem
    · exact ⟨[], Language.nil_mem_kstar _, c, items, hc, rfl⟩

theorem items_of_unescape {cs text : List Char} (h : unescape cs = .ok text) :
    cs ∈ Pattern.stringItem∗ := by
  have hescaped {c : Char} (hc : c ≠ '\n') {cs : List Char} (hcs : cs ∈ Pattern.stringItem∗) :
      '\\' :: c :: cs ∈ Pattern.stringItem∗ :=
    Pattern.append_mem_kstar (.inr (Pattern.mem_oneOf_mul.mpr ⟨_, _, rfl, ⟨c, hc, rfl⟩, rfl⟩)) hcs
  fun_induction unescape cs generalizing text with
  | case1 => exact Language.nil_mem_kstar _
  | case2 cs ih | case3 cs ih | case4 cs ih | case5 cs ih =>
    obtain ⟨_, hcs, -⟩ := map_eq_ok_iff.mp h
    exact hescaped (by decide) (ih hcs)
  | case6 => cases h
  | case7 => cases h
  | case8 c cs _ _ _ _ hescape hquote ih =>
    obtain ⟨_, hcs, -⟩ := map_eq_ok_iff.mp h
    exact Pattern.append_mem_kstar (.inl ⟨c, ⟨hquote, hescape⟩, rfl⟩) (ih hcs)

theorem dropLast_eq_some_iff {last : Char} {cs inner : List Char} :
    (if cs.getLast? = some last then some cs.dropLast else none) = some inner ↔
      cs = inner ++ [last] := by
  constructor
  · intro h
    split at h
    next hlast =>
      cases h
      rw [List.dropLast_append_getLast? _ hlast]
    next => cases h
  · rintro rfl
    simp

theorem unquote?_eq_some_iff {cs inner : List Char} :
    unquote? cs = some inner ↔ cs = '"' :: (inner ++ ['"']) := by
  unfold unquote?
  split
  next cs => rw [dropLast_eq_some_iff, List.cons.injEq, and_iff_right rfl]
  next hplain =>
    refine iff_of_false (by simp) ?_
    rintro rfl
    exact hplain _ rfl

theorem isString_iff {cs : List Char} :
    IsString cs ↔ ∃ inner ∈ Pattern.stringItem∗, cs = '"' :: (inner ++ ['"']) := by
  rw [← Pattern.mem_string]
  constructor
  · intro h
    obtain ⟨_, ⟨inner, hinner, _, rfl, rfl⟩, rfl⟩ := Pattern.mem_word_mul.mp h
    exact ⟨inner, hinner, rfl⟩
  · rintro ⟨inner, hinner, rfl⟩
    exact Pattern.mem_word_mul.mpr ⟨_, ⟨inner, hinner, _, rfl, rfl⟩, rfl⟩

theorem isString_of_readString {cs : List Char} {text : String} (h : readString cs = .ok text) :
    IsString cs := by
  unfold readString at h
  split at h
  · cases h
  next inner hquotes =>
    obtain ⟨_, hinner, -⟩ := map_eq_ok_iff.mp h
    exact isString_iff.mpr ⟨inner, items_of_unescape hinner, unquote?_eq_some_iff.mp hquotes⟩

/-- What is spelled as a string can only have an unknown escape in it. -/
theorem readString_eq_error_iff {cs : List Char} (h : IsString cs) {r : Reason} :
    readString cs = .error r ↔
      r = .unknownEscape ∧ ∃ inner, cs = '"' :: (inner ++ ['"']) ∧ HasUnknownEscape inner := by
  obtain ⟨items, hitems, rfl⟩ := isString_iff.mp h
  rw [readString, unquote?_eq_some_iff.mpr rfl]
  simp only [map_eq_error_iff]
  constructor
  · intro herror
    have hunknown := unknown_of_unescape hitems herror
    rw [unescape_of_unknown hunknown] at herror
    exact ⟨(Except.error.inj herror).symm, items, rfl, hunknown⟩
  · rintro ⟨rfl, inner, hinner, hunknown⟩
    obtain rfl : items = inner := by simpa using hinner
    exact unescape_of_unknown hunknown

end Literal

/-! ## Types and tokens -/

namespace AttributeType

theorem parse_integer_eq_ok_iff {raw : String} {v : Value} :
    integer.parse raw = .ok v ↔
      ∃ i : Int64, v = .integer i ∧ WritesInteger raw.toList i.toInt := by
  rw [parse, mapError_eq_ok_iff, read, map_eq_ok_iff]
  exact exists_congr fun i => and_comm.trans (and_congr eq_comm readInteger_eq_ok_iff)

theorem parse_float_eq_ok_iff {raw : String} {v : Value} :
    float.parse raw = .ok v ↔
      ∃ x, v = .float x ∧ x.isFinite ∧
        ∃ q, WritesFloat raw.toList x.negative q ∧ Binary64.IsNearest q x.count := by
  rw [parse, mapError_eq_ok_iff, read, map_eq_ok_iff]
  exact exists_congr fun x => and_comm.trans (and_congr eq_comm readFloat_eq_ok_iff)

theorem parse_integer_range {raw : String} :
    (∃ v, integer.parse raw = .ok v) ↔
      ∃ i, WritesInteger raw.toList i ∧ -2 ^ 63 ≤ i ∧ i ≤ 2 ^ 63 - 1 := by
  rw [← reads_integer_iff]
  simp [parse, read, mapError_eq_ok_iff, map_eq_ok_iff]

theorem parse_string_eq_error_iff {raw : String} (h : IsToken .string raw) {e : LiteralError} :
    string.parse raw = .error e ↔
      e = ⟨raw, .string, .unknownEscape⟩ ∧
        ∃ inner, raw.toList = '"' :: (inner ++ ['"']) ∧ HasUnknownEscape inner := by
  simp only [parse, read, mapError_eq_error_iff, map_eq_error_iff,
    Literal.readString_eq_error_iff (isToken_string.mp h)]
  constructor
  · rintro ⟨_, ⟨rfl, hunknown⟩, rfl⟩
    exact ⟨rfl, hunknown⟩
  · rintro ⟨rfl, hunknown⟩
    exact ⟨_, ⟨rfl, hunknown⟩, rfl⟩

/-- A text is one identifier just when it is the name of an event, one number just
when it has the shape of an integer or that of a float, and one string whenever it
reads as a string. A number fails only out of range, a string only at an escape. -/
theorem tokens_agree_with_types (text : String) :
    ((IsToken .ident text ↔ isIdentifier text.toList) ∧
      (IsToken .ident text → event.parse text = .ok (.event text))) ∧
    ((IsToken .number text ↔
        (∃ i, WritesInteger text.toList i) ∨ ∃ negative q, WritesFloat text.toList negative q) ∧
      ¬ ((∃ i, WritesInteger text.toList i) ∧ ∃ negative q, WritesFloat text.toList negative q) ∧
      ((∃ v, integer.parse text = .ok v) ↔
        ∃ i, WritesInteger text.toList i ∧ -2 ^ 63 ≤ i ∧ i ≤ 2 ^ 63 - 1) ∧
      (∀ v, integer.parse text = .ok v ↔
        ∃ i : Int64, v = .integer i ∧ WritesInteger text.toList i.toInt) ∧
      (∀ v, float.parse text = .ok v ↔
        ∃ x, v = .float x ∧ x.isFinite ∧
          ∃ q, WritesFloat text.toList x.negative q ∧ Binary64.IsNearest q x.count)) ∧
    ((∀ v, string.parse text = .ok v → IsToken .string text) ∧
      (IsToken .string text → ∀ e, string.parse text = .error e ↔
        e = ⟨text, .string, .unknownEscape⟩ ∧
          ∃ inner, text.toList = '"' :: (inner ++ ['"']) ∧ HasUnknownEscape inner)) := by
  refine ⟨⟨isToken_ident, fun h => ?_⟩, ⟨isToken_number.trans isNumber_iff, ?_,
    parse_integer_range, fun _ => parse_integer_eq_ok_iff, fun _ => parse_float_eq_ok_iff⟩,
    fun v h => ?_, fun h _ => parse_string_eq_error_iff h⟩
  · rw [parse, read, Literal.readEvent_identifier (isToken_ident.mp h), String.ofList_toList]
    rfl
  · rintro ⟨⟨_, hinteger⟩, _, _, hfloat⟩
    exact not_writesInteger_of_writesFloat hfloat hinteger
  · rw [parse, mapError_eq_ok_iff, read, map_eq_ok_iff] at h
    obtain ⟨_, hread, -⟩ := h
    exact isToken_string.mpr (Literal.isString_of_readString hread)

theorem tokens_agree_with_types_samples :
    (isIdentifier "start-game".toList ∧ event.parse "start-game" = .ok (.event "start-game")) ∧
    (string.parse "\"a\\tb\"" = .ok (.string "a\tb") ∧ IsToken .string "\"a\\tb\"") ∧
    (IsToken .string "\"a\\q\"" ∧
      string.parse "\"a\\q\"" = .error ⟨"\"a\\q\"", .string, .unknownEscape⟩ ∧
      ∃ inner, "\"a\\q\"".toList = '"' :: (inner ++ ['"']) ∧ HasUnknownEscape inner) := by
  have hidentifier : isIdentifier "start-game".toList := by decide
  have hread : string.parse "\"a\\tb\"" = .ok (.string "a\tb") := by decide
  have hstring : IsToken .string "\"a\\q\"" := isToken_string.mpr ⟨"a\\q\"".toList, rfl, by decide⟩
  have herror : string.parse "\"a\\q\"" = .error ⟨"\"a\\q\"", .string, .unknownEscape⟩ := by decide
  refine ⟨⟨hidentifier, ?_⟩, ⟨hread, ?_⟩, hstring, herror, ?_⟩
  · have hident := (tokens_agree_with_types "start-game").1
    exact hident.2 (hident.1.mpr hidentifier)
  · exact (tokens_agree_with_types _).2.2.1 _ hread
  · exact (((tokens_agree_with_types _).2.2.2 hstring _).mp herror).2

end AttributeType

end UiMarkup
