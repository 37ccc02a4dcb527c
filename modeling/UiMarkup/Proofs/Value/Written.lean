import UiMarkup.Proofs.Value.Numerals

/-!
# A literal reads back as its value

The literal of a value is one token, and the type of the value reads it as that
value. This holds of all values but those that no literal gives: floats that are
not finite, and events that are no identifiers.
-/

namespace UiMarkup

/-! ## Strings -/

namespace Literal

open Written (escapeChar quoted)

theorem unescape_escapeChar (c : Char) (cs : List Char) :
    unescape (escapeChar c ++ cs) = (unescape cs).map (c :: ·) := by
  fun_cases escapeChar c with
  | case1 | case2 | case3 | case4 =>
    rw [List.cons_append, List.cons_append, unescape, List.nil_append]
  | case5 c hquote hescape =>
    rw [List.singleton_append, unescape]
    all_goals
      intros
      simp_all

theorem unescape_escaped (cs : List Char) : unescape (cs.flatMap escapeChar) = .ok cs := by
  induction cs with
  | nil => rfl
  | cons c cs ih =>
    rw [List.flatMap_cons, unescape_escapeChar, ih]
    rfl

theorem unquote?_quoted (cs : List Char) : unquote? (quoted cs) = some (cs.flatMap escapeChar) := by
  simp [unquote?, quoted]

theorem readString_quoted (cs : List Char) : readString (quoted cs) = .ok (String.ofList cs) := by
  rw [readString, unquote?_quoted]
  simp only [unescape_escaped]
  rfl

theorem takeString_escapeChar (c : Char) (cs : List Char) :
    takeString (escapeChar c ++ cs) =
      ⟨(takeString cs).whole, escapeChar c ++ (takeString cs).text, (takeString cs).rest⟩ := by
  fun_cases escapeChar c with
  | case1 | case2 | case3 | case4 => simp [takeString, Taken.cons]
  | case5 c hquote hescape =>
    rw [List.singleton_append, takeString]
    · rfl
    all_goals
      intros
      simp_all

theorem takeString_escaped (cs : List Char) :
    takeString (cs.flatMap escapeChar ++ ['"']) = ⟨true, cs.flatMap escapeChar ++ ['"'], []⟩ := by
  induction cs with
  | nil => simp [takeString]
  | cons c cs ih => rw [List.flatMap_cons, List.append_assoc, takeString_escapeChar, ih]

theorem isString_quoted (cs : List Char) : IsString (quoted cs) :=
  ⟨_, rfl, takeString_escaped cs⟩

/-! ## Colors -/

open Written (hexDigit hexChannel hexColor)

theorem digitIn?_hexDigit : ∀ n < 16, digitIn? 16 (hexDigit n) = some n := by decide

theorem hexDigit_plain : ∀ n < 16, (hexDigit n).isAlphanum ∧ isBlank (hexDigit n) = false := by
  decide

theorem mapM_hexChannel (n : UInt8) (cs : List Char) :
    (hexChannel n ++ cs).mapM (digitIn? 16) =
      (cs.mapM (digitIn? 16)).map fun digits => n.toNat / 16 :: n.toNat % 16 :: digits := by
  have hhigh : n.toNat / 16 < 16 := by
    have := n.toNat_lt
    omega
  have hlow : n.toNat % 16 < 16 := Nat.mod_lt _ (by decide)
  simp only [hexChannel, List.cons_append, List.nil_append, List.mapM_cons,
    digitIn?_hexDigit _ hhigh, digitIn?_hexDigit _ hlow]
  cases cs.mapM (digitIn? 16) <;> rfl

theorem channel_digits (n : UInt8) : UInt8.ofNat (16 * (n.toNat / 16) + n.toNat % 16) = n := by
  rw [Nat.div_add_mod, UInt8.ofNat_toNat]

theorem plain_hexColor (c : Color) :
    ∃ body, hexColor c = '#' :: body ∧ ∀ d ∈ body, d.isAlphanum ∧ isBlank d = false := by
  have hchannel (n : UInt8) : ∀ d ∈ hexChannel n, d.isAlphanum ∧ isBlank d = false := by
    intro d hd
    have := n.toNat_lt
    rcases (by simpa [hexChannel] using hd : _ ∨ _) with rfl | rfl
    · exact hexDigit_plain _ (by omega)
    · exact hexDigit_plain _ (by omega)
  refine ⟨_, rfl, ?_⟩
  simp only [List.forall_mem_append]
  refine ⟨⟨⟨hchannel _, hchannel _⟩, hchannel _⟩, ?_⟩
  split
  · simp
  · exact hchannel _

theorem isHexColor_hexColor (c : Color) : IsHexColor (hexColor c) := by
  obtain ⟨body, hbody, hplain⟩ := plain_hexColor c
  exact ⟨body, hbody, fun d hd => (hplain d hd).1⟩

theorem dropWhile_plain {cs : List Char} (h : ∀ c ∈ cs, isBlank c = false) :
    cs.dropWhile isBlank = cs := by
  cases cs with
  | nil => rfl
  | cons c cs => simp [h c List.mem_cons_self]

theorem trimBlank_plain {cs : List Char} (h : ∀ c ∈ cs, isBlank c = false) : trimBlank cs = cs := by
  rw [trimBlank, dropWhile_plain h, dropBlankEnd, dropWhile_plain, List.reverse_reverse]
  exact fun c hc => h c (List.mem_reverse.mp hc)

theorem readHexColor_hexColor {c : Color} {body : List Char} (h : hexColor c = '#' :: body) :
    readHexColor body = .ok c := by
  obtain ⟨r, g, b, a⟩ := c
  obtain rfl := (List.cons.inj h).2
  simp only [readHexColor, List.append_assoc, mapM_hexChannel]
  by_cases halpha : a = 255
  · subst halpha
    simp only [if_true, List.mapM_nil, Option.pure_def, Option.map_some, ofHexDigits,
      channel_digits]
    rfl
  · have htail : (hexChannel a).mapM (digitIn? 16) = some [a.toNat / 16, a.toNat % 16] := by
      simpa using mapM_hexChannel a []
    simp only [if_neg halpha, htail, Option.map_some, ofHexDigits, channel_digits]

theorem readColor_hexColor (c : Color) : readColor (hexColor c) = .ok c := by
  obtain ⟨body, hbody, hplain⟩ := plain_hexColor c
  have hblank : ∀ d ∈ hexColor c, isBlank d = false := by
    rw [hbody]
    exact List.forall_mem_cons.mpr ⟨by decide, fun d hd => (hplain d hd).2⟩
  have hunquoted : unquoted (hexColor c) = hexColor c := by simp [hbody, unquoted, unquote?]
  rw [readColor, hunquoted, trimBlank_plain hblank, hbody]
  exact readHexColor_hexColor hbody

/-! ## Events -/

theorem unquoted_identifier {cs : List Char} (h : isIdentifier cs) : unquoted cs = cs := by
  unfold unquoted unquote?
  split
  · simp [isIdentifier, isIdentStart] at h
  · rfl

theorem readEvent_identifier {cs : List Char} (h : isIdentifier cs) :
    readEvent cs = .ok (String.ofList cs) := by
  rw [readEvent, unquoted_identifier h, if_pos h]

theorem isIdentifier_of_readEvent {cs : List Char} {handler : String}
    (h : readEvent cs = .ok handler) : isIdentifier handler.toList := by
  unfold readEvent at h
  split at h
  next hidentifier =>
    cases h
    rwa [String.toList_ofList]
  next => cases h

/-! ## Floats -/

theorem isFinite_of_readFloat {cs : List Char} {x : Binary64} (h : readFloat cs = .ok x) :
    x.isFinite := by
  simp only [readFloat] at h
  split at h
  · cases h
  · split at h
    · cases h
    · split at h
      next hfinite =>
        cases h
        exact hfinite
      next => cases h

end Literal

/-! ## Values -/

namespace Value

/-- The values that some literal gives. -/
def Readable : Value → Prop
  | .float x => x.isFinite
  | .event handler => isIdentifier handler.toList
  | _ => True

theorem readable_of_read {type : AttributeType} {cs : List Char} {v : Value}
    (h : type.read cs = .ok v) : v.Readable := by
  cases type with
  | string | color | integer =>
    obtain ⟨_, -, rfl⟩ := map_eq_ok_iff.mp h
    trivial
  | float =>
    obtain ⟨x, hx, rfl⟩ := map_eq_ok_iff.mp h
    exact Literal.isFinite_of_readFloat hx
  | event =>
    obtain ⟨handler, hhandler, rfl⟩ := map_eq_ok_iff.mp h
    exact Literal.isIdentifier_of_readEvent hhandler

theorem read_written {v : Value} (h : v.Readable) : v.type.read v.written = .ok v := by
  cases v with
  | string text =>
    refine map_eq_ok_iff.mpr ⟨_, Literal.readString_quoted text.toList, ?_⟩
    rw [String.ofList_toList]
  | color c => exact map_eq_ok_iff.mpr ⟨_, Literal.readColor_hexColor c, rfl⟩
  | integer i => exact map_eq_ok_iff.mpr ⟨_, Literal.readInteger_integer i, rfl⟩
  | float x => exact map_eq_ok_iff.mpr ⟨_, Literal.readFloat_float h, rfl⟩
  | event handler =>
    refine map_eq_ok_iff.mpr ⟨_, Literal.readEvent_identifier h, ?_⟩
    rw [written, String.ofList_toList]

theorem parse_literal {v : Value} (h : v.Readable) : v.type.parse v.literal = .ok v := by
  rw [AttributeType.parse, mapError_eq_ok_iff, literal, String.toList_ofList]
  exact read_written h

/-- What any literal reads as is written back as a literal of the same type and
value. The values written so are all strings, colors and integers, the finite
floats, and the events that are identifiers. -/
theorem literals_round_trip (v : Value) :
    (∀ type raw, AttributeType.parse type raw = .ok v →
      v.type = type ∧ type.parse v.literal = .ok v) ∧
    (v.type.parse v.literal = .ok v ↔ v.Readable) := by
  have hreadable {type : AttributeType} {raw : String} (h : type.parse raw = .ok v) :
      v.Readable := readable_of_read (mapError_eq_ok_iff.mp h)
  refine ⟨fun type raw h => ?_, hreadable, parse_literal⟩
  obtain rfl := AttributeType.type_of_parse h
  exact ⟨rfl, parse_literal (hreadable h)⟩

theorem literals_round_trip_tuple :
    AttributeType.color.parse "(10, 20, 30, 0.5)" = .ok (.color ⟨10, 20, 30, 128⟩) ∧
      (Value.color ⟨10, 20, 30, 128⟩).literal = "#0A141E80" ∧
      AttributeType.color.parse (Value.color ⟨10, 20, 30, 128⟩).literal =
        .ok (.color ⟨10, 20, 30, 128⟩) := by
  have hread : AttributeType.color.parse "(10, 20, 30, 0.5)" = .ok (.color ⟨10, 20, 30, 128⟩) := by
    decide +kernel
  exact ⟨hread, by decide, ((literals_round_trip _).1 .color _ hread).2⟩

/-- The token that the literal of a value is. -/
def token (v : Value) : Token :=
  match v with
  | .string _ => .string v.literal
  | .color _ => .hexColor v.literal
  | .integer _ | .float _ => .number v.literal
  | .event _ => .ident v.literal

theorem scalar?_token (v : Value) : v.token.scalar? = some v.literal := by
  cases v <;> rfl

theorem legible_token {v : Value} (h : v.Readable) : Legible v.token := by
  cases v <;> simp only [token, Legible, literal, String.toList_ofList]
  case string text => exact Literal.isString_quoted text.toList
  case color c => exact Literal.isHexColor_hexColor c
  case integer i => exact Literal.isNumber_integer i.toInt
  case float x => exact Literal.isNumber_float h
  case event handler => exact h

end Value

end UiMarkup
