import UiMarkup.Proofs.Value.Colors

/-!
# Colors in either case

A letter is read like its other case wherever a color is read: as a digit in base
16, as the mark of an exponent and in a name. Everything else has no other case. So
a text and the same text in small letters are read alike, step by step.
-/

namespace UiMarkup

open Literal

/-! ## Characters -/

/-- What is the same for each of the 26 capital letters and its small one is the same for all
characters, because no other character changes. -/
theorem apply_toLower {α : Type} {f : Char → α}
    (h : ∀ n < 26, f (Char.ofNat (n + 65)).toLower = f (Char.ofNat (n + 65))) (c : Char) :
    f c.toLower = f c := by
  by_cases hcapital : c.val ≥ 'A'.val ∧ c.val ≤ 'Z'.val
  · have hlow : 65 ≤ c.toNat := hcapital.1
    have hhigh : c.toNat ≤ 90 := hcapital.2
    have hletter := h (c.toNat - 65) (by omega)
    rwa [Nat.sub_add_cancel hlow, Char.ofNat_toNat] at hletter
  · rw [Char.toLower, dif_neg hcapital]

theorem isBlank_toLower (c : Char) : isBlank c.toLower = isBlank c :=
  apply_toLower (by decide) c

theorem isDigit_toLower (c : Char) : c.toLower.isDigit = c.isDigit :=
  apply_toLower (by decide) c

theorem digitIn?_toLower (c : Char) : digitIn? 16 c.toLower = digitIn? 16 c :=
  apply_toLower (by decide) c

/-- What is no letter comes from itself only. -/
theorem toLower_eq_iff {d : Char} (hd : d.isAlpha = false) (c : Char) : c.toLower = d ↔ c = d := by
  have halpha {e : Char} (he : e.isAlpha) : ¬ e = d := by
    rintro rfl
    simp [hd] at he
  by_cases hcapital : c.isUpper
  · have hc : c.isAlpha := by simp [Char.isAlpha, hcapital]
    exact iff_of_false (halpha (by rwa [Char.isAlpha_toLower_eq_isAlpha])) (halpha hc)
  · rw [Char.toLower_eq_of_not_isUpper hcapital]

theorem toLower_of_isDigit {c : Char} (h : c.isDigit) : c.toLower = c := by
  have hletter := not_isAlpha_of_isDigit h
  rw [Char.isAlpha, Bool.or_eq_false_iff] at hletter
  exact Char.toLower_eq_of_not_isUpper (by simp [hletter.1])

/-! ## Texts -/

theorem foldCase_foldCase (cs : List Char) : foldCase (foldCase cs) = foldCase cs := by
  simp [foldCase]

theorem foldCase_digits {cs : List Char} (h : isDigits cs) : foldCase cs = cs := by
  obtain ⟨-, hdigits⟩ := isDigits_iff.mp h
  exact (List.map_congr_left fun c hc => toLower_of_isDigit (hdigits c hc)).trans (List.map_id _)

theorem isDigits_foldCase (cs : List Char) : isDigits (foldCase cs) = isDigits cs := by
  simp [isDigits, foldCase, Function.comp_def, isDigit_toLower]

theorem trimBlank_foldCase (cs : List Char) :
    trimBlank (foldCase cs) = foldCase (trimBlank cs) := by
  have hdrop (ds : List Char) :
      (ds.map Char.toLower).dropWhile isBlank = (ds.dropWhile isBlank).map Char.toLower := by
    rw [List.dropWhile_map]
    congr 2
    exact funext isBlank_toLower
  simp only [trimBlank, dropBlankEnd, foldCase, hdrop, ← List.map_reverse]

theorem piecesAt_foldCase (cs : List Char) :
    piecesAt ',' (foldCase cs) = (piecesAt ',' cs).map foldCase := by
  induction cs with
  | nil => rfl
  | cons c cs ih =>
    simp only [foldCase, List.map_cons, piecesAt, toLower_eq_iff (d := ',') rfl] at ih ⊢
    by_cases hcomma : c = ','
    · simp only [if_pos hcomma, ih]
      rfl
    · simp only [if_neg hcomma, ih]
      cases piecesAt ',' cs <;> rfl

theorem cutAt_foldCase {mark : Char → Bool} (hmark : ∀ c, mark c.toLower = mark c)
    (cs : List Char) :
    cutAt mark (foldCase cs) = (foldCase (cutAt mark cs).1, (cutAt mark cs).2.map foldCase) := by
  induction cs with
  | nil => rfl
  | cons c cs ih =>
    simp only [foldCase, List.map_cons, cutAt, hmark] at ih ⊢
    cases mark c with
    | true => rfl
    | false => simp only [ih]; rfl

/-- Marks at both ends stay there, and no letter comes to be one. -/
theorem foldCase_between {first last : Char} (hfirst : first.isAlpha = false)
    (hlast : last.isAlpha = false) {cs inner : List Char} :
    foldCase cs = first :: (inner ++ [last]) ↔
      ∃ text, cs = first :: (text ++ [last]) ∧ foldCase text = inner := by
  constructor
  · intro h
    obtain ⟨c, cs, rfl, hc, h⟩ := List.map_eq_cons_iff.mp h
    obtain ⟨text, end_, rfl, htext, h⟩ := List.map_eq_append_iff.mp h
    obtain ⟨d, rfl, hd⟩ := List.map_eq_singleton_iff.mp h
    rw [(toLower_eq_iff hfirst c).mp hc, (toLower_eq_iff hlast d).mp hd]
    exact ⟨text, rfl, htext⟩
  · rintro ⟨text, rfl, rfl⟩
    simp [foldCase, (toLower_eq_iff hfirst first).mpr rfl, (toLower_eq_iff hlast last).mpr rfl]

namespace Literal

theorem unquote?_foldCase (cs : List Char) :
    unquote? (foldCase cs) = (unquote? cs).map foldCase := by
  refine Option.ext fun inner => ?_
  simp only [Option.map_eq_some_iff, unquote?_eq_some_iff]
  exact foldCase_between rfl rfl

theorem tupleInner?_foldCase (cs : List Char) :
    tupleInner? (foldCase cs) = (tupleInner? cs).map foldCase := by
  refine Option.ext fun inner => ?_
  simp only [Option.map_eq_some_iff, tupleInner?_eq_some_iff]
  exact foldCase_between rfl rfl

theorem unquoted_foldCase (cs : List Char) : unquoted (foldCase cs) = foldCase (unquoted cs) := by
  rw [unquoted, unquote?_foldCase, unquoted]
  cases unquote? cs <;> rfl

/-! ## Numbers -/

theorem takeSign_foldCase (cs : List Char) :
    takeSign (foldCase cs) = ((takeSign cs).1, foldCase (takeSign cs).2) := by
  fun_cases takeSign cs with
  | case1 | case2 => rfl
  | case3 cs hplus hminus =>
    cases cs with
    | nil => rfl
    | cons c cs =>
      have hne {sign : Char} (hsign : sign.isAlpha = false) (hc : c ≠ sign) : c.toLower ≠ sign :=
        mt (toLower_eq_iff hsign c).mp hc
      have hplus := hne rfl fun hc => hplus cs (by rw [hc])
      have hminus := hne rfl fun hc => hminus cs (by rw [hc])
      simp only [foldCase, List.map_cons]
      unfold takeSign
      split <;> simp_all

theorem hasMinus_foldCase (cs : List Char) : hasMinus (foldCase cs) = hasMinus cs := by
  rw [hasMinus_eq, hasMinus_eq, takeSign_foldCase]

theorem signedNumber_foldCase {cs : List Char} (h : isDigits (takeSign cs).2) :
    signedNumber (foldCase cs) = signedNumber cs := by
  rw [signedNumber, hasMinus_foldCase, takeSign_foldCase, foldCase_digits h, signedNumber]

theorem readInteger_foldCase (cs : List Char) : readInteger (foldCase cs) = readInteger cs := by
  rw [readInteger, readInteger, takeSign_foldCase, isDigits_foldCase]
  cases hdigits : isDigits (takeSign cs).2 with
  | false => rfl
  | true => rw [signedNumber_foldCase hdigits]

theorem ofText_foldCase (cs : List Char) :
    FloatParts.ofText (foldCase cs) =
      ⟨foldCase (FloatParts.ofText cs).whole, (FloatParts.ofText cs).fraction.map foldCase,
        (FloatParts.ofText cs).exponent.map foldCase⟩ := by
  have hmark (c : Char) : (c.toLower = 'e' || c.toLower = 'E') = (c = 'e' || c = 'E') :=
    @apply_toLower _ (fun c => (c = 'e' || c = 'E')) (by decide) c
  have hexponent := @cutAt_foldCase (fun c => c = 'e' || c = 'E') hmark
  have hpoint := @cutAt_foldCase (· = '.') fun c => decide_eq_decide.mpr (toLower_eq_iff rfl c)
  simp only [FloatParts.ofText, takeSign_foldCase, hexponent, hpoint]

theorem wellFormed_foldCase (p : FloatParts) :
    FloatParts.wellFormed ⟨foldCase p.whole, p.fraction.map foldCase, p.exponent.map foldCase⟩ =
      p.wellFormed := by
  obtain ⟨whole, fraction, exponent⟩ := p
  cases fraction <;> cases exponent <;>
    simp [FloatParts.wellFormed, isDigits_foldCase, takeSign_foldCase]

theorem value_foldCase {p : FloatParts} (h : p.wellFormed) :
    FloatParts.value ⟨foldCase p.whole, p.fraction.map foldCase, p.exponent.map foldCase⟩ =
      p.value := by
  obtain ⟨hwhole, hfraction, hexponent⟩ := FloatParts.wellFormed_iff.mp h
  obtain ⟨whole, fraction, exponent⟩ := p
  have hwhole : foldCase whole = whole := foldCase_digits (isDigits_iff.mpr hwhole)
  have hfraction : fraction.map foldCase = fraction := by
    cases fraction with
    | none => rfl
    | some ds => exact congrArg some (foldCase_digits (isDigits_iff.mpr (hfraction ds rfl)))
  have hexponent : (exponent.map foldCase).map signedNumber = exponent.map signedNumber := by
    cases exponent with
    | none => rfl
    | some text =>
      exact congrArg some (signedNumber_foldCase (isDigits_iff.mpr (hexponent text rfl)))
  rw [FloatParts.value, FloatParts.value, hwhole, hfraction, hexponent]

theorem readFloat_foldCase (cs : List Char) : readFloat (foldCase cs) = readFloat cs := by
  simp only [readFloat, ofText_foldCase, wellFormed_foldCase, hasMinus_foldCase,
    Option.isNone_map]
  cases hformed : (FloatParts.ofText cs).wellFormed with
  | false => simp only [Bool.not_false, if_true]
  | true => rw [value_foldCase hformed]

/-! ## Colors -/

theorem readHexColor_foldCase (cs : List Char) : readHexColor (foldCase cs) = readHexColor cs := by
  simp only [readHexColor, foldCase, List.mapM_map, Function.comp_def, digitIn?_toLower]

theorem readChannel_foldCase (cs : List Char) : readChannel (foldCase cs) = readChannel cs := by
  rw [readChannel, readInteger_foldCase, readChannel]

theorem readAlpha_foldCase (cs : List Char) : readAlpha (foldCase cs) = readAlpha cs := by
  rw [readAlpha, readAlphaNumber, readFloat_foldCase, readInteger_foldCase, readAlpha,
    readAlphaNumber]

theorem readTupleColor_foldCase (inner : List Char) :
    readTupleColor (foldCase inner) = readTupleColor inner := by
  have hparts : (piecesAt ',' (foldCase inner)).map trimBlank =
      ((piecesAt ',' inner).map trimBlank).map foldCase := by
    simp only [piecesAt_foldCase, List.map_map, Function.comp_def, trimBlank_foldCase]
  have hgap (parts : List (List Char)) :
      (parts.map foldCase).any List.isEmpty = parts.any List.isEmpty := by
    simp only [List.any_map, Function.comp_def, foldCase, List.isEmpty_map]
  unfold readTupleColor
  rw [hparts]
  generalize (piecesAt ',' inner).map trimBlank = parts
  rcases parts with _ | ⟨r, _ | ⟨g, _ | ⟨b, _ | ⟨a, _ | ⟨_, _⟩⟩⟩⟩⟩
  case nil => rfl
  case cons.nil => rfl
  case cons.cons.nil => rfl
  case cons.cons.cons.nil =>
    have hgap := hgap [r, g, b]
    simp only [List.map_cons, List.map_nil] at hgap ⊢
    rw [hgap, readChannel_foldCase, readChannel_foldCase, readChannel_foldCase]
  case cons.cons.cons.cons.nil =>
    have hgap := hgap [r, g, b, a]
    simp only [List.map_cons, List.map_nil] at hgap ⊢
    rw [hgap, readChannel_foldCase, readChannel_foldCase, readChannel_foldCase,
      readAlpha_foldCase]
  case cons.cons.cons.cons.cons => rfl

theorem namedColor?_foldCase (cs : List Char) : namedColor? (foldCase cs) = namedColor? cs := by
  rw [namedColor?, foldCase_foldCase, namedColor?]

theorem readColor_hash {cs hex : List Char} (h : trimBlank (unquoted cs) = '#' :: hex) :
    readColor cs = readHexColor hex := by
  simp only [readColor, h]

theorem readColor_plain {cs : List Char} (h : ∀ hex, trimBlank (unquoted cs) ≠ '#' :: hex) :
    readColor cs =
      match tupleInner? (trimBlank (unquoted cs)) with
      | some inner => readTupleColor inner
      | none => ((namedColor? (trimBlank (unquoted cs))).map .ok).getD (.error .notColor) := by
  unfold readColor
  generalize trimBlank (unquoted cs) = text at h
  dsimp only
  split
  next hex => exact absurd rfl (h hex)
  next =>
    cases tupleInner? text with
    | some inner => rfl
    | none => cases namedColor? text <;> rfl

theorem readColor_foldCase (cs : List Char) : readColor (foldCase cs) = readColor cs := by
  have htext : trimBlank (unquoted (foldCase cs)) = foldCase (trimBlank (unquoted cs)) := by
    rw [unquoted_foldCase, trimBlank_foldCase]
  by_cases hhash : ∃ hex, trimBlank (unquoted cs) = '#' :: hex
  · obtain ⟨hex, hhex⟩ := hhash
    rw [readColor_hash hhex, readColor_hash (htext.trans (congrArg foldCase hhex))]
    exact readHexColor_foldCase hex
  · have hplain : ∀ hex, trimBlank (unquoted cs) ≠ '#' :: hex := not_exists.mp hhash
    have hfolded : ∀ hex, trimBlank (unquoted (foldCase cs)) ≠ '#' :: hex := by
      intro hex hhex
      rw [htext] at hhex
      obtain ⟨c, rest, hrest, hc, -⟩ := List.map_eq_cons_iff.mp hhex
      exact hplain rest (by rw [hrest, (toLower_eq_iff rfl c).mp hc])
    rw [readColor_plain hplain, readColor_plain hfolded, htext, tupleInner?_foldCase,
      namedColor?_foldCase]
    cases tupleInner? (trimBlank (unquoted cs)) with
    | none => rfl
    | some inner => exact readTupleColor_foldCase inner

end Literal

namespace AttributeType

theorem parse_color_eq_ok_iff {raw : String} {v : Value} :
    color.parse raw = .ok v ↔ ∃ c, readColor raw.toList = .ok c ∧ .color c = v := by
  rw [parse, mapError_eq_ok_iff, read, map_eq_ok_iff]

/-- **Colors are read from just the texts that write them**, between quotes and white space that
do not count. The slices that are cut out by bytes lie inside of the text: those of hex digits are
a part of what it means to write a color, those of a float are cut wherever there is an exponent.
And the case of letters does not count. -/
theorem color_literals (raw : String) :
    (∀ v, color.parse raw = .ok v ↔
      ∃ c inner text, v = .color c ∧ Unquotes raw.toList inner ∧ Trims inner text ∧
        WritesColor text c) ∧
    (∀ part exponent, (FloatParts.ofText part).exponent = some exponent →
      ∃ n, Span.Slices ⟨0, n⟩ (takeSign part).2
          ((FloatParts.ofText part).whole ++
            (FloatParts.ofText part).fraction.elim [] ('.' :: ·)) ∧
        Span.Slices ⟨n + 1, byteLength (takeSign part).2⟩ (takeSign part).2 exponent) ∧
    (∀ other : String, foldCase other.toList = foldCase raw.toList →
      ∀ v, color.parse other = .ok v ↔ color.parse raw = .ok v) := by
  refine ⟨fun v => ?_, fun part exponent h => slices_ofText h, fun other hfold v => ?_⟩
  · rw [parse_color_eq_ok_iff]
    simp only [readColor_eq_ok_iff]
    constructor
    · rintro ⟨c, ⟨inner, text, hquotes, htrims, hwrites⟩, rfl⟩
      exact ⟨c, inner, text, rfl, hquotes, htrims, hwrites⟩
    · rintro ⟨c, inner, text, rfl, hquotes, htrims, hwrites⟩
      exact ⟨c, ⟨inner, text, hquotes, htrims, hwrites⟩, rfl⟩
  · rw [parse_color_eq_ok_iff, parse_color_eq_ok_iff, ← readColor_foldCase other.toList, hfold,
      readColor_foldCase]

theorem color_literals_tuple :
    (color.parse "\" (1, 2, 3, 5e-1) \"" = .ok (.color ⟨1, 2, 3, 128⟩) ∧
      foldCase "\" (1, 2, 3, 5E-1) \"".toList = foldCase "\" (1, 2, 3, 5e-1) \"".toList ∧
      color.parse "\" (1, 2, 3, 5E-1) \"" = .ok (.color ⟨1, 2, 3, 128⟩)) ∧
    ((FloatParts.ofText "5E-1".toList).exponent = some "-1".toList ∧
      ∃ n, Span.Slices ⟨n + 1, byteLength (takeSign "5E-1".toList).2⟩ (takeSign "5E-1".toList).2
        "-1".toList) := by
  have hread : color.parse "\" (1, 2, 3, 5e-1) \"" = .ok (.color ⟨1, 2, 3, 128⟩) := by
    decide +kernel
  have hfold :
      foldCase "\" (1, 2, 3, 5E-1) \"".toList = foldCase "\" (1, 2, 3, 5e-1) \"".toList := by
    decide +kernel
  have hexponent : (FloatParts.ofText "5E-1".toList).exponent = some "-1".toList := by
    decide +kernel
  obtain ⟨-, hslices, hcase⟩ := color_literals "\" (1, 2, 3, 5e-1) \""
  obtain ⟨n, -, hback⟩ := hslices _ _ hexponent
  exact ⟨⟨hread, hfold, (hcase _ hfold _).mpr hread⟩, hexponent, n, hback⟩

end AttributeType

end UiMarkup
