import UiMarkup.Proofs.Number.Nearest
import UiMarkup.Proofs.Value.Numerals

/-!
# The grammar of numbers

What texts write an integer, what texts write a float, and what number each of
them writes. The two readers take just these texts, as far as the numbers are in
range.
-/

namespace UiMarkup

open Literal (FloatParts hasMinus readInteger readFloat signedNumber)

/-! ## Digits -/

/-- What digits are worth: each of them ten times what it would be one place further on. -/
def worth : List Char → Nat
  | [] => 0
  | c :: cs => (c.toNat - '0'.toNat) * 10 ^ cs.length + worth cs

theorem ofDigitChars_eq_worth (cs : List Char) (n : Nat) :
    Nat.ofDigitChars 10 cs n = n * 10 ^ cs.length + worth cs := by
  induction cs generalizing n with
  | nil => simp [worth]
  | cons c cs ih =>
    rw [Nat.ofDigitChars_cons, ih, worth, List.length_cons, Nat.pow_succ]
    ring

theorem ofDigits_eq_worth (cs : List Char) : ofDigits cs = worth cs := by
  rw [ofDigits, ofDigitChars_eq_worth, Nat.zero_mul, Nat.zero_add]

theorem worth_append (as bs : List Char) :
    worth (as ++ bs) = worth as * 10 ^ bs.length + worth bs := by
  rw [← ofDigits_eq_worth, ofDigits, Nat.ofDigitChars_append, ofDigitChars_eq_worth,
    ofDigitChars_eq_worth, Nat.zero_mul, Nat.zero_add]

/-! ## Integers -/

/-- A text is digits, with or without a sign, and writes the number. -/
inductive WritesInteger : List Char → Int → Prop
  | unsigned {ds : List Char} : SomeDigits ds → WritesInteger ds (worth ds)
  | plus {ds : List Char} : SomeDigits ds → WritesInteger ('+' :: ds) (worth ds)
  | minus {ds : List Char} : SomeDigits ds → WritesInteger ('-' :: ds) (-worth ds)

theorem signedNumber_digits {ds : List Char} (h : SomeDigits ds) : signedNumber ds = worth ds := by
  simp [signedNumber, takeSign_digits h, hasMinus_digits h, ofDigits_eq_worth]

theorem signedNumber_plus (ds : List Char) : signedNumber ('+' :: ds) = worth ds := by
  simp [signedNumber, hasMinus, takeSign, ofDigits_eq_worth]

theorem signedNumber_minus (ds : List Char) : signedNumber ('-' :: ds) = -worth ds := by
  simp [signedNumber, hasMinus, takeSign, ofDigits_eq_worth]

theorem writesInteger_iff {cs : List Char} {i : Int} :
    WritesInteger cs i ↔ SomeDigits (takeSign cs).2 ∧ signedNumber cs = i := by
  constructor
  · intro h
    cases h with
    | unsigned hdigits =>
      rw [takeSign_digits hdigits]
      exact ⟨hdigits, signedNumber_digits hdigits⟩
    | plus hdigits => exact ⟨hdigits, signedNumber_plus _⟩
    | minus hdigits => exact ⟨hdigits, signedNumber_minus _⟩
  · rintro ⟨hdigits, rfl⟩
    unfold takeSign at hdigits
    split at hdigits
    · exact signedNumber_plus _ ▸ .plus hdigits
    · exact signedNumber_minus _ ▸ .minus hdigits
    · exact signedNumber_digits hdigits ▸ .unsigned hdigits

theorem readInteger_eq_ok_iff {cs : List Char} {i : Int64} :
    readInteger cs = .ok i ↔ WritesInteger cs i.toInt := by
  have hrange : Int64.minValue.toInt ≤ i.toInt ∧ i.toInt ≤ Int64.maxValue.toInt :=
    ⟨i.minValue_le_toInt, i.toInt_le⟩
  have hmax : Int64.maxValue.toInt = 2 ^ 63 - 1 := rfl
  rw [writesInteger_iff, ← isDigits_iff, readInteger]
  cases hdigits : isDigits (takeSign cs).2 with
  | false => simp
  | true =>
    simp only [Bool.not_true, Bool.false_eq_true, if_false, true_and]
    constructor
    · intro h
      split at h
      next hfits =>
        cases h
        exact (Int64.toInt_ofInt_of_le hfits.1 (by omega)).symm
      next => cases h
    · intro hnumber
      rw [hnumber, if_pos hrange, Int64.ofInt_toInt]

/-- The exact number decides, however many zeros stand in front of it. -/
theorem reads_integer_iff {cs : List Char} :
    (∃ i, readInteger cs = .ok i) ↔ ∃ n, WritesInteger cs n ∧ -2 ^ 63 ≤ n ∧ n ≤ 2 ^ 63 - 1 := by
  simp only [readInteger_eq_ok_iff]
  constructor
  · rintro ⟨i, h⟩
    exact ⟨i.toInt, h, i.le_toInt, Int.le_sub_one_of_lt i.toInt_lt⟩
  · rintro ⟨n, h, hmin, hmax⟩
    refine ⟨Int64.ofInt n, ?_⟩
    rwa [Int64.toInt_ofInt_of_le hmin (by omega)]

/-! ## Floats -/

/-- A text is empty, or a point and digits. -/
inductive WritesFraction : List Char → ℚ → Prop
  | none : WritesFraction [] 0
  | point {ds : List Char} : SomeDigits ds → WritesFraction ('.' :: ds) (worth ds / 10 ^ ds.length)

/-- A text is empty, or a power of ten. -/
inductive WritesExponent : List Char → Int → Prop
  | none : WritesExponent [] 0
  | power {e : Char} {cs : List Char} {i : Int} :
      e = 'e' ∨ e = 'E' → WritesInteger cs i → WritesExponent (e :: cs) i

/-- A text is digits, with or without a sign, and behind them a fraction, an exponent or both.
It writes whether there is a minus in front, and the number behind the sign. -/
inductive WritesFloat : List Char → Bool → ℚ → Prop
  | intro {sign ds fraction exponent : List Char} {part : ℚ} {i : Int} :
      IsSign sign → SomeDigits ds → WritesFraction fraction part → WritesExponent exponent i →
      fraction ≠ [] ∨ exponent ≠ [] →
      WritesFloat (sign ++ (ds ++ (fraction ++ exponent))) (sign = ['-'])
        ((worth ds + part) * 10 ^ i)

theorem writesFraction_iff {cs : List Char} {part : ℚ} :
    WritesFraction cs part ↔ ∃ fraction : Option (List Char),
      cs = fraction.elim [] ('.' :: ·) ∧ (∀ ds ∈ fraction, SomeDigits ds) ∧
      part = worth (fraction.getD []) / 10 ^ (fraction.getD []).length := by
  constructor
  · intro h
    cases h with
    | none => exact ⟨none, rfl, by simp, by simp [worth]⟩
    | point hdigits => exact ⟨some _, rfl, by simpa using hdigits, rfl⟩
  · rintro ⟨fraction, rfl, hdigits, rfl⟩
    cases fraction with
    | none => simpa [worth] using WritesFraction.none
    | some ds => exact .point (hdigits ds rfl)

theorem writesExponent_iff {cs : List Char} {i : Int} :
    WritesExponent cs i ↔ ∃ (mark : Char) (exponent : Option (List Char)),
      (mark = 'e' ∨ mark = 'E') ∧ cs = exponent.elim [] (mark :: ·) ∧
      (∀ text ∈ exponent, SomeDigits (takeSign text).2) ∧
      i = (exponent.map signedNumber).getD 0 := by
  constructor
  · intro h
    cases h with
    | none => exact ⟨'e', none, .inl rfl, rfl, by simp, rfl⟩
    | @power mark text _ hmark hnumber =>
      obtain ⟨hdigits, rfl⟩ := writesInteger_iff.mp hnumber
      exact ⟨mark, some text, hmark, rfl, by simpa using hdigits, rfl⟩
  · rintro ⟨mark, exponent, hmark, rfl, hdigits, rfl⟩
    cases exponent with
    | none => exact .none
    | some text => exact .power hmark (writesInteger_iff.mpr ⟨hdigits text rfl, rfl⟩)

namespace Literal.FloatParts

/-- A text is put together again from its sign and its parts. -/
theorem exists_ofText (cs : List Char) :
    ∃ mark, (mark = 'e' ∨ mark = 'E') ∧
      (takeSign cs).1 ++ ((ofText cs).whole ++ ((ofText cs).fraction.elim [] ('.' :: ·) ++
        (ofText cs).exponent.elim [] (mark :: ·))) = cs := by
  let isMark (c : Char) : Bool := c = 'e' || c = 'E'
  obtain ⟨mark, hmark, hexponent⟩ := @exists_cutAt isMark 'e' rfl (takeSign cs).2
  obtain ⟨point, hpoint, hfraction⟩ :=
    @exists_cutAt (· = '.') '.' rfl (cutAt isMark (takeSign cs).2).1
  obtain rfl : point = '.' := by simpa using hpoint
  refine ⟨mark, by simpa [isMark] using hmark, ?_⟩
  simp only [ofText]
  rw [← List.append_assoc (cutAt _ _).1, hfraction, hexponent, takeSign_append]

theorem toRat_value (p : FloatParts) :
    p.value.toRat =
      (worth p.whole + worth (p.fraction.getD []) / 10 ^ (p.fraction.getD []).length) *
        10 ^ (p.exponent.map signedNumber).getD 0 := by
  have hten : (10 : ℚ) ≠ 0 := by norm_num
  rw [value, Decimal.ofParts, Decimal.toRat, ofDigits_eq_worth, worth_append, zpow_sub₀ hten,
    zpow_natCast]
  push_cast
  field_simp

end Literal.FloatParts

theorem writesFloat_iff {cs : List Char} {negative : Bool} {q : ℚ} :
    WritesFloat cs negative q ↔ (FloatParts.ofText cs).Sound ∧
      ((FloatParts.ofText cs).fraction.isNone && (FloatParts.ofText cs).exponent.isNone) = false ∧
      hasMinus cs = negative ∧ (FloatParts.ofText cs).value.toRat = q := by
  constructor
  · intro h
    obtain @⟨sign, ds, _, _, _, _, hsign, hdigits, hpart, hpower, hsome⟩ := h
    obtain ⟨fraction, rfl, hfraction, rfl⟩ := writesFraction_iff.mp hpart
    obtain ⟨mark, exponent, hmark, rfl, hexponent, rfl⟩ := writesExponent_iff.mp hpower
    have hsound : FloatParts.Sound ⟨ds, fraction, exponent⟩ := ⟨hdigits, hfraction, hexponent⟩
    rw [FloatParts.ofText_parts hmark hsign hsound, FloatParts.toRat_value, hasMinus_eq,
      takeSign_stop hsign hdigits]
    refine ⟨hsound, ?_, rfl, rfl⟩
    cases fraction <;> cases exponent <;> simp_all
  · rintro ⟨⟨hwhole, hfraction, hexponent⟩, hsome, rfl, rfl⟩
    obtain ⟨mark, hmark, hcs⟩ := FloatParts.exists_ofText cs
    rw [FloatParts.toRat_value, hasMinus_eq]
    conv => arg 1; rw [← hcs]
    refine .intro (isSign_takeSign cs) hwhole
      (writesFraction_iff.mpr ⟨_, rfl, hfraction, rfl⟩)
      (writesExponent_iff.mpr ⟨mark, _, hmark, rfl, hexponent, rfl⟩) ?_
    generalize (FloatParts.ofText cs).fraction = fraction at *
    generalize (FloatParts.ofText cs).exponent = exponent at *
    cases fraction <;> cases exponent <;> simp_all

theorem readFloat_eq_ok_iff {cs : List Char} {x : Binary64} :
    readFloat cs = .ok x ↔
      x.isFinite ∧ ∃ q, WritesFloat cs x.negative q ∧ Binary64.IsNearest q x.count := by
  simp only [writesFloat_iff, ← FloatParts.wellFormed_iff]
  constructor
  · intro h
    simp only [readFloat] at h
    split at h
    · cases h
    next hformed =>
      split at h
      · cases h
      next hsome =>
        split at h
        next hfinite =>
          cases h
          obtain ⟨hsign, hnearest⟩ := Binary64.ofDecimal_eq_iff.mp rfl
          exact ⟨hfinite, _, ⟨by simpa using hformed, Bool.eq_false_of_not_eq_true hsome,
            hsign.symm, rfl⟩, hnearest⟩
        next => cases h
  · rintro ⟨hfinite, q, ⟨hformed, hsome, hsign, rfl⟩, hnearest⟩
    have hread := Binary64.ofDecimal_eq_iff.mpr ⟨hsign.symm, hnearest⟩
    simp [readFloat, hformed, hsome, hread, hfinite]

/-! ## Both kinds -/

theorem writesInteger_shape {cs : List Char} :
    (∃ i, WritesInteger cs i) ↔ ∃ sign ds, IsSign sign ∧ SomeDigits ds ∧ cs = sign ++ ds := by
  have hshape : (∃ i, WritesInteger cs i) ↔ SomeDigits (takeSign cs).2 := by
    simp [writesInteger_iff]
  rw [hshape]
  constructor
  · intro hdigits
    exact ⟨_, _, isSign_takeSign cs, hdigits, (takeSign_append cs).symm⟩
  · rintro ⟨sign, ds, hsign, hdigits, rfl⟩
    have htaken := takeSign_stop hsign hdigits []
    rw [List.append_nil] at htaken
    rwa [htaken]

theorem isFraction_iff {cs : List Char} : IsFraction cs ↔ ∃ part, WritesFraction cs part := by
  constructor
  · rintro (rfl | ⟨ds, hdigits, rfl⟩)
    · exact ⟨_, .none⟩
    · exact ⟨_, .point hdigits⟩
  · rintro ⟨part, h⟩
    cases h with
    | none => exact .inl rfl
    | point hdigits => exact .inr ⟨_, hdigits, rfl⟩

theorem isExponent_iff {cs : List Char} : IsExponent cs ↔ ∃ i, WritesExponent cs i := by
  constructor
  · rintro (rfl | ⟨e, sign, ds, he, hsign, hdigits, rfl⟩)
    · exact ⟨_, .none⟩
    · obtain ⟨i, h⟩ := writesInteger_shape.mpr ⟨sign, ds, hsign, hdigits, rfl⟩
      exact ⟨i, .power he h⟩
  · rintro ⟨i, h⟩
    cases h with
    | none => exact .inl rfl
    | power he h =>
      obtain ⟨sign, ds, hsign, hdigits, rfl⟩ := writesInteger_shape.mp ⟨_, h⟩
      exact .inr ⟨_, sign, ds, he, hsign, hdigits, rfl⟩

/-- A number has the shape of an integer or of a float. -/
theorem isNumber_iff {cs : List Char} :
    IsNumber cs ↔ (∃ i, WritesInteger cs i) ∨ ∃ negative q, WritesFloat cs negative q := by
  constructor
  · rintro ⟨sign, ds, fraction, exponent, hsign, hdigits, hfraction, hexponent, rfl⟩
    by_cases hnone : fraction = [] ∧ exponent = []
    · obtain ⟨rfl, rfl⟩ := hnone
      exact .inl (writesInteger_shape.mpr ⟨sign, ds, hsign, hdigits, by simp⟩)
    · obtain ⟨part, hpart⟩ := isFraction_iff.mp hfraction
      obtain ⟨i, hpower⟩ := isExponent_iff.mp hexponent
      exact .inr ⟨_, _, .intro hsign hdigits hpart hpower (by tauto)⟩
  · rintro (h | ⟨negative, q, h⟩)
    · obtain ⟨sign, ds, hsign, hdigits, rfl⟩ := writesInteger_shape.mp h
      exact ⟨sign, ds, [], [], hsign, hdigits, .inl rfl, .inl rfl, by simp⟩
    · obtain ⟨hsign, hdigits, hpart, hpower, -⟩ := h
      exact ⟨_, _, _, _, hsign, hdigits, isFraction_iff.mpr ⟨_, hpart⟩,
        isExponent_iff.mpr ⟨_, hpower⟩, rfl⟩

/-- No text has both shapes: behind the digits of an integer nothing stands. -/
theorem not_writesInteger_of_writesFloat {cs : List Char} {negative : Bool} {q : ℚ} {i : Int}
    (h : WritesFloat cs negative q) : ¬ WritesInteger cs i := by
  intro hinteger
  obtain ⟨hdigits, -⟩ := writesInteger_iff.mp hinteger
  obtain @⟨sign, ds, fraction, exponent, _, _, hsign, hwhole, hpart, hpower, hsome⟩ := h
  rw [takeSign_stop hsign hwhole] at hdigits
  obtain ⟨-, hdigits⟩ := hdigits
  cases hpart with
  | point _ => simpa using hdigits '.' (by simp)
  | none =>
    cases hpower with
    | none => simp at hsome
    | power he _ =>
      rcases he with rfl | rfl
      · simpa using hdigits 'e' (by simp)
      · simpa using hdigits 'E' (by simp)

end UiMarkup
