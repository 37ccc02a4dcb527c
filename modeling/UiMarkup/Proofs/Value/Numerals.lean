import UiMarkup.Proofs.Number.Rounding
import UiMarkup.Proofs.Token.Spelling
import UiMarkup.Value.Literal
import UiMarkup.Value.Written

/-!
# Numbers written down and read

The text of a number falls apart into the digits that it was put together from.
They are worth what was written, up to zeros that moved into the exponent.
-/

namespace UiMarkup

open Literal (FloatParts hasMinus signedNumber)

/-! ## Digits -/

theorem isDigits_iff {cs : List Char} : isDigits cs ↔ SomeDigits cs := by
  simp [isDigits, SomeDigits]

theorem someDigits_zero : SomeDigits ['0'] := by
  simp [SomeDigits]

theorem someDigits_digitsOf (n : Nat) : SomeDigits (digitsOf n) :=
  ⟨Nat.toDigits_ne_nil, fun _ hc => Nat.isDigit_of_mem_toDigits (by decide) (by decide) hc⟩

theorem SomeDigits.append_zeros {ds : List Char} (h : SomeDigits ds) (n : Nat) :
    SomeDigits (ds ++ List.replicate n '0') := by
  refine ⟨by simp [h.1], fun c hc => ?_⟩
  rcases List.mem_append.mp hc with hc | hc
  · exact h.2 c hc
  · rw [List.eq_of_mem_replicate hc]
    rfl

theorem SomeDigits.zeros_append {ds : List Char} (h : SomeDigits ds) (n : Nat) :
    SomeDigits (List.replicate n '0' ++ ds) := by
  refine ⟨by simp [h.1], fun c hc => ?_⟩
  rcases List.mem_append.mp hc with hc | hc
  · rw [List.eq_of_mem_replicate hc]
    rfl
  · exact h.2 c hc

theorem ofDigits_zeros_append (n : Nat) (digits : List Char) :
    ofDigits (List.replicate n '0' ++ digits) = ofDigits digits := by
  simp [ofDigits, Nat.ofDigitChars_append, Nat.ofDigitChars_replicate_zero]

theorem ofDigits_append_zeros (digits : List Char) (n : Nat) :
    ofDigits (digits ++ List.replicate n '0') = ofDigits digits * tenTo n := by
  rw [ofDigits, Nat.ofDigitChars_append, Nat.ofDigitChars_replicate_zero]
  exact Nat.mul_comm ..

/-! ## Whole numbers -/

theorem isSign_minus (negative : Prop) [Decidable negative] :
    IsSign (if negative then ['-'] else []) := by
  split
  · exact .inr (.inr rfl)
  · exact .inl rfl

theorem takeSign_digits {ds : List Char} (h : SomeDigits ds) : takeSign ds = ([], ds) := by
  simpa using takeSign_stop (.inl rfl) h []

theorem hasMinus_eq (cs : List Char) : hasMinus cs = decide ((takeSign cs).1 = ['-']) := by
  fun_cases takeSign cs with
  | case1 => simp [hasMinus]
  | case2 => simp [hasMinus]
  | case3 cs hplus hminus =>
    cases cs with
    | nil => rfl
    | cons c cs =>
      have hc : c ≠ '-' := fun hc => hminus cs (by rw [hc])
      simp [hasMinus, hc]

theorem hasMinus_digits {ds : List Char} (h : SomeDigits ds) : hasMinus ds = false := by
  rw [hasMinus_eq, takeSign_digits h]
  rfl

theorem takeSign_integer (i : Int) : (takeSign (Written.integer i)).2 = digitsOf i.natAbs := by
  unfold Written.integer
  split
  · rfl
  · rw [takeSign_digits (someDigits_digitsOf _)]

theorem hasMinus_integer (i : Int) : hasMinus (Written.integer i) = decide (i < 0) := by
  unfold Written.integer
  split
  next h => simp [hasMinus, h]
  next h => rw [hasMinus_digits (someDigits_digitsOf _), decide_eq_false h]

theorem signedNumber_integer (i : Int) : signedNumber (Written.integer i) = i := by
  rw [signedNumber, takeSign_integer, hasMinus_integer, ofDigits_digitsOf]
  split
  next hnegative =>
    have hlt : i < 0 := by simpa using hnegative
    omega
  next hpositive =>
    have hge : ¬ i < 0 := by simpa using hpositive
    omega

/-! ## Parts of a float -/

theorem cutAt_elim {mark : Char → Bool} (c : Char) {cs : List Char}
    (hcs : ∀ d ∈ cs, mark d = false) (hc : mark c) (back : Option (List Char)) :
    cutAt mark (cs ++ back.elim [] (c :: ·)) = (cs, back) := by
  induction cs with
  | nil => cases back <;> simp [cutAt, hc]
  | cons d cs ih =>
    have hd := hcs d List.mem_cons_self
    have ih := ih fun e he => hcs e (List.mem_cons_of_mem d he)
    rw [List.cons_append, cutAt, ih, hd]
    rfl

/-- A text is put together again from the parts it was cut into. -/
theorem exists_cutAt {mark : Char → Bool} {c : Char} (hc : mark c) (cs : List Char) :
    ∃ d, mark d ∧ (cutAt mark cs).1 ++ (cutAt mark cs).2.elim [] (d :: ·) = cs := by
  fun_induction cutAt mark cs with
  | case1 => exact ⟨c, hc, rfl⟩
  | case2 d cs hd => exact ⟨d, hd, rfl⟩
  | case3 d cs hd front back hcut ih =>
    obtain ⟨e, he, hcs⟩ := ih
    rw [hcut] at hcs
    exact ⟨e, he, congrArg (d :: ·) hcs⟩

namespace Literal.FloatParts

def text (p : FloatParts) : List Char :=
  p.whole ++ (p.fraction.elim [] ('.' :: ·) ++ p.exponent.elim [] ('e' :: ·))

structure Sound (p : FloatParts) : Prop where
  whole : SomeDigits p.whole
  fraction : ∀ ds ∈ p.fraction, SomeDigits ds
  exponent : ∀ cs ∈ p.exponent, SomeDigits (takeSign cs).2

theorem wellFormed_iff {p : FloatParts} : p.wellFormed ↔ p.Sound := by
  constructor
  · intro h
    simp only [wellFormed, Bool.and_eq_true, Option.all_eq_true, isDigits_iff] at h
    exact ⟨h.1.1, h.1.2, h.2⟩
  · rintro ⟨hwhole, hfraction, hexponent⟩
    simp only [wellFormed, Bool.and_eq_true, Option.all_eq_true, isDigits_iff]
    exact ⟨⟨hwhole, hfraction⟩, hexponent⟩

/-- An exponent may stand behind either letter. -/
theorem ofText_parts {mark : Char} (hmark : mark = 'e' ∨ mark = 'E') {sign : List Char}
    (hsign : IsSign sign) {p : FloatParts} (h : p.Sound) :
    ofText (sign ++ (p.whole ++
      (p.fraction.elim [] ('.' :: ·) ++ p.exponent.elim [] (mark :: ·)))) = p := by
  have hdigit {d : Char} (hd : d.isDigit) : d ≠ '.' ∧ d ≠ 'e' ∧ d ≠ 'E' := by
    refine ⟨?_, ?_, ?_⟩ <;> rintro rfl <;> simp at hd
  have hmantissa : ∀ d ∈ p.whole ++ p.fraction.elim [] ('.' :: ·),
      (d = 'e' || d = 'E') = false := by
    intro d hd
    rcases List.mem_append.mp hd with hd | hd
    · simp [hdigit (h.whole.2 d hd)]
    · cases hfraction : p.fraction with
      | none => simp [hfraction] at hd
      | some ds =>
        rw [hfraction] at hd
        rcases List.mem_cons.mp hd with rfl | hd
        · rfl
        · simp [hdigit ((h.fraction ds hfraction).2 d hd)]
  have hwhole : ∀ d ∈ p.whole, decide (d = '.') = false := by
    intro d hd
    simp [hdigit (h.whole.2 d hd)]
  rw [ofText, takeSign_stop hsign h.whole, ← List.append_assoc]
  simp only [cutAt_elim mark hmantissa (by simpa using hmark), cutAt_elim '.' hwhole rfl]

theorem ofText_text {sign : List Char} (hsign : IsSign sign) {p : FloatParts} (h : p.Sound) :
    ofText (sign ++ p.text) = p := ofText_parts (.inl rfl) hsign h

theorem isNumber_text {sign : List Char} (hsign : IsSign sign) {p : FloatParts} (h : p.Sound) :
    IsNumber (sign ++ p.text) := by
  refine ⟨sign, p.whole, _, _, hsign, h.whole, ?_, ?_, rfl⟩
  · cases hfraction : p.fraction with
    | none => exact .inl rfl
    | some ds => exact .inr ⟨ds, h.fraction ds hfraction, rfl⟩
  · cases hexponent : p.exponent with
    | none => exact .inl rfl
    | some cs =>
      refine .inr ⟨'e', (takeSign cs).1, (takeSign cs).2, .inl rfl, isSign_takeSign cs,
        h.exponent cs hexponent, ?_⟩
      rw [List.cons_append, takeSign_append]
      rfl

theorem hasMinus_text (negative : Bool) {p : FloatParts} (h : p.Sound) :
    hasMinus ((if negative then ['-'] else []) ++ p.text) = negative := by
  rw [hasMinus_eq, text, takeSign_stop (isSign_minus _) h.whole]
  cases negative <;> rfl

end Literal.FloatParts

/-! ## Decimals -/

namespace Written

theorem significant_append_zeros (d : Decimal) :
    ∃ k, digitsOf d.coefficient = significant d ++ List.replicate k '0' := by
  have hsplit :=
    List.takeWhile_append_dropWhile (p := (· = '0')) (l := (digitsOf d.coefficient).reverse)
  have hzeros : (digitsOf d.coefficient).reverse.takeWhile (· = '0') = List.replicate _ '0' :=
    List.eq_replicate_of_mem fun c hc => by simpa using List.all_eq_true.mp List.all_takeWhile c hc
  refine ⟨((digitsOf d.coefficient).reverse.takeWhile (· = '0')).length, ?_⟩
  rw [hzeros] at hsplit
  have hreverse := congrArg List.reverse hsplit
  simpa [significant] using hreverse.symm

theorem someDigits_significant {d : Decimal} (h : d.coefficient ≠ 0) :
    SomeDigits (significant d) := by
  obtain ⟨k, hk⟩ := significant_append_zeros d
  constructor
  · intro hnone
    rw [hnone] at hk
    have hvalue := ofDigits_digitsOf d.coefficient
    rw [hk, ofDigits_append_zeros] at hvalue
    exact h (hvalue ▸ Nat.zero_mul _)
  · intro c hc
    exact (someDigits_digitsOf d.coefficient).2 c (hk ▸ List.mem_append_left _ hc)

/-- The decimal that digits write when the first of them stands at `place`. -/
def ofPlace (digits : List Char) (place : Int) : Decimal :=
  ⟨ofDigits digits, place + 1 - digits.length⟩

theorem isShiftOf_ofPlace (d : Decimal) :
    d.IsShiftOf (ofPlace (significant d) (d.magnitude - 1)) := by
  obtain ⟨k, hk⟩ := significant_append_zeros d
  refine ⟨k, ?_, ?_⟩
  · rw [ofPlace, ← ofDigits_append_zeros, ← hk, ofDigits_digitsOf]
  · simp only [ofPlace, Decimal.magnitude, hk, List.length_append, List.length_replicate]
    omega

def positionalParts (digits : List Char) (place : Int) : FloatParts :=
  if place < 0 then ⟨['0'], some (List.replicate (-place - 1).toNat '0' ++ digits), none⟩
  else
    let width := place.toNat + 1
    let whole := digits.take width ++ List.replicate (width - digits.length) '0'
    let fraction := digits.drop width
    ⟨whole, some (if fraction.isEmpty then ['0'] else fraction), none⟩

def scientificParts (digits : List Char) (place : Int) : FloatParts :=
  ⟨digits.take 1, if digits.length ≤ 1 then none else some (digits.drop 1), some (integer place)⟩

theorem text_positionalParts (digits : List Char) (place : Int) :
    (positionalParts digits place).text = positional digits place := by
  unfold positionalParts positional
  split <;> simp [FloatParts.text]

theorem text_scientificParts (digits : List Char) (place : Int) :
    (scientificParts digits place).text = scientific digits place := by
  unfold scientificParts scientific
  split <;> simp [FloatParts.text]

theorem sound_positionalParts {digits : List Char} (h : SomeDigits digits) (place : Int) :
    (positionalParts digits place).Sound := by
  unfold positionalParts
  split
  · refine ⟨someDigits_zero, ?_, by simp⟩
    rintro ds ⟨⟩
    exact h.zeros_append _
  · refine ⟨?_, ?_, by simp⟩
    · refine SomeDigits.append_zeros ⟨?_, ?_⟩ _
      · simpa using h.1
      · exact fun c hc => h.2 c (List.mem_of_mem_take hc)
    · rintro ds ⟨⟩
      split
      · exact someDigits_zero
      next hsome => exact ⟨by simpa using hsome, fun c hc => h.2 c (List.mem_of_mem_drop hc)⟩

theorem sound_scientificParts {digits : List Char} (h : SomeDigits digits) (place : Int) :
    (scientificParts digits place).Sound := by
  have hwhole : SomeDigits (scientificParts digits place).whole :=
    ⟨by simpa [scientificParts] using h.1, fun c hc => h.2 c (List.mem_of_mem_take hc)⟩
  refine ⟨hwhole, ?_, ?_⟩
  · intro ds hds
    simp only [scientificParts] at hds
    split at hds
    · simp at hds
    next hmore =>
      obtain rfl : digits.drop 1 = ds := by simpa using hds
      refine ⟨?_, fun c hc => h.2 c (List.mem_of_mem_drop hc)⟩
      rw [ne_eq, List.drop_eq_nil_iff]
      exact hmore
  · rintro cs ⟨⟩
    rw [takeSign_integer]
    exact someDigits_digitsOf _

theorem value_positionalParts (digits : List Char) (place : Int) :
    (positionalParts digits place).value.IsShiftOf (ofPlace digits place) := by
  unfold positionalParts
  split
  next hplace =>
    refine ⟨0, ?_, ?_⟩
    · have hzeros := ofDigits_zeros_append ((-place - 1).toNat + 1) digits
      simpa [FloatParts.value, Decimal.ofParts, ofPlace, tenTo, List.replicate_succ] using hzeros
    · simp only [ofPlace, FloatParts.value, Decimal.ofParts, Option.getD_some, Option.map_none,
        Option.getD_none, List.length_append, List.length_replicate]
      omega
  next hplace =>
    by_cases hlength : digits.length ≤ place.toNat + 1
    · refine ⟨place.toNat + 1 - digits.length + 1, ?_, ?_⟩
      · have hzeros := ofDigits_append_zeros digits (place.toNat + 1 - digits.length + 1)
        simpa [FloatParts.value, Decimal.ofParts, ofPlace, hlength, List.take_of_length_le,
          List.replicate_succ'] using hzeros
      · simp only [ofPlace, FloatParts.value, Decimal.ofParts, List.isEmpty_iff,
          List.drop_eq_nil_iff, hlength, if_true, Option.getD_some, Option.map_none,
          Option.getD_none, List.length_singleton]
        omega
    · refine ⟨0, ?_, ?_⟩
      · have hnone : place.toNat + 1 - digits.length = 0 := by omega
        simp [FloatParts.value, Decimal.ofParts, ofPlace, hlength, hnone, tenTo]
      · simp only [ofPlace, FloatParts.value, Decimal.ofParts, List.isEmpty_iff,
          List.drop_eq_nil_iff, hlength, if_false, Option.getD_some, Option.map_none,
          Option.getD_none, List.length_drop]
        omega

theorem value_scientificParts {digits : List Char} (h : SomeDigits digits) (place : Int) :
    (scientificParts digits place).value.IsShiftOf (ofPlace digits place) := by
  cases digits with
  | nil => exact absurd rfl h.1
  | cons d ds =>
    have hfraction : (scientificParts (d :: ds) place).fraction.getD [] = ds := by
      simp only [scientificParts]
      split
      next hone =>
        rw [List.length_cons] at hone
        exact (List.eq_nil_of_length_eq_zero (by omega)).symm
      next => rfl
    have hexponent : ((scientificParts (d :: ds) place).exponent.map signedNumber).getD 0 = place :=
      signedNumber_integer place
    rw [FloatParts.value, hfraction, hexponent]
    refine ⟨0, (Nat.mul_one _).symm, ?_⟩
    simp only [Decimal.ofParts, ofPlace, List.length_cons]
    omega

/-! ## Floats -/

/-- The parts that the text of a decimal falls into. -/
def decimalParts (d : Decimal) : FloatParts :=
  let digits := significant d
  let place := d.magnitude - 1
  if -4 ≤ place ∧ place < 16 then positionalParts digits place else scientificParts digits place

theorem text_decimalParts (d : Decimal) : (decimalParts d).text = decimal d := by
  unfold decimalParts decimal
  simp only
  split
  · exact text_positionalParts _ _
  · exact text_scientificParts _ _

theorem sound_decimalParts {d : Decimal} (h : d.coefficient ≠ 0) : (decimalParts d).Sound := by
  unfold decimalParts
  simp only
  split
  · exact sound_positionalParts (someDigits_significant h) _
  · exact sound_scientificParts (someDigits_significant h) _

theorem value_decimalParts {d : Decimal} (h : d.coefficient ≠ 0) :
    (decimalParts d).value.IsShiftOf (ofPlace (significant d) (d.magnitude - 1)) := by
  unfold decimalParts
  simp only
  split
  · exact value_positionalParts _ _
  · exact value_scientificParts (someDigits_significant h) _

/-- A point or an exponent tells a float from a whole number. -/
theorem isFloat_decimalParts (d : Decimal) :
    ((decimalParts d).fraction.isNone && (decimalParts d).exponent.isNone) = false := by
  simp only [decimalParts, positionalParts, scientificParts]
  split
  · split <;> rfl
  · simp

/-- A finite float is written with parts that are worth the float. -/
theorem exists_parts_float {x : Binary64} (h : x.isFinite) :
    ∃ p : FloatParts, p.Sound ∧ (p.fraction.isNone && p.exponent.isNone) = false ∧
      float x = (if x.negative then ['-'] else []) ++ p.text ∧
      Binary64.ofDecimal x.negative p.value = x := by
  have hfinite : x.count < Binary64.infinityCount := by simpa [Binary64.isFinite] using h
  have hnumber : x.isNaN = false := by
    simp only [Binary64.isNaN, decide_eq_false_iff_not]
    omega
  by_cases hzero : x.count = 0
  · refine ⟨⟨['0'], some ['0'], none⟩, ?_, rfl, ?_, ?_⟩
    · refine ⟨someDigits_zero, ?_, by simp⟩
      rintro ds ⟨⟩
      exact someDigits_zero
    · simp [float, hnumber, h, hzero, FloatParts.text]
    · refine Binary64.ofDecimal_eq ?_
      rw [hzero]
      exact Binary64.roundsTo_zero (by decide +kernel)
  · have hpos := Nat.pos_of_ne_zero hzero
    have hrounds := Binary64.roundsTo_shortest hpos hfinite
    have hcoefficient := Binary64.coefficient_ne_zero hpos hrounds
    refine ⟨decimalParts (Binary64.shortest x.count), sound_decimalParts hcoefficient,
      isFloat_decimalParts _, ?_, ?_⟩
    · simp [float, hnumber, h, hzero, text_decimalParts]
    · refine Binary64.ofDecimal_eq ?_
      rwa [Binary64.roundsTo_shift (value_decimalParts hcoefficient),
        ← Binary64.roundsTo_shift (isShiftOf_ofPlace _)]

end Written

namespace Literal

theorem readFloat_float {x : Binary64} (h : x.isFinite) : readFloat (Written.float x) = .ok x := by
  obtain ⟨p, hsound, hfloat, htext, hvalue⟩ := Written.exists_parts_float h
  rw [readFloat, htext, FloatParts.ofText_text (isSign_minus _) hsound,
    FloatParts.wellFormed_iff.mpr hsound, FloatParts.hasMinus_text _ hsound, hvalue]
  simp [hfloat, h]

theorem isNumber_float {x : Binary64} (h : x.isFinite) : IsNumber (Written.float x) := by
  obtain ⟨p, hsound, -, htext, -⟩ := Written.exists_parts_float h
  rw [htext]
  exact FloatParts.isNumber_text (isSign_minus _) hsound

theorem readInteger_integer (i : Int64) : readInteger (Written.integer i.toInt) = .ok i := by
  have hdigits : isDigits (takeSign (Written.integer i.toInt)).2 := by
    rw [takeSign_integer, isDigits_iff]
    exact someDigits_digitsOf _
  have hrange : Int64.minValue.toInt ≤ i.toInt ∧ i.toInt ≤ Int64.maxValue.toInt :=
    ⟨i.minValue_le_toInt, i.toInt_le⟩
  rw [readInteger, hdigits]
  simp only [Bool.not_true, Bool.false_eq_true, if_false, signedNumber_integer, if_pos hrange,
    Int64.ofInt_toInt]

theorem isNumber_integer (i : Int) : IsNumber (Written.integer i) := by
  refine ⟨_, digitsOf i.natAbs, [], [], isSign_minus (i < 0), someDigits_digitsOf _, .inl rfl,
    .inl rfl, ?_⟩
  unfold Written.integer
  split <;> simp

end Literal

end UiMarkup
