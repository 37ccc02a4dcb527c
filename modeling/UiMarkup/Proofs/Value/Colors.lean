import UiMarkup.Proofs.Number.Scaling
import UiMarkup.Proofs.Text.Pieces
import UiMarkup.Proofs.Value.Tokens

/-!
# The grammar of colors

What texts write a color and which one: hex digits behind a `#`, numbers between
parentheses, or a name. The reader takes just these texts. The slices that it
takes by bytes lie inside of the text, and no channel is larger than a byte.
-/

namespace UiMarkup

open Literal
open Binary64 (IsRounded)

/-! ## Hex digits -/

/-- A digit in base 16, in either case, and what it is worth. -/
def IsHexDigit (c : Char) (n : Nat) : Prop :=
  n < 16 ∧ (c = Nat.digitChar n ∨ c = (Nat.digitChar n).toUpper)

/-- A byte as one digit or two, where a single digit stands for itself twice. -/
inductive WritesByte : List Char → Nat → Prop
  | one {c : Char} {n : Nat} : IsHexDigit c n → WritesByte [c] (17 * n)
  | two {c d : Char} {m n : Nat} : IsHexDigit c m → IsHexDigit d n → WritesByte [c, d] (16 * m + n)

/-- Slices side by side, each `width` bytes wide, write the channels. -/
def WritesChannels (hex : List Char) (width : Nat) (channels : List UInt8) : Prop :=
  byteLength hex = channels.length * width ∧
    ∀ i channel, channels[i]? = some channel →
      ∃ digits, Span.Slices ⟨i * width, (i + 1) * width⟩ hex digits ∧
        WritesByte digits channel.toNat

/-- What stands behind the `#` of a color. -/
inductive WritesHexColor : List Char → Color → Prop
  | three {hex : List Char} {r g b : UInt8} : WritesChannels hex 1 [r, g, b] →
      WritesHexColor hex ⟨r, g, b, 255⟩
  | six {hex : List Char} {r g b : UInt8} : WritesChannels hex 2 [r, g, b] →
      WritesHexColor hex ⟨r, g, b, 255⟩
  | eight {hex : List Char} {r g b a : UInt8} : WritesChannels hex 2 [r, g, b, a] →
      WritesHexColor hex ⟨r, g, b, a⟩

/-! ## Tuples -/

/-- The exact number that an integer or a float writes. -/
inductive WritesNumber : List Char → ℚ → Prop
  | integer {cs : List Char} {i : Int} : WritesInteger cs i → WritesNumber cs i
  | float {cs : List Char} {negative : Bool} {q : ℚ} : WritesFloat cs negative q →
      WritesNumber cs (if negative then -q else q)

/-- A number is rounded to a float from 0 to 1, and 255 times that, a float again,
to the whole number that the channel is. -/
def WritesAlpha (cs : List Char) (channel : UInt8) : Prop :=
  ∃ q alpha product, WritesNumber cs q ∧ IsRounded q alpha ∧ 0 ≤ alpha ∧ alpha ≤ 1 ∧
    IsRounded (255 * alpha) product ∧ channel.toNat = round product

/-- The trimmed pieces of a text between its commas. -/
def Parts (cs : List Char) (parts : List (List Char)) : Prop :=
  ∃ pieces, Pieces ',' cs pieces ∧ List.Forall₂ Trims pieces parts

/-- What stands between the parentheses of a color. -/
inductive WritesTupleColor : List Char → Color → Prop
  | three {inner red green blue : List Char} {r g b : UInt8} : Parts inner [red, green, blue] →
      WritesInteger red r.toNat → WritesInteger green g.toNat → WritesInteger blue b.toNat →
      WritesTupleColor inner ⟨r, g, b, 255⟩
  | four {inner red green blue alpha : List Char} {r g b a : UInt8} :
      Parts inner [red, green, blue, alpha] →
      WritesInteger red r.toNat → WritesInteger green g.toNat → WritesInteger blue b.toNat →
      WritesAlpha alpha a → WritesTupleColor inner ⟨r, g, b, a⟩

/-! ## Colors -/

inductive WritesColor : List Char → Color → Prop
  | hex {digits : List Char} {c : Color} : WritesHexColor digits c → WritesColor ('#' :: digits) c
  | tuple {inner : List Char} {c : Color} : WritesTupleColor inner c →
      WritesColor ('(' :: (inner ++ [')'])) c
  | named {text : List Char} {name : String} {c : Color} : (name, c) ∈ namedColors →
      foldCase text = foldCase name.toList → WritesColor text c

/-- One pair of quotes was taken away, if there is one in front and one behind. -/
inductive Unquotes : List Char → List Char → Prop
  | quoted {inner : List Char} : Unquotes ('"' :: (inner ++ ['"'])) inner
  | plain {cs : List Char} : (∀ inner, cs ≠ '"' :: (inner ++ ['"'])) → Unquotes cs cs

/-! ## Reading hex digits -/

theorem digitIn?_digitChar : ∀ n < 16,
    digitIn? 16 (Nat.digitChar n) = some n ∧ digitIn? 16 (Nat.digitChar n).toUpper = some n := by
  decide

theorem digitIn?_ascii : ∀ k < 128, ∀ n ∈ digitIn? 16 (Char.ofNat k),
    n < 16 ∧ (Char.ofNat k = Nat.digitChar n ∨ Char.ofNat k = (Nat.digitChar n).toUpper) := by
  decide +kernel

theorem lt_of_isAlphanum {c : Char} (h : c.isAlphanum) : c.toNat < 128 := by
  have hval : c.val.toNat = c.toNat := rfl
  simp only [Char.isAlphanum, Char.isAlpha, Char.isUpper, Char.isLower, Char.isDigit,
    Bool.or_eq_true, Bool.and_eq_true, decide_eq_true_eq, ge_iff_le, UInt32.le_iff_toNat_le,
    hval] at h
  simp at h
  omega

theorem digitIn?_eq_some_iff {c : Char} {n : Nat} : digitIn? 16 c = some n ↔ IsHexDigit c n := by
  constructor
  · intro h
    have hletter : c.isAlphanum := by
      by_contra hnone
      obtain ⟨halpha, hdigit⟩ : c.isAlpha = false ∧ c.isDigit = false := by
        simpa [Char.isAlphanum] using hnone
      simp [digitIn?, halpha, hdigit] at h
    have hascii := digitIn?_ascii c.toNat (lt_of_isAlphanum hletter) n
    rw [Char.ofNat_toNat] at hascii
    exact hascii h
  · rintro ⟨hn, rfl | rfl⟩
    · exact (digitIn?_digitChar n hn).1
    · exact (digitIn?_digitChar n hn).2

theorem utf8Size_of_isHexDigit {c : Char} {n : Nat} (h : IsHexDigit c n) : c.utf8Size = 1 := by
  have hsize : ∀ n < 16,
      (Nat.digitChar n).utf8Size = 1 ∧ (Nat.digitChar n).toUpper.utf8Size = 1 := by decide
  obtain ⟨hn, rfl | rfl⟩ := h
  · exact (hsize n hn).1
  · exact (hsize n hn).2

theorem mapM_digitIn?_iff {cs : List Char} {ns : List Nat} :
    cs.mapM (digitIn? 16) = some ns ↔ List.Forall₂ IsHexDigit cs ns := by
  induction cs generalizing ns with
  | nil => simp [eq_comm]
  | cons c cs ih =>
    simp only [List.mapM_cons, Option.bind_eq_bind, Option.bind_eq_some_iff, Option.pure_def,
      Option.some.injEq, digitIn?_eq_some_iff, ih, List.forall₂_cons_left_iff]
    constructor
    · rintro ⟨n, hn, ns, hns, rfl⟩
      exact ⟨n, ns, hn, hns, rfl⟩
    · rintro ⟨n, ns, hn, hns, rfl⟩
      exact ⟨n, hn, ns, hns, rfl⟩

/-- The digits of one channel. -/
def IsChannel (width : Nat) (digits : List Char) (channel : UInt8) : Prop :=
  byteLength digits = width ∧ WritesByte digits channel.toNat

theorem isChannel_one {digits : List Char} {channel : UInt8} :
    IsChannel 1 digits channel ↔
      ∃ c n, digits = [c] ∧ IsHexDigit c n ∧ channel = .ofNat (17 * n) := by
  constructor
  · rintro ⟨hwidth, hbyte⟩
    generalize hvalue : channel.toNat = value at hbyte
    cases hbyte with
    | one hc => exact ⟨_, _, rfl, hc, by rw [← hvalue, UInt8.ofNat_toNat]⟩
    | two hc hd =>
      simp [byteLength, utf8Size_of_isHexDigit hc, utf8Size_of_isHexDigit hd] at hwidth
  · rintro ⟨c, n, rfl, hc, rfl⟩
    have hn := hc.1
    refine ⟨by simp [byteLength, utf8Size_of_isHexDigit hc], ?_⟩
    rw [UInt8.toNat_ofNat_of_lt' (show 17 * n < 256 by omega)]
    exact .one hc

theorem isChannel_two {digits : List Char} {channel : UInt8} :
    IsChannel 2 digits channel ↔
      ∃ c d m n, digits = [c, d] ∧ IsHexDigit c m ∧ IsHexDigit d n ∧
        channel = .ofNat (16 * m + n) := by
  constructor
  · rintro ⟨hwidth, hbyte⟩
    generalize hvalue : channel.toNat = value at hbyte
    cases hbyte with
    | one hc => simp [byteLength, utf8Size_of_isHexDigit hc] at hwidth
    | two hc hd => exact ⟨_, _, _, _, rfl, hc, hd, by rw [← hvalue, UInt8.ofNat_toNat]⟩
  · rintro ⟨c, d, m, n, rfl, hc, hd, rfl⟩
    have hm := hc.1
    have hn := hd.1
    refine ⟨by simp [byteLength, utf8Size_of_isHexDigit hc, utf8Size_of_isHexDigit hd], ?_⟩
    rw [UInt8.toNat_ofNat_of_lt' (show 16 * m + n < 256 by omega)]
    exact .two hc hd

/-- From the slice number `i` on, the channels are written by the rest of the text. -/
theorem channelsFrom_iff {hex : List Char} {width : Nat} {channels : List UInt8} {i : Nat} :
    (byteLength hex = (i + channels.length) * width ∧
      ∀ k channel, channels[k]? = some channel →
        ∃ digits, Span.Slices ⟨(i + k) * width, (i + k + 1) * width⟩ hex digits ∧
          WritesByte digits channel.toNat) ↔
    ∃ texts : List (List Char), Span.Slices ⟨i * width, byteLength hex⟩ hex texts.flatten ∧
      List.Forall₂ (IsChannel width) texts channels := by
  induction channels generalizing i with
  | nil =>
    constructor
    · rintro ⟨hlength, -⟩
      refine ⟨[], ⟨hex, [], by simp, ?_, ?_⟩, .nil⟩ <;> simp_all [byteLength]
    · rintro ⟨texts, hslices, htexts⟩
      cases htexts
      obtain ⟨-, -, -, -, hstop⟩ := hslices
      simpa [byteLength] using hstop
  | cons channel channels ih =>
    have hnext : i * width + width = (i + 1) * width := (Nat.succ_mul i width).symm
    have hshift (k : Nat) : i + (k + 1) = i + 1 + k := by omega
    constructor
    · rintro ⟨hlength, hchannels⟩
      obtain ⟨digits, hdigits, hbyte⟩ := hchannels 0 channel rfl
      have hwidth : byteLength digits = width := by
        obtain ⟨-, -, -, -, hstop⟩ := hdigits
        simp only [Nat.add_zero] at hstop
        omega
      rw [List.length_cons, hshift] at hlength
      obtain ⟨texts, htexts, hmore⟩ := ih.mp ⟨hlength, fun k other h => by
        rw [← hshift]
        exact hchannels (k + 1) other h⟩
      refine ⟨digits :: texts, ?_, .cons ⟨hwidth, hbyte⟩ hmore⟩
      rw [List.flatten_cons, Span.Slices.append_iff, hwidth, hnext]
      exact ⟨hdigits, htexts⟩
    · rintro ⟨texts, hslices, htexts⟩
      cases htexts with
      | @cons digits _ texts _ hdigits hmore =>
        rw [List.flatten_cons, Span.Slices.append_iff, hdigits.1, hnext] at hslices
        obtain ⟨hlength, hrest⟩ := ih.mpr ⟨texts, hslices.2, hmore⟩
        refine ⟨by rw [List.length_cons, hshift, hlength], fun k other h => ?_⟩
        cases k with
        | zero =>
          cases h
          exact ⟨digits, hslices.1, hdigits.2⟩
        | succ k =>
          rw [hshift]
          exact hrest k other h

theorem writesChannels_iff {hex : List Char} {width : Nat} {channels : List UInt8} :
    WritesChannels hex width channels ↔
      ∃ texts : List (List Char), hex = texts.flatten ∧
        List.Forall₂ (IsChannel width) texts channels := by
  have hfirst := @channelsFrom_iff hex width channels 0
  simp only [Nat.zero_add, Nat.zero_mul] at hfirst
  refine hfirst.trans (exists_congr fun texts => and_congr_left fun _ => ?_)
  constructor
  · exact fun h => (Span.Slices.whole_iff.mpr rfl).unique h
  · rintro rfl
    exact Span.Slices.whole_iff.mpr rfl

theorem readHexColor_eq_ok_iff_digits {hex : List Char} {c : Color} :
    readHexColor hex = .ok c ↔ ∃ ns, List.Forall₂ IsHexDigit hex ns ∧ ofHexDigits ns = .ok c := by
  simp only [← mapM_digitIn?_iff]
  unfold readHexColor
  cases hex.mapM (digitIn? 16) <;> simp

theorem writesHexColor_of_digits {hex : List Char} {ns : List Nat} {c : Color}
    (hns : List.Forall₂ IsHexDigit hex ns) (h : ofHexDigits ns = .ok c) : WritesHexColor hex c := by
  have single {x : Char} {n : Nat} (hx : IsHexDigit x n) : IsChannel 1 [x] (.ofNat (17 * n)) :=
    isChannel_one.mpr ⟨x, n, rfl, hx, rfl⟩
  have double {x y : Char} {m n : Nat} (hx : IsHexDigit x m) (hy : IsHexDigit y n) :
      IsChannel 2 [x, y] (.ofNat (16 * m + n)) :=
    isChannel_two.mpr ⟨x, y, m, n, rfl, hx, hy, rfl⟩
  unfold ofHexDigits at h
  split at h
  · cases h
    obtain _ | ⟨hr, _ | ⟨hg, _ | ⟨hb, ⟨⟩⟩⟩⟩ := hns
    exact .three (writesChannels_iff.mpr
      ⟨_, rfl, .cons (single hr) (.cons (single hg) (.cons (single hb) .nil))⟩)
  · cases h
    obtain _ | ⟨hr, _ | ⟨hr', _ | ⟨hg, _ | ⟨hg', _ | ⟨hb, _ | ⟨hb', ⟨⟩⟩⟩⟩⟩⟩⟩ := hns
    exact .six (writesChannels_iff.mpr
      ⟨_, rfl, .cons (double hr hr') (.cons (double hg hg') (.cons (double hb hb') .nil))⟩)
  · cases h
    obtain _ | ⟨hr, _ | ⟨hr', _ | ⟨hg, _ | ⟨hg', hns⟩⟩⟩⟩ := hns
    obtain _ | ⟨hb, _ | ⟨hb', _ | ⟨ha, _ | ⟨ha', ⟨⟩⟩⟩⟩⟩ := hns
    exact .eight (writesChannels_iff.mpr
      ⟨_, rfl, .cons (double hr hr') (.cons (double hg hg') (.cons (double hb hb')
        (.cons (double ha ha') .nil)))⟩)
  · cases h

theorem digits_of_writesHexColor {hex : List Char} {c : Color} (h : WritesHexColor hex c) :
    ∃ ns, List.Forall₂ IsHexDigit hex ns ∧ ofHexDigits ns = .ok c := by
  cases h with
  | three h =>
    obtain ⟨_, rfl, _ | ⟨hred, _ | ⟨hgreen, _ | ⟨hblue, ⟨⟩⟩⟩⟩⟩ := writesChannels_iff.mp h
    obtain ⟨_, _, rfl, hr, rfl⟩ := isChannel_one.mp hred
    obtain ⟨_, _, rfl, hg, rfl⟩ := isChannel_one.mp hgreen
    obtain ⟨_, _, rfl, hb, rfl⟩ := isChannel_one.mp hblue
    exact ⟨_, .cons hr (.cons hg (.cons hb .nil)), rfl⟩
  | six h =>
    obtain ⟨_, rfl, _ | ⟨hred, _ | ⟨hgreen, _ | ⟨hblue, ⟨⟩⟩⟩⟩⟩ := writesChannels_iff.mp h
    obtain ⟨_, _, _, _, rfl, hr, hr', rfl⟩ := isChannel_two.mp hred
    obtain ⟨_, _, _, _, rfl, hg, hg', rfl⟩ := isChannel_two.mp hgreen
    obtain ⟨_, _, _, _, rfl, hb, hb', rfl⟩ := isChannel_two.mp hblue
    exact ⟨_, .cons hr (.cons hr' (.cons hg (.cons hg' (.cons hb (.cons hb' .nil))))), rfl⟩
  | eight h =>
    obtain ⟨_, rfl, hall⟩ := writesChannels_iff.mp h
    obtain _ | ⟨hred, _ | ⟨hgreen, _ | ⟨hblue, _ | ⟨halpha, ⟨⟩⟩⟩⟩⟩ := hall
    obtain ⟨_, _, _, _, rfl, hr, hr', rfl⟩ := isChannel_two.mp hred
    obtain ⟨_, _, _, _, rfl, hg, hg', rfl⟩ := isChannel_two.mp hgreen
    obtain ⟨_, _, _, _, rfl, hb, hb', rfl⟩ := isChannel_two.mp hblue
    obtain ⟨_, _, _, _, rfl, ha, ha', rfl⟩ := isChannel_two.mp halpha
    exact ⟨_, .cons hr (.cons hr' (.cons hg (.cons hg' (.cons hb (.cons hb' (.cons ha (.cons ha'
      .nil))))))), rfl⟩

theorem readHexColor_eq_ok_iff {hex : List Char} {c : Color} :
    readHexColor hex = .ok c ↔ WritesHexColor hex c := by
  rw [readHexColor_eq_ok_iff_digits]
  constructor
  · rintro ⟨ns, hns, h⟩
    exact writesHexColor_of_digits hns h
  · exact digits_of_writesHexColor

/-! ## Reading tuples -/

theorem WritesFloat.nonneg {cs : List Char} {negative : Bool} {q : ℚ}
    (h : WritesFloat cs negative q) : 0 ≤ q := by
  obtain ⟨-, -, hpart, -, -⟩ := h
  cases hpart <;> positivity

theorem readAlphaNumber_eq_ok {cs : List Char} {x : Binary64} (h : readAlphaNumber cs = .ok x) :
    ∃ q, WritesNumber cs q ∧ IsRounded q x.value := by
  unfold readAlphaNumber at h
  split at h
  next hfloat =>
    cases h
    obtain ⟨-, q, hq, hnearest⟩ := readFloat_eq_ok_iff.mp hfloat
    exact ⟨_, .float hq, Binary64.isRounded_value hq.nonneg hnearest⟩
  next =>
    split at h
    next i hinteger =>
      cases h
      exact ⟨_, .integer (readInteger_eq_ok_iff.mp hinteger), Binary64.isRounded_ofInt _⟩
    next => cases h

/-- No text is an integer as well as a float, so it does not matter which is tried first. -/
theorem readAlphaNumber_integer {cs : List Char} {i : Int64} (h : WritesInteger cs i.toInt) :
    readAlphaNumber cs = .ok (Binary64.ofInt i.toInt) := by
  rw [readAlphaNumber, readInteger_eq_ok_iff.mpr h]
  split
  next hfloat =>
    obtain ⟨-, q, hq, -⟩ := readFloat_eq_ok_iff.mp hfloat
    exact absurd h (not_writesInteger_of_writesFloat hq)
  next => rfl

/-- A number that is rounded to one from 0 to 1 is in range of its type. -/
theorem exists_readAlphaNumber {cs : List Char} {q v : ℚ} (h : WritesNumber cs q)
    (hv : IsRounded q v) (hnonneg : 0 ≤ v) (hone : v ≤ 1) :
    ∃ x, readAlphaNumber cs = .ok x ∧ x.value = v := by
  have hplace : ∃ count, Binary64.IsNearest |q| count ∧ Binary64.place count ≤ 1 := by
    obtain ⟨count, hcount, rfl⟩ := hv
    refine ⟨count, hcount, ?_⟩
    split at hnonneg
    · linarith
    next hq => rwa [if_neg hq] at hone
  obtain ⟨count, hcount, hle⟩ := hplace
  cases h with
  | @integer i hinteger =>
    have hi : |i| < 2 := by exact_mod_cast Binary64.lt_two_of_isNearest hcount hle
    obtain ⟨hmin, hmax⟩ := abs_lt.mp hi
    have htoInt : (Int64.ofInt i).toInt = i := Int64.toInt_ofInt_of_le (by omega) (by omega)
    rw [← htoInt] at hinteger hv
    exact ⟨_, readAlphaNumber_integer hinteger, (Binary64.isRounded_ofInt _).unique hv⟩
  | @float negative q hfloat =>
    have habs : |if negative then -q else q| = q := by
      split <;> simp [abs_of_nonneg hfloat.nonneg]
    rw [habs] at hcount
    have hone : count ≤ Binary64.oneCount :=
      Binary64.place_strictMono.le_iff_le.mp (hle.trans_eq Binary64.place_oneCount.symm)
    have hfinite : Binary64.oneCount < Binary64.infinityCount := by decide
    have hlimit : Binary64.infinityCount < twoTo 63 := by decide
    let x : Binary64 := ⟨negative, count, by omega⟩
    have hread : readFloat cs = .ok x :=
      readFloat_eq_ok_iff.mpr ⟨by simp [x, Binary64.isFinite]; omega, q, hfloat, hcount⟩
    refine ⟨x, by rw [readAlphaNumber, hread], ?_⟩
    exact (Binary64.isRounded_value (x := x) hfloat.nonneg hcount).unique hv

theorem readAlpha_of_number {cs : List Char} {x : Binary64} (h : readAlphaNumber cs = .ok x) :
    readAlpha cs = if x.isUnitValue then .ok (.ofNat x.scaled255) else .error .alphaRange := by
  rw [readAlpha, h]
  rfl

theorem readAlpha_eq_ok_iff {cs : List Char} {a : UInt8} :
    readAlpha cs = .ok a ↔ WritesAlpha cs a := by
  constructor
  · intro h
    cases hread : readAlphaNumber cs with
    | error r =>
      rw [readAlpha, hread] at h
      cases h
    | ok x =>
      rw [readAlpha_of_number hread] at h
      split at h
      next hunit =>
        cases h
        obtain ⟨q, hq, hvalue⟩ := readAlphaNumber_eq_ok hread
        obtain ⟨hnonneg, hone⟩ := Binary64.isUnitValue_iff.mp hunit
        obtain ⟨product, hproduct, hround, hle⟩ := Binary64.isRounded_scaled255 hunit
        refine ⟨q, x.value, product, hq, hvalue, hnonneg, hone, hproduct, ?_⟩
        rwa [UInt8.toNat_ofNat_of_lt' (Nat.lt_succ_of_le hle)]
      next => cases h
  · rintro ⟨q, alpha, product, hnumber, halpha, hnonneg, hone, hproduct, ha⟩
    obtain ⟨x, hread, rfl⟩ := exists_readAlphaNumber hnumber halpha hnonneg hone
    have hunit := Binary64.isUnitValue_iff.mpr ⟨hnonneg, hone⟩
    obtain ⟨product', hproduct', hround, -⟩ := Binary64.isRounded_scaled255 hunit
    rw [hproduct.unique hproduct', ← hround, Nat.cast_inj] at ha
    rw [readAlpha_of_number hread, if_pos hunit, ← ha, UInt8.ofNat_toNat]

theorem readChannel_eq_ok_iff {cs : List Char} {channel : UInt8} :
    readChannel cs = .ok channel ↔ WritesInteger cs channel.toNat := by
  constructor
  · intro h
    unfold readChannel at h
    split at h
    · cases h
    next i hread =>
      split at h
      next hrange =>
        cases h
        have hlarge : i.toInt.toNat < 256 := by omega
        rw [UInt8.toNat_ofNat_of_lt' hlarge, Int.toNat_of_nonneg hrange.1]
        exact readInteger_eq_ok_iff.mp hread
      next => cases h
  · intro h
    have hlarge := channel.toNat_lt
    have htoInt : (Int64.ofInt channel.toNat).toInt = channel.toNat :=
      Int64.toInt_ofInt_of_le (by omega) (by omega)
    rw [← htoInt] at h
    have hrange : (0 : Int) ≤ channel.toNat ∧ (channel.toNat : Int) ≤ 255 := by omega
    simp only [readChannel, readInteger_eq_ok_iff.mpr h, htoInt, if_pos hrange, Int.toNat_natCast,
      UInt8.ofNat_toNat]

theorem parts_iff {cs : List Char} {parts : List (List Char)} :
    (piecesAt ',' cs).map trimBlank = parts ↔ Parts cs parts := by
  have htrims : Trims = fun piece part => trimBlank piece = part :=
    funext₂ fun _ _ => propext trimBlank_eq_iff.symm
  simp only [Parts, ← piecesAt_eq_iff, exists_eq_left']
  rw [htrims, ← List.forall₂_map_left_iff, List.forall₂_eq_eq_eq]

theorem WritesInteger.ne_nil {cs : List Char} {i : Int} (h : WritesInteger cs i) : cs ≠ [] := by
  cases h with
  | unsigned hdigits => exact hdigits.1
  | plus _ => simp
  | minus _ => simp

theorem WritesAlpha.ne_nil {cs : List Char} {a : UInt8} (h : WritesAlpha cs a) : cs ≠ [] := by
  obtain ⟨q, -, -, hnumber, -⟩ := h
  cases hnumber with
  | integer hinteger => exact hinteger.ne_nil
  | float hfloat =>
    obtain ⟨-, hdigits, -⟩ := hfloat
    simp [hdigits.1]

theorem readTupleColor_eq_ok_iff {inner : List Char} {c : Color} :
    readTupleColor inner = .ok c ↔ WritesTupleColor inner c := by
  constructor
  · intro h
    unfold readTupleColor at h
    split at h
    next r g b hparts =>
      split at h
      · cases h
      · simp only [bind_eq_ok_iff, readChannel_eq_ok_iff] at h
        obtain ⟨_, hr, _, hg, _, hb, ⟨⟩⟩ := h
        exact .three (parts_iff.mp hparts) hr hg hb
    next r g b a hparts =>
      split at h
      · cases h
      · simp only [bind_eq_ok_iff, readChannel_eq_ok_iff, readAlpha_eq_ok_iff] at h
        obtain ⟨_, hr, _, hg, _, hb, _, ha, ⟨⟩⟩ := h
        exact .four (parts_iff.mp hparts) hr hg hb ha
    next => cases h
  · intro h
    cases h with
    | three hparts hr hg hb =>
      simp [readTupleColor, parts_iff.mpr hparts, hr.ne_nil, hg.ne_nil, hb.ne_nil,
        readChannel_eq_ok_iff.mpr hr, readChannel_eq_ok_iff.mpr hg, readChannel_eq_ok_iff.mpr hb]
      rfl
    | four hparts hr hg hb ha =>
      simp [readTupleColor, parts_iff.mpr hparts, hr.ne_nil, hg.ne_nil, hb.ne_nil, ha.ne_nil,
        readChannel_eq_ok_iff.mpr hr, readChannel_eq_ok_iff.mpr hg, readChannel_eq_ok_iff.mpr hb,
        readAlpha_eq_ok_iff.mpr ha]
      rfl

/-- A float is cut at the mark of its exponent, between two characters. -/
theorem slices_ofText {part exponent : List Char}
    (h : (FloatParts.ofText part).exponent = some exponent) :
    ∃ n, Span.Slices ⟨0, n⟩ (takeSign part).2
        ((FloatParts.ofText part).whole ++ (FloatParts.ofText part).fraction.elim [] ('.' :: ·)) ∧
      Span.Slices ⟨n + 1, byteLength (takeSign part).2⟩ (takeSign part).2 exponent := by
  obtain ⟨mark, hmark, hpart⟩ := FloatParts.exists_ofText part
  have hbody := List.append_cancel_left (hpart.trans (takeSign_append part).symm)
  have hsize : mark.utf8Size = 1 := by
    rcases hmark with rfl | rfl <;> rfl
  rw [h, Option.elim_some, ← List.append_assoc] at hbody
  rw [← hbody]
  generalize (FloatParts.ofText part).whole ++ _ = mantissa
  refine ⟨byteLength mantissa, ⟨[], _, rfl, rfl, (Nat.zero_add _).symm⟩,
    mantissa ++ [mark], [], by simp, ?_, ?_⟩
  · simp [byteLength, hsize]
  · simp [byteLength, hsize, Nat.add_assoc]

/-! ## Reading colors -/

theorem tupleInner?_eq_some_iff {cs inner : List Char} :
    tupleInner? cs = some inner ↔ cs = '(' :: (inner ++ [')']) := by
  unfold tupleInner?
  split
  next cs => rw [dropLast_eq_some_iff, List.cons.injEq, and_iff_right rfl]
  next hplain =>
    refine iff_of_false (by simp) ?_
    rintro rfl
    exact hplain _ rfl

theorem unquoted_eq_iff {cs inner : List Char} : unquoted cs = inner ↔ Unquotes cs inner := by
  constructor
  · rintro rfl
    unfold unquoted
    cases hquotes : unquote? cs with
    | none =>
      refine .plain fun inner hcs => ?_
      rw [unquote?_eq_some_iff.mpr hcs] at hquotes
      cases hquotes
    | some inner =>
      rw [unquote?_eq_some_iff.mp hquotes]
      exact .quoted
  · intro h
    cases h with
    | quoted => rw [unquoted, unquote?_eq_some_iff.mpr rfl, Option.getD_some]
    | plain hplain =>
      have hnone : unquote? cs = none := Option.eq_none_iff_forall_ne_some.mpr fun inner hquotes =>
        hplain inner (unquote?_eq_some_iff.mp hquotes)
      rw [unquoted, hnone, Option.getD_none]

theorem lookup_namedColors : ∀ p ∈ namedColors,
    foldCase p.1.toList = p.1.toList ∧ namedColors.lookup p.1 = some p.2 := by
  decide +kernel

theorem namedColor?_eq_some_iff {text : List Char} {c : Color} :
    namedColor? text = some c ↔
      ∃ name, (name, c) ∈ namedColors ∧ foldCase text = foldCase name.toList := by
  constructor
  · intro h
    obtain ⟨front, back, hnames, -⟩ := List.lookup_eq_some_iff.mp h
    have hmem : (String.ofList (foldCase text), c) ∈ namedColors := by simp [hnames]
    refine ⟨_, hmem, ?_⟩
    rw [(lookup_namedColors _ hmem).1, String.toList_ofList]
  · rintro ⟨name, hmem, hfold⟩
    obtain ⟨hname, hlookup⟩ := lookup_namedColors _ hmem
    rw [namedColor?, hfold, hname, String.ofList_toList, hlookup]

theorem namedColors_letters : ∀ p ∈ namedColors, p.1.toList.all Char.isAlpha := by
  decide +kernel

/-- No name begins like one of the other forms. -/
theorem isAlpha_of_named {c : Char} {cs : List Char} {name : String} {color : Color}
    (hmem : (name, color) ∈ namedColors) (h : foldCase (c :: cs) = foldCase name.toList) :
    c.isAlpha := by
  cases hname : name.toList with
  | nil => simp [hname, foldCase] at h
  | cons d ds =>
    have hd : d.isAlpha :=
      List.all_eq_true.mp (namedColors_letters _ hmem) d (hname ▸ List.mem_cons_self)
    have hlower : c.toLower = d.toLower := by
      rw [hname] at h
      exact (List.cons.inj h).1
    rw [← Char.isAlpha_toLower_eq_isAlpha, hlower, Char.isAlpha_toLower_eq_isAlpha]
    exact hd

theorem readColor_eq_ok_iff {cs : List Char} {c : Color} :
    readColor cs = .ok c ↔ ∃ inner text, Unquotes cs inner ∧ Trims inner text ∧
      WritesColor text c := by
  simp only [← unquoted_eq_iff, ← trimBlank_eq_iff, exists_and_left, exists_eq_left']
  unfold readColor
  generalize trimBlank (unquoted cs) = text
  constructor
  · intro h
    simp only at h
    split at h
    · exact .hex (readHexColor_eq_ok_iff.mp h)
    next =>
      split at h
      next inner htuple =>
        obtain rfl := tupleInner?_eq_some_iff.mp htuple
        exact .tuple (readTupleColor_eq_ok_iff.mp h)
      next =>
        split at h
        next hnamed =>
          cases h
          obtain ⟨name, hmem, hfold⟩ := namedColor?_eq_some_iff.mp hnamed
          exact .named hmem hfold
        next => cases h
  · intro h
    cases h with
    | hex hdigits => exact readHexColor_eq_ok_iff.mpr hdigits
    | tuple hinner =>
      simp only [tupleInner?_eq_some_iff.mpr rfl]
      exact readTupleColor_eq_ok_iff.mpr hinner
    | named hmem hfold =>
      have htuple : tupleInner? text = none := by
        refine Option.eq_none_iff_forall_ne_some.mpr fun inner hinner => ?_
        obtain rfl := tupleInner?_eq_some_iff.mp hinner
        exact absurd (isAlpha_of_named hmem hfold) (by decide)
      simp only [htuple, namedColor?_eq_some_iff.mpr ⟨_, hmem, hfold⟩]
      split
      · exact absurd (isAlpha_of_named hmem hfold) (by decide)
      · rfl

end UiMarkup
