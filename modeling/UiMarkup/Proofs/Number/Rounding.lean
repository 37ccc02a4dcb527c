import Mathlib.Data.Nat.Find
import Mathlib.Order.Monotone.Basic
import UiMarkup.Number.Shortest

/-!
# The shortest decimal rounds back

The borders between neighbours rise with the count. So every fraction rounds to
one number, the one whose borders it lies between, and the decimal that a number
is written with rounds to that number.
-/

namespace UiMarkup

theorem tenTo_pos (n : Nat) : 0 < tenTo n := Nat.pow_pos (by decide)

theorem tenTo_add (m n : Nat) : tenTo (m + n) = tenTo m * tenTo n := Nat.pow_add ..

theorem tenTo_eq (n : Nat) : tenTo n = twoTo n * Nat.pow 5 n := Nat.mul_pow 2 5 n

theorem tenTo_le_tenTo {m n : Nat} (h : m ≤ n) : tenTo m ≤ tenTo n :=
  Nat.pow_le_pow_right (by decide) h

/-! ## Digits and fractions -/

theorem ofDigits_digitsOf (n : Nat) : ofDigits (digitsOf n) = n := Nat.ofDigitChars_ten_toDigits

theorem lt_tenTo_length (n : Nat) : n < tenTo (digitsOf n).length :=
  (Nat.length_toDigits_le_iff (by decide) Nat.length_toDigits_pos).mp (Nat.le_refl _)

theorem tenTo_le_of_length {n k : Nat} (hn : n ≠ 0) (h : k < (digitsOf n).length) :
    tenTo k ≤ n := by
  cases k with
  | zero => exact Nat.one_le_iff_ne_zero.mpr hn
  | succ k =>
    have hlength := Nat.length_toDigits_le_iff (b := 10) (n := n) (by decide) (Nat.succ_pos k)
    exact Nat.le_of_not_lt fun hlt => Nat.not_le_of_lt h (hlength.mpr hlt)

namespace Decimal

theorem denominator_pos (d : Decimal) : 0 < d.denominator := tenTo_pos _

@[simp] theorem numerator_neg (c n : Nat) : (mk c (-n)).numerator = c := by
  simp [numerator, tenTo]

@[simp] theorem denominator_neg (c n : Nat) : (mk c (-n)).denominator = tenTo n := by
  simp [denominator]

/-- The same value, with zeros at the end of the coefficient in place of a larger exponent. -/
def IsShiftOf (d d' : Decimal) : Prop :=
  ∃ k : Nat, d.coefficient = d'.coefficient * tenTo k ∧ d'.exponent = d.exponent + k

theorem IsShiftOf.fraction {d d' : Decimal} (h : d.IsShiftOf d') :
    d.numerator * d'.denominator = d'.numerator * d.denominator := by
  obtain ⟨k, hcoefficient, hexponent⟩ := h
  have hexponents :
      k + d.exponent.toNat + (-(d.exponent + k)).toNat =
        (d.exponent + k).toNat + (-d.exponent).toNat := by omega
  have hpowers := congrArg tenTo hexponents
  rw [tenTo_add, tenTo_add, tenTo_add] at hpowers
  simp only [numerator, denominator, hcoefficient, hexponent, Nat.mul_assoc] at hpowers ⊢
  rw [hpowers]

/-- A decimal of magnitude beyond `n` is at least the power of ten before it. -/
theorem le_numerator {d : Decimal} {n : Nat} (hd : d.coefficient ≠ 0) (h : n < d.magnitude) :
    d.denominator * tenTo n ≤ d.numerator := by
  have hlength : (digitsOf d.coefficient).length - 1 < (digitsOf d.coefficient).length :=
    Nat.sub_lt (Nat.length_toDigits_pos) Nat.one_pos
  have hfirst := tenTo_le_of_length hd hlength
  unfold magnitude at h
  have hexponents : (-d.exponent).toNat + n ≤
      (digitsOf d.coefficient).length - 1 + d.exponent.toNat := by omega
  calc d.denominator * tenTo n = tenTo ((-d.exponent).toNat + n) := (tenTo_add _ _).symm
    _ ≤ tenTo ((digitsOf d.coefficient).length - 1 + d.exponent.toNat) := tenTo_le_tenTo hexponents
    _ = tenTo ((digitsOf d.coefficient).length - 1) * tenTo d.exponent.toNat := tenTo_add _ _
    _ ≤ d.numerator := Nat.mul_le_mul_right _ hfirst

theorem numerator_le {d : Decimal} {n : Nat} (h : d.magnitude ≤ -n) :
    d.numerator * tenTo n ≤ d.denominator := by
  have hlast := Nat.le_of_lt (lt_tenTo_length d.coefficient)
  unfold magnitude at h
  have hexponents : (digitsOf d.coefficient).length + d.exponent.toNat + n ≤
      (-d.exponent).toNat := by omega
  calc d.numerator * tenTo n
      ≤ tenTo (digitsOf d.coefficient).length * tenTo d.exponent.toNat * tenTo n :=
        Nat.mul_le_mul_right _ (Nat.mul_le_mul_right _ hlast)
    _ = tenTo ((digitsOf d.coefficient).length + d.exponent.toNat + n) := by
        rw [tenTo_add, tenTo_add]
    _ ≤ d.denominator := tenTo_le_tenTo hexponents

end Decimal

namespace Binary64

/-! ## Borders -/

theorem units_lt_succ (count : Nat) : units count < units (count + 1) := by
  have hstep : twoTo 52 = 4503599627370496 := by decide
  unfold units
  rw [hstep]
  by_cases hsubnormal : count < 4503599627370496
  · rw [if_pos hsubnormal]
    split
    · omega
    · have hfirst : count + 1 = 4503599627370496 := by omega
      simp [hfirst]
      omega
  · rw [if_neg hsubnormal, if_neg (by omega)]
    by_cases hlast : count % 4503599627370496 + 1 < 4503599627370496
    · have hmod : (count + 1) % 4503599627370496 = count % 4503599627370496 + 1 := by omega
      have hdiv : (count + 1) / 4503599627370496 = count / 4503599627370496 := by omega
      rw [hmod, hdiv]
      exact Nat.mul_lt_mul_of_pos_right (by omega) (twoTo_pos _)
    · have hmod : (count + 1) % 4503599627370496 = 0 := by omega
      have hdiv : (count + 1) / 4503599627370496 - 1 = count / 4503599627370496 - 1 + 1 := by omega
      have hpos := twoTo_pos (count / 4503599627370496 - 1)
      have hcount : count % 4503599627370496 = 4503599627370495 := by omega
      rw [hmod, hdiv, hcount, twoTo_succ]
      omega

theorem units_strictMono : StrictMono units := strictMono_nat_of_lt_succ units_lt_succ

/-- Twice the place of the border between a number and the next one, in units. -/
def border (count : Nat) : Nat := units count + units (count + 1)

theorem border_strictMono : StrictMono border := fun _ _ h =>
  Nat.add_lt_add (units_strictMono h) (units_strictMono (Nat.succ_lt_succ h))

theorem isBehind_iff {num den count : Nat} :
    isBehind num den count ↔ count < infinityCount ∧
      (den * border count < twoTo 1075 * num ∨
        den * border count = twoTo 1075 * num ∧ count % 2 = 1) := by
  simp [isBehind, border]

theorem isBehind_of_le {num den i j : Nat} (hden : 0 < den) (h : isBehind num den j)
    (hij : i ≤ j) : isBehind num den i := by
  rcases Nat.eq_or_lt_of_le hij with rfl | hlt
  · exact h
  · obtain ⟨hfinite, hborder⟩ := isBehind_iff.mp h
    have hrises := Nat.mul_lt_mul_of_pos_left (border_strictMono hlt) hden
    refine isBehind_iff.mpr ⟨by omega, .inl ?_⟩
    rcases hborder with hborder | ⟨hborder, -⟩ <;> omega

/-- Only the value of the fraction counts. -/
theorem isBehind_congr {num den num' den' : Nat} (hden : 0 < den) (hden' : 0 < den')
    (h : num * den' = num' * den) (count : Nat) :
    isBehind num den count ↔ isBehind num' den' count := by
  have hcross : den' * (twoTo 1075 * num) = den * (twoTo 1075 * num') := by
    rw [Nat.mul_left_comm, Nat.mul_comm den', h, Nat.mul_left_comm den, Nat.mul_comm den]
  have hborder : den' * (den * border count) = den * (den' * border count) := Nat.mul_left_comm ..
  have hlt : den * border count < twoTo 1075 * num ↔ den' * border count < twoTo 1075 * num' := by
    rw [← Nat.mul_lt_mul_left hden', hborder, hcross, Nat.mul_lt_mul_left hden]
  have heq : den * border count = twoTo 1075 * num ↔ den' * border count = twoTo 1075 * num' := by
    rw [← Nat.mul_right_inj (Nat.ne_of_gt hden'), hborder, hcross,
      Nat.mul_right_inj (Nat.ne_of_gt hden)]
  rw [isBehind_iff, isBehind_iff, hlt, heq]

/-! ## Rounding -/

/-- A fraction lies between the borders of the number with this count. -/
def RoundsTo (num den count : Nat) : Prop :=
  ¬ isBehind num den count ∧ (count = 0 ∨ isBehind num den (count - 1))

theorem readsBack_iff {count : Nat} {d : Decimal} :
    readsBack count d ↔ RoundsTo d.numerator d.denominator count := by
  simp [readsBack, RoundsTo]

theorem RoundsTo.congr {num den num' den' count : Nat} (h : RoundsTo num den count)
    (hden : 0 < den) (hden' : 0 < den') (heq : num * den' = num' * den) :
    RoundsTo num' den' count := by
  unfold RoundsTo at h ⊢
  rwa [isBehind_congr hden hden' heq, isBehind_congr hden hden' heq] at h

theorem RoundsTo.isBehind_iff {num den count : Nat} (h : RoundsTo num den count)
    (hden : 0 < den) (other : Nat) : isBehind num den other ↔ other < count := by
  obtain ⟨hfront, hback⟩ := h
  constructor
  · intro hother
    exact Nat.lt_of_not_le fun hle => hfront (isBehind_of_le hden hother hle)
  · intro hlt
    rcases hback with rfl | hback
    · omega
    · exact isBehind_of_le hden hback (by omega)

theorem RoundsTo.unique {num den count count' : Nat} (hden : 0 < den)
    (h : RoundsTo num den count) (h' : RoundsTo num den count') : count = count' := by
  have hbehind (other : Nat) : other < count ↔ other < count' :=
    (h.isBehind_iff hden other).symm.trans (h'.isBehind_iff hden other)
  have hfront := hbehind count
  have hback := hbehind count'
  omega

theorem not_isBehind_infinity (num den : Nat) : ¬ isBehind num den infinityCount := by
  rw [Binary64.isBehind_iff]
  omega

/-- No fraction is too large to round to something. -/
theorem exists_roundsTo (num den : Nat) : ∃ count ≤ infinityCount, RoundsTo num den count := by
  have hends : ∃ count, ¬ isBehind num den count := ⟨_, not_isBehind_infinity num den⟩
  refine ⟨Nat.find hends, Nat.find_min' hends (not_isBehind_infinity num den),
    Nat.find_spec hends, ?_⟩
  rcases Nat.eq_zero_or_pos (Nat.find hends) with hzero | hpos
  · exact .inl hzero
  · exact .inr (Classical.not_not.mp (Nat.find_min hends (Nat.sub_lt hpos Nat.one_pos)))

theorem search_eq {num den target : Nat} (h : ∀ count, isBehind num den count ↔ count < target)
    (bits count : Nat) (hle : count ≤ target) (hlt : target < count + twoTo bits) :
    search num den bits count = target := by
  induction bits generalizing count with
  | zero =>
    rw [search]
    rw [twoTo_zero] at hlt
    omega
  | succ bits ih =>
    have hpos := twoTo_pos bits
    rw [twoTo_succ] at hlt
    rw [search]
    split
    next hbehind =>
      rw [h] at hbehind
      exact ih _ (by omega) (by omega)
    next hbehind =>
      rw [h] at hbehind
      exact ih _ hle (by omega)

theorem nearest_eq {x : Binary64} {num den : Nat} (hden : 0 < den)
    (h : RoundsTo num den x.count) : nearest x.negative num den = x := by
  obtain ⟨negative, count, hcount⟩ := x
  have hsearch := search_eq (h.isBehind_iff hden) 63 0 (Nat.zero_le _) (by simpa using hcount)
  simp [nearest, hsearch]

theorem roundsTo_nearest {num den : Nat} (hden : 0 < den) (negative : Bool) :
    RoundsTo num den (nearest negative num den).count := by
  obtain ⟨count, hle, hrounds⟩ := exists_roundsTo num den
  have hinfinity : infinityCount < twoTo 63 := by decide
  rw [nearest_eq (x := ⟨negative, count, by omega⟩) hden hrounds]
  exact hrounds

theorem roundsTo_shift {d d' : Decimal} (h : d.IsShiftOf d') (count : Nat) :
    RoundsTo d.numerator d.denominator count ↔ RoundsTo d'.numerator d'.denominator count :=
  ⟨fun hd => hd.congr d.denominator_pos d'.denominator_pos h.fraction,
    fun hd => hd.congr d'.denominator_pos d.denominator_pos h.fraction.symm⟩

/-- What is below half a unit rounds to zero. -/
theorem roundsTo_zero {num den : Nat} (h : twoTo 1075 * num < den) : RoundsTo num den 0 := by
  have hborder : border 0 = 1 := by decide
  refine ⟨?_, .inl rfl⟩
  rw [isBehind_iff, hborder, Nat.mul_one]
  omega

theorem zero_roundsTo_zero {den : Nat} (hden : 0 < den) : RoundsTo 0 den 0 :=
  roundsTo_zero (by rwa [Nat.mul_zero])

/-! ## Decimals -/

theorem twoTo_1024_lt : twoTo 1024 < tenTo 310 := by decide +kernel

theorem twoTo_1075_lt : twoTo 1075 < tenTo 330 := by decide +kernel

theorem border_lt {count : Nat} (h : count < infinityCount) :
    border count < twoTo 1075 * twoTo 1024 := by
  have hlast : units infinityCount * 2 = twoTo 1075 * twoTo 1024 := by decide +kernel
  have hcount := units_lt_succ count
  have hnext : units (count + 1) ≤ units infinityCount := units_strictMono.monotone h
  unfold border
  omega

/-- What rounds to a number other than zero is at least half a unit. -/
theorem RoundsTo.denominator_le {num den count : Nat} (h : RoundsTo num den count)
    (hden : 0 < den) (hpos : 0 < count) : den ≤ twoTo 1075 * num := by
  refine Nat.le_of_not_lt fun hlt => ?_
  have := h.unique hden (roundsTo_zero hlt)
  omega

theorem coefficient_ne_zero {d : Decimal} {count : Nat} (hpos : 0 < count)
    (h : RoundsTo d.numerator d.denominator count) : d.coefficient ≠ 0 := by
  intro hzero
  have hfirst := h.denominator_le d.denominator_pos hpos
  have hden := d.denominator_pos
  rw [Decimal.numerator, hzero, Nat.zero_mul, Nat.mul_zero] at hfirst
  omega

/-- What is behind the last border rounds to infinity. -/
theorem roundsTo_infinity {num den : Nat} (hden : 0 < den) (h : den * twoTo 1024 ≤ num) :
    RoundsTo num den infinityCount := by
  have hpos : 0 < infinityCount := by decide
  have hlast := Nat.mul_lt_mul_of_pos_left (border_lt (Nat.sub_lt hpos Nat.one_pos)) hden
  rw [Nat.mul_left_comm] at hlast
  have hnum := Nat.mul_le_mul_left (twoTo 1075) h
  exact ⟨not_isBehind_infinity num den,
    .inr (isBehind_iff.mpr ⟨Nat.sub_lt hpos Nat.one_pos, .inl (by omega)⟩)⟩

theorem roundsTo_of_large {d : Decimal} (hzero : d.coefficient ≠ 0) (h : 310 < d.magnitude) :
    RoundsTo d.numerator d.denominator infinityCount := by
  have hpowers := Nat.mul_le_mul_left d.denominator (Nat.le_of_lt twoTo_1024_lt)
  exact roundsTo_infinity d.denominator_pos (Nat.le_trans hpowers (Decimal.le_numerator hzero h))

theorem roundsTo_of_small {d : Decimal} (h : d.magnitude < -330) :
    RoundsTo d.numerator d.denominator 0 := by
  have hnum := d.numerator_le (n := 330) (Int.le_of_lt h)
  rw [Nat.mul_comm] at hnum
  refine roundsTo_zero ?_
  rcases Nat.eq_zero_or_pos d.numerator with hzero | hpos
  · rw [hzero, Nat.mul_zero]
    exact d.denominator_pos
  · exact Nat.lt_of_lt_of_le (Nat.mul_lt_mul_of_pos_right twoTo_1075_lt hpos) hnum

@[simp] theorem ofDecimal_negative (negative : Bool) (d : Decimal) :
    (ofDecimal negative d).negative = negative := by
  unfold ofDecimal
  split
  · rfl
  · split
    · rfl
    · split <;> rfl

/-- What is not written out as a fraction rounds as the fraction would. -/
theorem roundsTo_ofDecimal (negative : Bool) (d : Decimal) :
    RoundsTo d.numerator d.denominator (ofDecimal negative d).count := by
  have hnone : (nearest negative 0 1).count = 0 :=
    (roundsTo_nearest Nat.one_pos negative).unique Nat.one_pos (zero_roundsTo_zero Nat.one_pos)
  unfold ofDecimal
  split
  next hzero =>
    rw [hnone, Decimal.numerator, hzero, Nat.zero_mul]
    exact zero_roundsTo_zero d.denominator_pos
  next hzero =>
    split
    next hlarge => exact roundsTo_of_large hzero hlarge
    next =>
      split
      next hsmall =>
        rw [hnone]
        exact roundsTo_of_small hsmall
      next => exact roundsTo_nearest d.denominator_pos negative

theorem ofDecimal_eq {x : Binary64} {d : Decimal}
    (h : RoundsTo d.numerator d.denominator x.count) : ofDecimal x.negative d = x := by
  have hcount := (roundsTo_ofDecimal x.negative d).unique d.denominator_pos h
  have hsign := ofDecimal_negative x.negative d
  cases hx : ofDecimal x.negative d
  simp_all

/-! ## The shortest decimal -/

/-- A unit is `5 ^ n` of the last of `n` decimal places. -/
theorem fraction_units (u n : Nat) :
    twoTo n * 2 * (Decimal.mk (u * Nat.pow 5 n) (-n)).numerator =
      (Decimal.mk (u * Nat.pow 5 n) (-n)).denominator * (2 * u) := by
  rw [Decimal.numerator_neg, Decimal.denominator_neg, tenTo_eq]
  ac_rfl

theorem roundsTo_of_units {d : Decimal} {count n : Nat} (hn : twoTo 1075 = twoTo n * 2)
    (hd : d = ⟨units count * Nat.pow 5 n, -n⟩) (hpos : 0 < count)
    (hfinite : count < infinityCount) : RoundsTo d.numerator d.denominator count := by
  have hnum := fraction_units (units count) n
  rw [← hd, ← hn] at hnum
  have hden := d.denominator_pos
  unfold RoundsTo
  rw [isBehind_iff, isBehind_iff, hnum]
  constructor
  · have hnext : 2 * units count < border count := by
      have := units_lt_succ count
      unfold border
      omega
    have hborder := Nat.mul_lt_mul_of_pos_left hnext hden
    omega
  · right
    have hlast : border (count - 1) < 2 * units count := by
      have := units_lt_succ (count - 1)
      unfold border
      rw [Nat.sub_add_cancel hpos] at this ⊢
      omega
    exact ⟨by omega, .inl (Nat.mul_lt_mul_of_pos_left hlast hden)⟩

theorem roundsTo_shortest {count : Nat} (hpos : 0 < count) (hfinite : count < infinityCount) :
    RoundsTo (shortest count).numerator (shortest count).denominator count := by
  unfold shortest
  cases hfound : (List.range 17).findSome? fun n =>
      (neighbours count (n + 1)).find? (readsBack count) with
  | none =>
    have hunit : twoTo 1075 = twoTo 1074 * 2 := twoTo_succ 1074
    have hexact : exact count = ⟨units count * Nat.pow 5 1074, -(1074 : Nat)⟩ := rfl
    -- As a number written out, the exponent would be computed with.
    generalize 1074 = n at hunit hexact
    exact roundsTo_of_units hunit hexact hpos hfinite
  | some d =>
    obtain ⟨n, -, hfind⟩ := List.exists_of_findSome?_eq_some hfound
    exact readsBack_iff.mp (List.find?_some hfind)

end Binary64

end UiMarkup
