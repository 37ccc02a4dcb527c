import Mathlib
import UiMarkup.Proofs.Number.Rounding

/-!
# The nearest number

The number that a fraction rounds to is the one at the smallest distance from
it, and of two at the same distance the even one. Infinity takes part as the
number that the next larger exponent would give.
-/

namespace UiMarkup

theorem cast_twoTo (n : Nat) : (twoTo n : ℚ) = 2 ^ n := Nat.cast_pow 2 n

theorem cast_tenTo (n : Nat) : (tenTo n : ℚ) = 10 ^ n := Nat.cast_pow 10 n

namespace Decimal

/-- The exact value of a decimal. -/
def toRat (d : Decimal) : ℚ := d.coefficient * 10 ^ d.exponent

theorem toRat_eq (d : Decimal) : d.toRat = d.numerator / d.denominator := by
  have hten : (10 : ℚ) ≠ 0 := by norm_num
  rw [toRat, numerator, denominator, Nat.cast_mul, cast_tenTo, cast_tenTo, mul_div_assoc,
    ← zpow_natCast, ← zpow_natCast, ← zpow_sub₀ hten]
  congr 2
  omega

end Decimal

namespace Binary64

/-! ## Where the numbers stand -/

/-- The value of the number with this count: 52 bits of a fraction, and above
them the exponent, where zero is for the numbers without a leading one. -/
def place (count : Nat) : ℚ :=
  let exponent : Nat := count / 2 ^ 52
  let fraction : ℚ := (count % 2 ^ 52 : Nat) / 2 ^ 52
  if exponent = 0 then fraction * 2 ^ (-1022 : ℤ) else (1 + fraction) * 2 ^ ((exponent : ℤ) - 1023)

theorem scale_down (q : ℚ) (m n : Nat) : q / 2 ^ m * 2 ^ (-n : ℤ) = q / 2 ^ (m + n) := by
  rw [zpow_neg, zpow_natCast, pow_add, ← div_eq_mul_inv, div_div]

theorem place_eq (count : Nat) : place count = units count / twoTo 1074 := by
  have hbits : twoTo 52 = 2 ^ 52 := rfl
  rw [cast_twoTo, ← scale_down _ 52 1022]
  unfold place units
  rw [hbits]
  by_cases hsubnormal : count < 2 ^ 52
  · simp only [Nat.div_eq_of_lt hsubnormal, Nat.mod_eq_of_lt hsubnormal, if_pos hsubnormal, if_true]
    rfl
  · have hexponent : 1 ≤ count / 2 ^ 52 := (Nat.one_le_div_iff (by decide)).mpr (by omega)
    have hplace :
        (count / 2 ^ 52 : Nat) - (1023 : ℤ) = (count / 2 ^ 52 - 1 : Nat) + (-1022 : ℤ) := by
      omega
    simp only [if_neg hsubnormal, if_neg (Nat.ne_of_gt hexponent)]
    rw [hplace, zpow_add₀ two_ne_zero, zpow_natCast, Nat.cast_mul, cast_twoTo, Nat.cast_add]
    -- As a power written out, the unit would be computed with.
    generalize (2 : ℚ) ^ (-1022 : ℤ) = unit
    push_cast
    ring

theorem place_oneCount : place oneCount = 1 := by decide +kernel

/-- Infinity stands where the numbers of its exponent would begin. -/
example : place infinityCount = 2 ^ 1024 := by decide +kernel

theorem place_strictMono : StrictMono place := by
  intro count other h
  have hunit : (0 : ℚ) < twoTo 1074 := Nat.cast_pos.mpr (twoTo_pos _)
  rw [place_eq, place_eq, div_lt_div_iff_of_pos_right hunit, Nat.cast_lt]
  exact units_strictMono h

section

variable {num den unit twice : Nat}

theorem double_mul (hden : (den : ℚ) ≠ 0) :
    (2 * (num / den) * unit * den : ℚ) = 2 * unit * num := by
  field_simp

theorem half_lt_iff (hden : 0 < den) (hunit : 0 < unit) :
    (twice / unit : ℚ) < 2 * (num / den) ↔ den * twice < 2 * unit * num := by
  have hden : (0 : ℚ) < den := Nat.cast_pos.mpr hden
  have hunit : (0 : ℚ) < unit := Nat.cast_pos.mpr hunit
  rw [div_lt_iff₀ hunit, ← mul_lt_mul_iff_left₀ hden, double_mul hden.ne', mul_comm]
  norm_cast

theorem half_eq_iff (hden : 0 < den) (hunit : 0 < unit) :
    (twice / unit : ℚ) = 2 * (num / den) ↔ den * twice = 2 * unit * num := by
  have hden : (den : ℚ) ≠ 0 := Nat.cast_ne_zero.mpr hden.ne'
  have hunit : (unit : ℚ) ≠ 0 := Nat.cast_ne_zero.mpr hunit.ne'
  rw [div_eq_iff hunit, ← mul_left_inj' hden, double_mul hden, mul_comm]
  norm_cast

end

theorem isBehind_iff_place {num den : Nat} (hden : 0 < den) (count : Nat) :
    isBehind num den count ↔ count < infinityCount ∧
      (place count + place (count + 1) < 2 * (num / den) ∨
        place count + place (count + 1) = 2 * (num / den) ∧ count % 2 = 1) := by
  have hborder : place count + place (count + 1) = border count / twoTo 1074 := by
    rw [place_eq, place_eq, border, Nat.cast_add, add_div]
  have hdouble : twoTo 1075 = 2 * twoTo 1074 := (twoTo_succ 1074).trans (Nat.mul_comm ..)
  rw [isBehind_iff, hborder, hdouble, half_lt_iff hden (twoTo_pos _),
    half_eq_iff hden (twoTo_pos _)]

/-! ## Distances -/

/-- A number is as near as another one, and nearer unless it is even. -/
def Beats (q : ℚ) (count other : Nat) : Prop :=
  |q - place count| ≤ |q - place other| ∧
    (|q - place count| = |q - place other| → count % 2 = 0)

/-- The nearest of all numbers up to infinity, the even one of two that are equally near. -/
structure IsNearest (q : ℚ) (count : Nat) : Prop where
  le_infinity : count ≤ infinityCount
  beats : ∀ other ≤ infinityCount, other ≠ count → Beats q count other

section

variable {q a b : ℚ}

theorem dist_le_iff (h : a < b) : |q - a| ≤ |q - b| ↔ 2 * q ≤ a + b := by
  have hsquares : (q - b) ^ 2 - (q - a) ^ 2 = (b - a) * (a + b - 2 * q) := by ring
  rw [← sq_le_sq, ← sub_nonneg, hsquares, mul_nonneg_iff_of_pos_left (sub_pos.mpr h), sub_nonneg]

theorem dist_ge_iff (h : a < b) : |q - b| ≤ |q - a| ↔ a + b ≤ 2 * q := by
  have hsquares : (q - a) ^ 2 - (q - b) ^ 2 = (b - a) * (2 * q - (a + b)) := by ring
  rw [← sq_le_sq, ← sub_nonneg, hsquares, mul_nonneg_iff_of_pos_left (sub_pos.mpr h), sub_nonneg]

theorem dist_eq_iff (h : a < b) : |q - a| = |q - b| ↔ 2 * q = a + b := by
  rw [le_antisymm_iff, dist_le_iff h, dist_ge_iff h, ← le_antisymm_iff]

end

section

variable {num den count : Nat}

/-- What is not behind a number is as near to it as to any larger one. -/
theorem front_iff (hden : 0 < den) (hinfinity : count < infinityCount) :
    ¬ isBehind num den count ↔
      ∀ other ≤ infinityCount, count < other → Beats (num / den) count other := by
  rw [isBehind_iff_place hden]
  unfold Beats
  constructor
  · intro hfront other _ hlt
    have hborder : 2 * (num / den : ℚ) ≤ place count + place (count + 1) :=
      le_of_not_gt fun hlt => hfront ⟨hinfinity, .inl hlt⟩
    have hnext : place (count + 1) ≤ place other := place_strictMono.monotone hlt
    rw [dist_le_iff (place_strictMono hlt), dist_eq_iff (place_strictMono hlt)]
    refine ⟨hborder.trans (by linarith), fun hequal => ?_⟩
    by_contra hodd
    exact hfront ⟨hinfinity, .inr ⟨by linarith, by omega⟩⟩
  · rintro hnearest ⟨-, hborder⟩
    have hnext := Nat.lt_succ_self count
    obtain ⟨hle, heven⟩ := hnearest (count + 1) hinfinity hnext
    rw [dist_le_iff (place_strictMono hnext)] at hle
    rw [dist_eq_iff (place_strictMono hnext)] at heven
    rcases hborder with hlt | ⟨hequal, hodd⟩
    · exact absurd hle (not_le_of_gt hlt)
    · have := heven hequal.symm
      omega

/-- What is behind a number is as near to the next one as to any smaller one. -/
theorem back_iff (hden : 0 < den) (hinfinity : count + 1 ≤ infinityCount) :
    isBehind num den count ↔ ∀ other < count + 1, Beats (num / den) (count + 1) other := by
  rw [isBehind_iff_place hden]
  unfold Beats
  constructor
  · rintro ⟨-, hback⟩ other hlt
    have hborder : place count + place (count + 1) ≤ 2 * (num / den : ℚ) := by
      rcases hback with hlt | ⟨hequal, -⟩
      · exact hlt.le
      · exact hequal.le
    have hprevious : place other ≤ place count :=
      place_strictMono.monotone (Nat.le_of_lt_succ hlt)
    rw [dist_ge_iff (place_strictMono hlt), eq_comm, dist_eq_iff (place_strictMono hlt)]
    refine ⟨le_trans (by linarith) hborder, fun hequal => ?_⟩
    rcases hback with hlt | ⟨-, hodd⟩
    · linarith
    · omega
  · intro hnearest
    have hnext := Nat.lt_succ_self count
    obtain ⟨hle, heven⟩ := hnearest count hnext
    rw [dist_ge_iff (place_strictMono hnext)] at hle
    rw [eq_comm, dist_eq_iff (place_strictMono hnext)] at heven
    refine ⟨hinfinity, ?_⟩
    rcases hle.lt_or_eq with hlt | hequal
    · exact .inl hlt
    · have := heven hequal.symm
      exact .inr ⟨hequal, by omega⟩

/-- Rounding by borders finds the nearest number. -/
theorem roundsTo_iff_isNearest (hden : 0 < den) :
    RoundsTo num den count ↔ IsNearest (num / den) count := by
  constructor
  · rintro ⟨hfront, hback⟩
    have hle : count ≤ infinityCount := by
      rcases hback with rfl | hback
      · exact Nat.zero_le _
      · have := (isBehind_iff.mp hback).1
        omega
    refine ⟨hle, fun other hother hne => ?_⟩
    rcases Nat.lt_or_gt_of_ne hne with hlt | hgt
    · obtain ⟨count, rfl⟩ := Nat.exists_eq_succ_of_ne_zero (Nat.ne_zero_of_lt hlt)
      exact (back_iff hden hle).mp (hback.resolve_left (Nat.succ_ne_zero _)) other hlt
    · exact (front_iff hden (by omega)).mp hfront other hother hgt
  · rintro ⟨hle, hbeats⟩
    constructor
    · rcases Nat.eq_or_lt_of_le hle with rfl | hlt
      · exact not_isBehind_infinity num den
      · exact (front_iff hden hlt).mpr fun other hother hgt => hbeats other hother hgt.ne'
    · cases count with
      | zero => exact .inl rfl
      | succ count =>
        exact .inr ((back_iff hden hle).mpr fun other hlt => hbeats other (by omega) hlt.ne)

end

/-- The number that a decimal is read as is the nearest one. -/
theorem ofDecimal_eq_iff {x : Binary64} {negative : Bool} {d : Decimal} :
    ofDecimal negative d = x ↔ x.negative = negative ∧ IsNearest d.toRat x.count := by
  rw [Decimal.toRat_eq, ← roundsTo_iff_isNearest d.denominator_pos]
  constructor
  · rintro rfl
    exact ⟨ofDecimal_negative negative d, roundsTo_ofDecimal negative d⟩
  · rintro ⟨rfl, hrounds⟩
    exact ofDecimal_eq hrounds

end Binary64

end UiMarkup
