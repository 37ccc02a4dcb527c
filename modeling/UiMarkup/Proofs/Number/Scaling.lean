import UiMarkup.Proofs.Number.Nearest

/-!
# Numbers from 0 to 1, scaled

Rounding keeps the order of numbers and leaves those alone that are floats already.
So what rounds to a number from 0 to 1 scales to a whole number from 0 to 255.
-/

namespace UiMarkup.Binary64

/-! ## Rounding keeps the order -/

section

variable {q q' : ℚ} {count count' : Nat}

/-- A float is the nearest number to itself. -/
theorem isNearest_place (h : count ≤ infinityCount) : IsNearest (place count) count := by
  refine ⟨h, fun other _ hne => ⟨?_, fun hequal => ?_⟩⟩
  · rw [sub_self, abs_zero]
    exact abs_nonneg _
  · rw [sub_self, abs_zero, eq_comm, abs_eq_zero, sub_eq_zero] at hequal
    exact absurd (place_strictMono.injective hequal.symm) hne

/-- Were it otherwise, both would lie half way between the same two floats, and both of
these would be even, with a nearer one between them. -/
theorem IsNearest.mono (h : IsNearest q count) (h' : IsNearest q' count') (hle : q ≤ q') :
    count ≤ count' := by
  by_contra hlt
  have hlt : count' < count := Nat.lt_of_not_le hlt
  obtain ⟨hback, heven⟩ := h.beats count' h'.le_infinity hlt.ne
  obtain ⟨hfront, heven'⟩ := h'.beats count h.le_infinity hlt.ne'
  rw [dist_ge_iff (place_strictMono hlt)] at hback
  rw [dist_le_iff (place_strictMono hlt)] at hfront
  rw [eq_comm, dist_eq_iff (place_strictMono hlt)] at heven
  rw [dist_eq_iff (place_strictMono hlt)] at heven'
  have hcount := heven (by linarith)
  have hcount' := heven' (by linarith)
  have hbetween : count' + 1 < count := by omega
  obtain ⟨hnearer, -⟩ := h.beats (count' + 1) (by have := h.le_infinity; omega) hbetween.ne
  rw [dist_ge_iff (place_strictMono hbetween)] at hnearer
  have := place_strictMono (Nat.lt_succ_self count')
  rw [Nat.succ_eq_add_one] at this
  linarith

theorem IsNearest.unique (h : IsNearest q count) (h' : IsNearest q count') : count = count' :=
  Nat.le_antisymm (h.mono h' le_rfl) (h'.mono h le_rfl)

end

theorem place_zero : place 0 = 0 := by decide +kernel

theorem place_nonneg (count : Nat) : 0 ≤ place count :=
  place_zero ▸ place_strictMono.monotone (Nat.zero_le count)

/-! ## Signed values -/

/-- The value of a finite float. -/
def value (x : Binary64) : ℚ := if x.negative then -place x.count else place x.count

/-- `v` is the value of the float that a number is rounded to. -/
def IsRounded (q v : ℚ) : Prop :=
  ∃ count, IsNearest |q| count ∧ v = if q < 0 then -place count else place count

theorem IsRounded.unique {q v v' : ℚ} (h : IsRounded q v) (h' : IsRounded q v') : v = v' := by
  obtain ⟨count, hcount, rfl⟩ := h
  obtain ⟨count', hcount', rfl⟩ := h'
  rw [hcount.unique hcount']

theorem isRounded_value {x : Binary64} {q : ℚ} (hq : 0 ≤ q) (h : IsNearest q x.count) :
    IsRounded (if x.negative then -q else q) x.value := by
  refine ⟨x.count, ?_, ?_⟩
  · split
    · rwa [abs_neg, abs_of_nonneg hq]
    · rwa [abs_of_nonneg hq]
  · unfold value
    rcases hq.eq_or_lt with rfl | hpos
    · -- Zero has two signs and one value.
      have hzero : x.count = 0 := h.unique (place_zero ▸ isNearest_place (Nat.zero_le _))
      simp [hzero, place_zero]
    · split <;> simp [hpos, hpos.le, not_lt.mpr]

theorem isRounded_ofInt (i : Int) : IsRounded i (ofInt i).value := by
  have hnearest := (roundsTo_iff_isNearest Nat.one_pos).mp
    (@roundsTo_nearest i.natAbs 1 Nat.one_pos (i < 0))
  rw [Nat.cast_one, div_one] at hnearest
  have hsigned : (i : ℚ) = if (ofInt i).negative then -(i.natAbs : ℚ) else i.natAbs := by
    have hcast : (i.natAbs : ℚ) = |(i : ℚ)| := by rw [Nat.cast_natAbs, Int.cast_abs]
    rw [hcast]
    by_cases hi : i < 0
    · have hlt : (i : ℚ) < 0 := Int.cast_lt_zero.mpr hi
      simp [ofInt, nearest, hi, abs_of_neg hlt]
    · have hle : 0 ≤ (i : ℚ) := Int.cast_nonneg (Int.not_lt.mp hi)
      simp [ofInt, nearest, hi, abs_of_nonneg hle]
  conv => arg 1; rw [hsigned]
  exact isRounded_value (Nat.cast_nonneg i.natAbs) hnearest

/-! ## From 0 to 1 -/

theorem isUnitValue_iff {x : Binary64} : x.isUnitValue ↔ 0 ≤ x.value ∧ x.value ≤ 1 := by
  have hmono (other : Nat) : place x.count ≤ place other ↔ x.count ≤ other :=
    place_strictMono.le_iff_le
  obtain ⟨negative, count, _⟩ := x
  cases negative with
  | false =>
    have hone := hmono oneCount
    rw [place_oneCount] at hone
    simp only [isUnitValue, value, Bool.false_eq_true, if_false, place_nonneg, true_and, hone]
    simp only [Bool.not_false, Bool.true_and, Bool.or_eq_true, decide_eq_true_eq]
    omega
  | true =>
    have hzero := hmono 0
    rw [place_zero] at hzero
    have hone : -place count ≤ 1 := by
      have := place_nonneg count
      linarith
    simp [isUnitValue, value, hone, hzero]

theorem value_of_isUnitValue {x : Binary64} (h : x.isUnitValue) : x.value = place x.count := by
  unfold isUnitValue at h
  unfold value
  cases hnegative : x.negative with
  | false => rfl
  | true =>
    have hzero : x.count = 0 := by simpa [hnegative] using h
    simp [hzero, place_zero]

/-- A number of at least 2 rounds to none up to 1. -/
theorem lt_two_of_isNearest {q : ℚ} {count : Nat} (h : IsNearest q count)
    (hone : place count ≤ 1) : q < 2 := by
  have htwo : place (oneCount + twoTo 52) = 2 := by decide +kernel
  by_contra hlarge
  have hle := (isNearest_place (by decide +kernel)).mono h (htwo.trans_le (le_of_not_gt hlarge))
  have := htwo.symm.trans_le (place_strictMono.monotone hle)
  linarith

/-! ## Scaling -/

theorem round_place (count : Nat) :
    round (place count) = ((2 * units count + twoTo 1074) / twoTo 1075 : Nat) := by
  have hdouble : twoTo 1075 = 2 * twoTo 1074 := (twoTo_succ 1074).trans (Nat.mul_comm ..)
  have hpos : (twoTo 1074 : ℚ) ≠ 0 := Nat.cast_ne_zero.mpr (twoTo_pos _).ne'
  have hsum : place count + 1 / 2 = (2 * units count + twoTo 1074 : Nat) / (twoTo 1075 : Nat) := by
    rw [place_eq, hdouble]
    push_cast
    field_simp
  rw [round_eq, hsum]
  exact Rat.floor_natCast_div_natCast _ _

/-- The largest product of a scaled alpha is a float, so that rounding cannot lead beyond it. -/
theorem place_le_255 {q : ℚ} {count : Nat} (h : IsNearest q count) (hq : q ≤ 255) :
    place count ≤ 255 := by
  have hlargest : place (1030 * twoTo 52 + 127 * twoTo 45) = 255 := by decide +kernel
  have hle := h.mono (isNearest_place (by decide +kernel)) (hq.trans_eq hlargest.symm)
  exact (place_strictMono.monotone hle).trans_eq hlargest

theorem round_le_255 {q : ℚ} (h : q ≤ 255) : round q ≤ (255 : Nat) := by
  rw [round_eq, Int.floor_le_iff]
  push_cast
  linarith

theorem isRounded_scaled255 {x : Binary64} (h : x.isUnitValue) :
    ∃ product, IsRounded (255 * x.value) product ∧ x.scaled255 = round product ∧
      x.scaled255 ≤ 255 := by
  have hnearest := (roundsTo_iff_isNearest (twoTo_pos 1074)).mp
    (@roundsTo_nearest (255 * units x.count) _ (twoTo_pos 1074) false)
  have hvalue : ((255 * units x.count : Nat) / twoTo 1074 : ℚ) = 255 * x.value := by
    rw [value_of_isUnitValue h, place_eq]
    push_cast
    ring
  rw [hvalue] at hnearest
  obtain ⟨hnonneg, hone⟩ := isUnitValue_iff.mp h
  have hrounded := isRounded_value (by linarith) hnearest
  refine ⟨_, hrounded, (round_place _).symm, ?_⟩
  have hlargest := place_le_255 hnearest (by linarith)
  exact Int.ofNat_le.mp ((round_place _).symm.trans_le (round_le_255 hlargest))

end UiMarkup.Binary64
