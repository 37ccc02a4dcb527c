import UiMarkup.Number.Decimal

/-!
# Binary floating point

The numbers of 64 bits of the standard for binary floating point. Those
without a sign are counted upward from zero, so the count is also their order,
and each stands for a whole number of units of `2 ^ -1074`. A fraction is
rounded by counting the borders between neighbours that lie below it.
-/

namespace UiMarkup

/-- The sign, and the count of the unsigned numbers below. -/
structure Binary64 where
  negative : Bool
  count : Nat
  count_lt : count < twoTo 63
deriving DecidableEq, Repr

namespace Binary64

/-- The count of infinity. What lies above it is not a number. -/
def infinityCount : Nat := 0x7FF * twoTo 52

/-- The count of one. -/
def oneCount : Nat := 0x3FF * twoTo 52

def zero : Binary64 := ⟨false, 0, by decide⟩

def isFinite (x : Binary64) : Bool := x.count < infinityCount

def isNaN (x : Binary64) : Bool := infinityCount < x.count

/-! ## Bits -/

def ofBits (bits : UInt64) : Binary64 :=
  ⟨twoTo 63 ≤ bits.toNat, bits.toNat % twoTo 63, Nat.mod_lt _ (by decide)⟩

def toBits (x : Binary64) : UInt64 :=
  UInt64.ofNat ((if x.negative then twoTo 63 else 0) + x.count)

/-! ## Values -/

/-- The value of the number with this count, in units of `2 ^ -1074`. -/
def units (count : Nat) : Nat :=
  if count < twoTo 52 then count else (twoTo 52 + count % twoTo 52) * twoTo (count / twoTo 52 - 1)

/-- Two numbers are the same in value. Zero has two signs, and what is not a
number is not even the same as itself. -/
def sameValue (x y : Binary64) : Bool :=
  !x.isNaN && !y.isNaN && x.count = y.count && (x.count = 0 || x.negative = y.negative)

/-- Whether the value is one from 0 to 1. -/
def isUnitValue (x : Binary64) : Bool :=
  x.count = 0 || (!x.negative && x.count ≤ oneCount)

/-! ## Rounding -/

/-- Whether `num / den` rounds to a number behind the one with this count. The
border lies half way to the next number. A fraction on the border goes to the
even count, and nothing goes beyond infinity. -/
def isBehind (num den count : Nat) : Bool :=
  let fraction := twoTo 1075 * num
  let border := den * (units count + units (count + 1))
  count < infinityCount && (border < fraction || (border = fraction && count % 2 = 1))

/-- Finds the first count that `num / den` is not behind, among the `twoTo bits` counts
from `count` on. -/
def search (num den : Nat) : Nat → Nat → Nat
  | 0, count => count
  | bits + 1, count =>
    if isBehind num den (count + twoTo bits - 1) then search num den bits (count + twoTo bits)
    else search num den bits count

theorem search_lt (num den bits count : Nat) :
    search num den bits count < count + twoTo bits := by
  induction bits generalizing count with
  | zero => simp [search]
  | succ bits ih =>
    rw [search, twoTo_succ]
    split
    · have := ih (count + twoTo bits)
      omega
    · have := ih count
      omega

/-- The number nearest to `num / den`, infinity where that is too large. -/
def nearest (negative : Bool) (num den : Nat) : Binary64 :=
  ⟨negative, search num den 63 0, by simpa using search_lt num den 63 0⟩

def infinity (negative : Bool) : Binary64 := ⟨negative, infinityCount, by decide⟩

/-- The number nearest to a decimal. Decimals far out of range are not written out as fractions. -/
def ofDecimal (negative : Bool) (d : Decimal) : Binary64 :=
  if d.coefficient = 0 then nearest negative 0 1
  else if 310 < d.magnitude then infinity negative
  else if d.magnitude < -330 then nearest negative 0 1
  else nearest negative d.numerator d.denominator

/-- The number nearest to a whole number. -/
def ofInt (i : Int) : Binary64 := nearest (i < 0) i.natAbs 1

/-- The whole number nearest to `255` times the value, where the product is
rounded first and a half goes up. -/
def scaled255 (x : Binary64) : Nat :=
  let product := nearest false (255 * units x.count) (twoTo 1074)
  (2 * units product.count + twoTo 1074) / twoTo 1075

end Binary64

end UiMarkup
