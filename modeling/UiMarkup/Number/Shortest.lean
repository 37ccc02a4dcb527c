import UiMarkup.Number.Binary64

/-!
# The shortest decimal that reads back

A binary number is written with the fewest digits that round to it again. Of
several decimals with that many digits the nearest is taken, and the larger
one when two are equally near.
-/

namespace UiMarkup.Binary64

/-- Whether a decimal rounds to the number with this count. -/
def readsBack (count : Nat) (d : Decimal) : Bool :=
  !isBehind d.numerator d.denominator count
    && (count = 0 || isBehind d.numerator d.denominator (count - 1))

/-- The power of ten at which the first digit of the value stands. Shifted by 324
places, no value is below one. -/
def firstPlace (count : Nat) : Int :=
  (digitsOf (units count * tenTo 324 / twoTo 1074)).length - 325

/-- The decimals with `digits` digits next to the value, the nearer one first. -/
def neighbours (count digits : Nat) : List Decimal :=
  let exponent := firstPlace count - digits + 1
  let num := units count * tenTo (-exponent).toNat
  let den := twoTo 1074 * tenTo exponent.toNat
  let below : Decimal := ⟨num / den, exponent⟩
  let above : Decimal := ⟨num / den + 1, exponent⟩
  if 2 * (num % den) < den then [below, above] else [above, below]

/-- The value with all its digits. -/
def exact (count : Nat) : Decimal := ⟨units count * Nat.pow 5 1074, -1074⟩

/-- The shortest decimal that reads back. Seventeen digits are always enough. -/
def shortest (count : Nat) : Decimal :=
  ((List.range 17).findSome? fun n => (neighbours count (n + 1)).find? (readsBack count)).getD
    (exact count)

end UiMarkup.Binary64
