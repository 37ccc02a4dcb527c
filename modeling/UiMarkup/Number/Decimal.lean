import UiMarkup.Number.Power

/-!
# Decimal numbers

A decimal is a whole number of units of a power of ten, as digits with a point
and an exponent write it down.
-/

namespace UiMarkup

/-- The number `coefficient · 10 ^ exponent`. -/
structure Decimal where
  coefficient : Nat
  exponent : Int
deriving DecidableEq, Repr

/-- The digits of a number without leading zeros, at least one. -/
def digitsOf (n : Nat) : List Char := Nat.toDigits 10 n

/-- The number that digits write. -/
def ofDigits (digits : List Char) : Nat := Nat.ofDigitChars 10 digits 0

/-- The value of a digit in a base up to 36. Letters count in either case. -/
def digitIn? (base : Nat) (c : Char) : Option Nat :=
  let value :=
    if c.isDigit then some (c.toNat - '0'.toNat)
    else if c.isAlpha then some (c.toLower.toNat - 'a'.toNat + 10)
    else none
  value.filter (· < base)

/-- The number that digits of a base write, if they all are such digits. -/
def ofDigitsIn? (base : Nat) (digits : List Char) : Option Nat :=
  digits.foldlM (fun n c => (digitIn? base c).map (base * n + ·)) 0

/-- Whether a text is made of ASCII digits, at least one. -/
def isDigits (cs : List Char) : Bool := !cs.isEmpty && cs.all Char.isDigit

namespace Decimal

/-- The decimal as a fraction. -/
def numerator (d : Decimal) : Nat := d.coefficient * tenTo d.exponent.toNat

def denominator (d : Decimal) : Nat := tenTo (-d.exponent).toNat

/-- One more than the power of ten at which the first digit stands. -/
def magnitude (d : Decimal) : Int := (digitsOf d.coefficient).length + d.exponent

/-- Digits with a point between them, and a power of ten. -/
def ofParts (whole fraction : List Char) (exponent : Int) : Decimal :=
  ⟨ofDigits (whole ++ fraction), exponent - fraction.length⟩

end Decimal

end UiMarkup
