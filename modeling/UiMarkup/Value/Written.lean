import UiMarkup.Value.Basic
import UiMarkup.Number.Shortest

/-!
# Values written down

Every value has one literal. Reading it with the type of the value gives the
value back.
-/

namespace UiMarkup

namespace Written

/-! ## Strings -/

def escapeChar : Char → List Char
  | '"' => ['\\', '"']
  | '\\' => ['\\', '\\']
  | '\n' => ['\\', 'n']
  | '\t' => ['\\', 't']
  | c => [c]

def quoted (cs : List Char) : List Char := '"' :: cs.flatMap escapeChar ++ ['"']

/-! ## Colors -/

def hexDigit (n : Nat) : Char := (Nat.digitChar n).toUpper

def hexChannel (n : UInt8) : List Char := [hexDigit (n.toNat / 16), hexDigit (n.toNat % 16)]

/-- Alpha is left out when the color is opaque. -/
def hexColor (c : Color) : List Char :=
  '#' :: (hexChannel c.red ++ hexChannel c.green ++ hexChannel c.blue
    ++ if c.alpha = 255 then [] else hexChannel c.alpha)

/-! ## Numbers -/

def integer (i : Int) : List Char :=
  if i < 0 then '-' :: digitsOf i.natAbs else digitsOf i.natAbs

/-- The digits of a decimal without the zeros at their end. -/
def significant (d : Decimal) : List Char :=
  ((digitsOf d.coefficient).reverse.dropWhile (· = '0')).reverse

/-- Digits with a point among them, `place` counting where the first one stands. -/
def positional (digits : List Char) (place : Int) : List Char :=
  if place < 0 then '0' :: '.' :: List.replicate (-place - 1).toNat '0' ++ digits
  else
    let width := place.toNat + 1
    let whole := digits.take width ++ List.replicate (width - digits.length) '0'
    let fraction := digits.drop width
    whole ++ '.' :: if fraction.isEmpty then ['0'] else fraction

/-- The first digit, the others behind a point, and an exponent. -/
def scientific (digits : List Char) (place : Int) : List Char :=
  digits.take 1 ++ (if digits.length ≤ 1 then [] else '.' :: digits.drop 1)
    ++ 'e' :: integer place

/-- Numbers from one ten-thousandth up to ten to the sixteenth are written without exponent. -/
def decimal (d : Decimal) : List Char :=
  let digits := significant d
  let place := d.magnitude - 1
  if -4 ≤ place ∧ place < 16 then positional digits place else scientific digits place

/-- A float that is not a number has no sign. -/
def float (x : Binary64) : List Char :=
  if x.isNaN then "NaN.0".toList
  else
    (if x.negative then ['-'] else [])
      ++ if x.isFinite then
          if x.count = 0 then "0.0".toList else decimal (Binary64.shortest x.count)
        else "inf.0".toList

end Written

def Color.text (c : Color) : String := String.ofList (Written.hexColor c)

namespace Value

def written : Value → List Char
  | string text => Written.quoted text.toList
  | color c => Written.hexColor c
  | integer i => Written.integer i.toInt
  | float x => Written.float x
  | event handler => handler.toList

/-- The literal of a value. -/
def literal (v : Value) : String := String.ofList v.written

end Value

end UiMarkup
