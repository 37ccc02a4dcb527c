import UiMarkup.Toml.Value
import UiMarkup.Text.Pieces

/-!
# TOML numbers, dates and truth values

These are words: what a word means is decided when all of it is known.
-/

namespace UiMarkup.Toml

def isWordPart (c : Char) : Bool :=
  c.isAlphanum || c = '_' || c = '+' || c = '-' || c = '.' || c = ':'

/-! ## Numbers -/

/-- The digits of a run in which low lines stand between digits only. -/
def digits? (isDigit : Char → Bool) : List Char → Option (List Char)
  | [] => none
  | [c] => if isDigit c then some [c] else none
  | c :: '_' :: cs => if isDigit c then (digits? isDigit cs).map (c :: ·) else none
  | c :: cs => if isDigit c then (digits? isDigit cs).map (c :: ·) else none

def cutSign : List Char → Bool × List Char
  | '-' :: cs => (true, cs)
  | '+' :: cs => (false, cs)
  | cs => (false, cs)

/-- Decimal digits without a zero in front. -/
def whole? (cs : List Char) : Option (List Char) :=
  match digits? Char.isDigit cs with
  | some ('0' :: _ :: _) => none
  | other => other

def fits (i : Int) : Bool := Int64.minValue.toInt ≤ i && i ≤ Int64.maxValue.toInt

def decimalInteger? (cs : List Char) : Option Int := do
  let (negative, body) := cutSign cs
  let n := ofDigits (← whole? body)
  if negative then some (-n) else some n

def basedInteger? (base : Nat) (cs : List Char) : Option Int := do
  let digits ← digits? (fun c => (digitIn? base c).isSome) cs
  (ofDigitsIn? base digits).map Int.ofNat

def integer? (cs : List Char) : Option Int :=
  let number := match cs with
    | '0' :: 'x' :: body => basedInteger? 16 body
    | '0' :: 'o' :: body => basedInteger? 8 body
    | '0' :: 'b' :: body => basedInteger? 2 body
    | body => decimalInteger? body
  number.filter fits

def exponent? (cs : List Char) : Option Int := do
  let (negative, body) := cutSign cs
  let n := ofDigits (← digits? Char.isDigit body)
  if negative then some (-n) else some n

/-- A number with a point or an exponent. -/
def decimalFloat? (cs : List Char) : Option Binary64 := do
  let (negative, body) := cutSign cs
  let (mantissa, exponent) := cutAt (fun c => c = 'e' || c = 'E') body
  let (whole, fraction) := cutAt (· = '.') mantissa
  let whole ← whole? whole
  match fraction, exponent with
  | none, none => none
  | fraction, exponent =>
    let fraction ← match fraction with
      | some f => digits? Char.isDigit f
      | none => some []
    let exponent ← match exponent with
      | some e => exponent? e
      | none => some 0
    some (Binary64.ofDecimal negative (.ofParts whole fraction exponent))

/-- A float that is too large is refused, one that is too small is not. -/
def float? (cs : List Char) : Option Binary64 :=
  match cutSign cs with
  | (negative, ['i', 'n', 'f']) => some (Binary64.infinity negative)
  | (_, ['n', 'a', 'n']) => some (Binary64.ofBits 0x7FF8000000000000)
  | _ => (decimalFloat? cs).filter fun x => x.isFinite || x.negative

/-! ## Dates and times -/

/-- The number of `width` digits in front, and the rest. -/
def fixed? (width low high : Nat) (cs : List Char) : Option (Nat × List Char) :=
  let digits := cs.take width
  if digits.length = width && digits.all Char.isDigit then
    let n := ofDigits digits
    if low ≤ n && n ≤ high then some (n, cs.drop width) else none
  else none

def mark? (mark : Char) : List Char → Option (List Char)
  | c :: cs => if c = mark then some cs else none
  | [] => none

def daysIn (year month : Nat) : Nat :=
  if month = 2 then
    if year % 4 = 0 && (year % 100 ≠ 0 || year % 400 = 0) then 29 else 28
  else if month = 4 || month = 6 || month = 9 || month = 11 then 30
  else 31

/-- The text behind a date `YYYY-MM-DD`. -/
def date? (cs : List Char) : Option (List Char) := do
  let (year, cs) ← fixed? 4 0 9999 cs
  let (month, cs) ← fixed? 2 1 12 (← mark? '-' cs)
  let (_, cs) ← fixed? 2 1 (daysIn year month) (← mark? '-' cs)
  some cs

/-- The text behind a time `HH:MM:SS`, which may have a fraction. -/
def time? (cs : List Char) : Option (List Char) := do
  let (_, cs) ← fixed? 2 0 23 cs
  let (_, cs) ← fixed? 2 0 59 (← mark? ':' cs)
  let (_, cs) ← fixed? 2 0 60 (← mark? ':' cs)
  match cs with
  | '.' :: d :: rest => if d.isDigit then some (rest.dropWhile Char.isDigit) else none
  | _ => some cs

def isOffset : List Char → Bool
  | [] => true
  | ['Z'] | ['z'] => true
  | c :: cs =>
    (c = '+' || c = '-') && (do
      let (_, cs) ← fixed? 2 0 23 cs
      let (_, cs) ← fixed? 2 0 59 (← mark? ':' cs)
      some cs) = some []

/-- A date, a time, or a date and a time, which may have an offset then. -/
def isDateTime (cs : List Char) : Bool :=
  match date? cs with
  | some [] => true
  | some (c :: rest) =>
    (c = 'T' || c = 't' || c = ' ') && ((time? rest).map isOffset).getD false
  | none => time? cs = some []

/-! ## Words -/

def ofWord? (word : List Char) : Option Value :=
  match word with
  | ['t', 'r', 'u', 'e'] => some (.boolean true)
  | ['f', 'a', 'l', 's', 'e'] => some (.boolean false)
  | _ =>
    if isDateTime word then some (.dateTime (String.ofList word))
    else match integer? word with
      | some i => some (.integer i)
      | none => (float? word).map .float

/-- A word, or a date and a time with one blank between. -/
def takeWord (cs : List Char) : List Char × List Char :=
  let word := cs.takeWhile isWordPart
  match date? word, cs.dropWhile isWordPart with
  | some [], ' ' :: d :: rest =>
    if d.isDigit then
      (word ++ ' ' :: (d :: rest).takeWhile isWordPart, (d :: rest).dropWhile isWordPart)
    else (word, ' ' :: d :: rest)
  | _, rest => (word, rest)

end UiMarkup.Toml
