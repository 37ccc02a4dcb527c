import UiMarkup.Result
import UiMarkup.Value.Basic
import UiMarkup.Text.Blank
import UiMarkup.Text.Pieces
import UiMarkup.Token.Lexeme

/-!
# Literals

Each type has its own way to read the text of a value. Quotes are a part of
that text: strings need them, colors and events may have them.
-/

namespace UiMarkup

/-! ## What can be wrong with a literal -/

namespace LiteralError

inductive Reason
  | notQuoted
  | unknownEscape
  | bareQuote
  | notInteger
  | integerRange
  | notFloat
  | wholeFloat
  | floatRange
  | hexDigits
  | hexLength
  | tupleLength
  | tupleGap
  | channelNumber
  | channelRange
  | alphaNumber
  | alphaRange
  | notColor
  | notEvent
deriving DecidableEq, Repr

def Reason.message : Reason → String
  | notQuoted => "expected a double-quoted string"
  | unknownEscape => "unknown escape sequence"
  | bareQuote => "unescaped quote inside string"
  | notInteger => "expected an optionally signed sequence of decimal digits"
  | integerRange => "integer out of range"
  | notFloat => "expected digits with a decimal point or exponent"
  | wholeFloat => "integer literals are not accepted as float; write e.g. '16.0'"
  | floatRange => "float out of range"
  | hexDigits => "hex colors may only contain 0-9 and a-f"
  | hexLength => "hex colors need 3, 6 or 8 digits"
  | tupleLength => "color tuples need 3 or 4 components"
  | tupleGap => "color tuples may not have empty components"
  | channelNumber => "color channels must be integers"
  | channelRange => "color channels must be in 0 to 255"
  | alphaNumber => "alpha must be a number"
  | alphaRange => "alpha must be in 0.0 to 1.0"
  | notColor => "expected a hex color, a named color or an (r, g, b[, a]) tuple"
  | notEvent => "expected the name of an event handler"

end LiteralError

structure LiteralError where
  raw : String
  expected : AttributeType
  reason : LiteralError.Reason
deriving DecidableEq, Repr

def LiteralError.text (e : LiteralError) : String :=
  "invalid " ++ e.expected.name ++ " literal '" ++ e.raw ++ "': " ++ e.reason.message

namespace Literal

open LiteralError (Reason)

/-! ## Strings -/

/-- What stands between a quote in front and a quote behind. -/
def unquote? : List Char → Option (List Char)
  | '"' :: cs => if cs.getLast? = some '"' then some cs.dropLast else none
  | _ => none

/-- Quotes around a color or an event mean nothing. -/
def unquoted (cs : List Char) : List Char := (unquote? cs).getD cs

/-- Puts characters in the place of escape sequences. -/
def unescape : List Char → Except Reason (List Char)
  | [] => .ok []
  | '\\' :: '"' :: cs => (unescape cs).map ('"' :: ·)
  | '\\' :: '\\' :: cs => (unescape cs).map ('\\' :: ·)
  | '\\' :: 'n' :: cs => (unescape cs).map ('\n' :: ·)
  | '\\' :: 't' :: cs => (unescape cs).map ('\t' :: ·)
  | '\\' :: _ => .error .unknownEscape
  | '"' :: _ => .error .bareQuote
  | c :: cs => (unescape cs).map (c :: ·)

def readString (cs : List Char) : Except Reason String :=
  match unquote? cs with
  | none => .error .notQuoted
  | some inner => (unescape inner).map String.ofList

/-! ## Numbers -/

def hasMinus (cs : List Char) : Bool := cs.head? = some '-'

/-- The whole number that a sign and digits write. -/
def signedNumber (cs : List Char) : Int :=
  if hasMinus cs then -(ofDigits (takeSign cs).2) else ofDigits (takeSign cs).2

def readInteger (cs : List Char) : Except Reason Int64 :=
  if !isDigits (takeSign cs).2 then .error .notInteger
  else
    let i := signedNumber cs
    if Int64.minValue.toInt ≤ i ∧ i ≤ Int64.maxValue.toInt then .ok (Int64.ofInt i)
    else .error .integerRange

/-- A number falls into digits, what stands behind a point, and what stands behind an `e`. -/
structure FloatParts where
  whole : List Char
  fraction : Option (List Char)
  exponent : Option (List Char)
deriving DecidableEq, Repr

namespace FloatParts

def ofText (cs : List Char) : FloatParts :=
  let (mantissa, exponent) := cutAt (fun c => c = 'e' || c = 'E') (takeSign cs).2
  let (whole, fraction) := cutAt (· = '.') mantissa
  ⟨whole, fraction, exponent⟩

def wellFormed (p : FloatParts) : Bool :=
  isDigits p.whole && p.fraction.all isDigits && p.exponent.all (isDigits <| takeSign · |>.2)

def value (p : FloatParts) : Decimal :=
  .ofParts p.whole (p.fraction.getD []) ((p.exponent.map signedNumber).getD 0)

end FloatParts

/-- A float has a point or an exponent, so that no text is both an integer and a float. -/
def readFloat (cs : List Char) : Except Reason Binary64 :=
  let parts := FloatParts.ofText cs
  if !parts.wellFormed then .error .notFloat
  else if parts.fraction.isNone && parts.exponent.isNone then .error .wholeFloat
  else
    let x := Binary64.ofDecimal (hasMinus cs) parts.value
    if x.isFinite then .ok x else .error .floatRange

/-! ## Colors -/

def namedColors : List (String × Color) :=
  [("black", .opaqueRgb 0 0 0),
    ("white", .opaqueRgb 255 255 255),
    ("red", .opaqueRgb 255 0 0),
    ("green", .opaqueRgb 0 128 0),
    ("blue", .opaqueRgb 0 0 255),
    ("yellow", .opaqueRgb 255 255 0),
    ("cyan", .opaqueRgb 0 255 255),
    ("magenta", .opaqueRgb 255 0 255),
    ("gray", .opaqueRgb 128 128 128),
    ("grey", .opaqueRgb 128 128 128),
    ("orange", .opaqueRgb 255 165 0),
    ("purple", .opaqueRgb 128 0 128),
    ("transparent", ⟨0, 0, 0, 0⟩)]

/-- ASCII letters count as the same in either case. -/
def foldCase (cs : List Char) : List Char := cs.map Char.toLower

def namedColor? (cs : List Char) : Option Color :=
  namedColors.lookup (String.ofList (foldCase cs))

/-- A single digit stands for itself twice. -/
def ofHexDigits : List Nat → Except Reason Color
  | [r, g, b] => .ok (.opaqueRgb (.ofNat (17 * r)) (.ofNat (17 * g)) (.ofNat (17 * b)))
  | [r, r', g, g', b, b'] =>
    .ok (.opaqueRgb (.ofNat (16 * r + r')) (.ofNat (16 * g + g')) (.ofNat (16 * b + b')))
  | [r, r', g, g', b, b', a, a'] =>
    .ok ⟨.ofNat (16 * r + r'), .ofNat (16 * g + g'), .ofNat (16 * b + b'), .ofNat (16 * a + a')⟩
  | _ => .error .hexLength

def readHexColor (cs : List Char) : Except Reason Color :=
  match cs.mapM (digitIn? 16) with
  | none => .error .hexDigits
  | some digits => ofHexDigits digits

def readChannel (cs : List Char) : Except Reason UInt8 :=
  match readInteger cs with
  | .error _ => .error .channelNumber
  | .ok i =>
    if 0 ≤ i.toInt ∧ i.toInt ≤ 255 then .ok (.ofNat i.toInt.toNat) else .error .channelRange

/-- A float, or else an integer. -/
def readAlphaNumber (cs : List Char) : Except Reason Binary64 :=
  match readFloat cs with
  | .ok x => .ok x
  | .error _ =>
    match readInteger cs with
    | .ok i => .ok (Binary64.ofInt i.toInt)
    | .error _ => .error .alphaNumber

/-- Alpha goes from 0, which is clear, to 1, which is opaque. -/
def readAlpha (cs : List Char) : Except Reason UInt8 := do
  let x ← readAlphaNumber cs
  if x.isUnitValue then .ok (.ofNat x.scaled255) else .error .alphaRange

def readTupleColor (inner : List Char) : Except Reason Color :=
  match (piecesAt ',' inner).map trimBlank with
  | [r, g, b] =>
    if [r, g, b].any List.isEmpty then .error .tupleGap
    else do .ok (.opaqueRgb (← readChannel r) (← readChannel g) (← readChannel b))
  | [r, g, b, a] =>
    if [r, g, b, a].any List.isEmpty then .error .tupleGap
    else do .ok ⟨← readChannel r, ← readChannel g, ← readChannel b, ← readAlpha a⟩
  | _ => .error .tupleLength

/-- What stands between parentheses at the ends. -/
def tupleInner? : List Char → Option (List Char)
  | '(' :: cs => if cs.getLast? = some ')' then some cs.dropLast else none
  | _ => none

def readColor (cs : List Char) : Except Reason Color :=
  let text := trimBlank (unquoted cs)
  match text with
  | '#' :: hex => readHexColor hex
  | _ =>
    match tupleInner? text with
    | some inner => readTupleColor inner
    | none =>
      match namedColor? text with
      | some color => .ok color
      | none => .error .notColor

/-! ## Events -/

def readEvent (cs : List Char) : Except Reason String :=
  if isIdentifier (unquoted cs) then .ok (String.ofList (unquoted cs)) else .error .notEvent

end Literal

/-- Reads the text of a value as this type wants it. -/
def AttributeType.read (type : AttributeType) (cs : List Char) :
    Except LiteralError.Reason Value :=
  match type with
  | .string => (Literal.readString cs).map .string
  | .color => (Literal.readColor cs).map .color
  | .integer => (Literal.readInteger cs).map .integer
  | .float => (Literal.readFloat cs).map .float
  | .event => (Literal.readEvent cs).map .event

def AttributeType.parse (type : AttributeType) (raw : String) : Except LiteralError Value :=
  (type.read raw.toList).mapError (LiteralError.mk raw type)

theorem AttributeType.type_of_read {type : AttributeType} {cs : List Char} {v : Value}
    (h : type.read cs = .ok v) : v.type = type := by
  cases type <;> obtain ⟨a, _, rfl⟩ := map_eq_ok_iff.1 h <;> rfl

/-- What a type reads is a value of that type. -/
theorem AttributeType.type_of_parse {type : AttributeType} {raw : String} {v : Value}
    (h : type.parse raw = .ok v) : v.type = type :=
  type_of_read (mapError_eq_ok_iff.1 h)

end UiMarkup
