import UiMarkup.Number.Binary64

/-!
# Values

An attribute has one of five types, and there is no conversion between them.
-/

namespace UiMarkup

inductive AttributeType
  | string
  | color
  | integer
  | float
  | event
deriving DecidableEq, Repr

namespace AttributeType

def all : List AttributeType := [string, color, integer, float, event]

/-- The name of a type in schema files and messages. -/
def name : AttributeType → String
  | string => "string"
  | color => "color"
  | integer => "integer"
  | float => "float"
  | event => "event"

def ofName? (name : String) : Option AttributeType := all.find? (·.name = name)

end AttributeType

/-- Eight bits for each channel. A color with the largest alpha is opaque. -/
structure Color where
  red : UInt8
  green : UInt8
  blue : UInt8
  alpha : UInt8
deriving DecidableEq, Repr

def Color.opaqueRgb (red green blue : UInt8) : Color := ⟨red, green, blue, 255⟩

inductive Value
  | string (text : String)
  | color (color : Color)
  | integer (number : Int64)
  | float (number : Binary64)
  | event (handler : String)
deriving DecidableEq, Repr

namespace Value

def type : Value → AttributeType
  | string _ => .string
  | color _ => .color
  | integer _ => .integer
  | float _ => .float
  | event _ => .event

/-- Floats are compared by value, all else exactly. -/
def same : Value → Value → Bool
  | float x, float y => x.sameValue y
  | v, w => v = w

end Value

end UiMarkup
