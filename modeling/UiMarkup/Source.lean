/-!
# Places in a source

A source is a list of characters. A place in it is counted in bytes of its
UTF-8 form, and shown to people as a line and a column.
-/

namespace UiMarkup

/-- The number of bytes that the characters take up. -/
def byteLength : List Char → Nat
  | [] => 0
  | c :: cs => c.utf8Size + byteLength cs

@[simp] theorem byteLength_append (as bs : List Char) :
    byteLength (as ++ bs) = byteLength as + byteLength bs := by
  induction as with
  | nil => simp [byteLength]
  | cons c cs ih => simp [byteLength, ih, Nat.add_assoc]

/-! ## Spans -/

/-- A stretch of a source: its first byte and the byte behind its last. -/
structure Span where
  start : Nat
  stop : Nat
deriving DecidableEq, Repr, Inhabited

/-- A span is written as its two ends. -/
def Span.text (s : Span) : String := toString s.start ++ ".." ++ toString s.stop

/-- A value and where it stands in its source. -/
structure Placed (α : Type) where
  value : α
  span : Span
deriving DecidableEq, Repr

/-! ## Lines and columns -/

/-- Lines and columns count from 1, columns in characters. -/
structure Position where
  line : Nat
  column : Nat
deriving DecidableEq, Repr

namespace Position

def start : Position := ⟨1, 1⟩

/-- The place behind a character. -/
def step (p : Position) (c : Char) : Position :=
  if c = '\n' then ⟨p.line + 1, 1⟩ else ⟨p.line, p.column + 1⟩

/-- Walks over the characters that begin in front of the byte `offset`. -/
def advance (p : Position) : List Char → Nat → Position
  | [], _ => p
  | _ :: _, 0 => p
  | c :: cs, offset + 1 => advance (p.step c) cs (offset + 1 - c.utf8Size)

/-- The place of a byte of a source. An offset behind the source counts as its end. -/
def ofOffset (source : String) (offset : Nat) : Position :=
  start.advance source.toList offset

end Position

end UiMarkup
