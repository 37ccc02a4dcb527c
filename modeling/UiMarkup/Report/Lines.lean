import UiMarkup.Text.Blank
import UiMarkup.Text.Width

/-!
# Lines of a source, as reports count them

Reports end a line at every character that Unicode ends one at, and count
places in characters. A line end belongs to the line before it.
-/

namespace UiMarkup

def isLineEnd (c : Char) : Bool :=
  c = '\n' || c = '\r' || c = '\x0b' || c = '\x0c' || c = '\u0085' || c = '\u2028' || c = '\u2029'

/-- The lines of a text. A carriage return and a newline end a line together. -/
def splitLines : List Char → List (List Char)
  | [] => []
  | '\r' :: '\n' :: cs => ['\r', '\n'] :: splitLines cs
  | c :: cs =>
    if isLineEnd c then [c] :: splitLines cs
    else match splitLines cs with
      | [] => [[c]]
      | line :: lines => (c :: line) :: lines

/-- A line of a source. Lines are numbered from 1, and `start` counts characters. -/
structure SourceLine where
  number : Nat
  start : Nat
  text : List Char
deriving DecidableEq, Repr

namespace SourceLine

def stop (l : SourceLine) : Nat := l.start + l.text.length

/-- The text without its end and the white space in front of it. -/
def shown (l : SourceLine) : List Char := dropBlankEnd l.text

def numberFrom (number start : Nat) : List (List Char) → List SourceLine
  | [] => []
  | text :: rest => ⟨number, start, text⟩ :: numberFrom (number + 1) (start + text.length) rest

/-- All lines of a source. An empty source is one empty line. -/
def ofSource (source : List Char) : List SourceLine :=
  match splitLines source with
  | [] => [⟨1, 0, []⟩]
  | lines => numberFrom 1 0 lines

/-- The line that the character at `offset` is on. The end of a source is on its last line. -/
def at? (lines : List SourceLine) (offset : Nat) : Option SourceLine :=
  (lines.filter (·.start ≤ offset)).getLast?.filter (offset ≤ ·.stop)

/-! ## Columns -/

/-- Tabs end at every fourth column. -/
def tabWidth : Nat := 4

/-- How many cells the character in a column takes. -/
def cellsOf (c : Char) (column : Nat) : Nat :=
  if c = '\t' then tabWidth - column % tabWidth
  else if isBlank c then 1
  else cellWidth c

/-- How many cells each of the first `count` columns takes. Behind the shown text a column
takes one. -/
def columnWidths (l : SourceLine) (count : Nat) : List Nat :=
  let shown := l.shown.zipIdx.map fun (c, column) => cellsOf c column
  shown.take count ++ List.replicate (count - shown.length) 1

end SourceLine

end UiMarkup
