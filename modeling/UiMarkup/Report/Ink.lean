/-!
# Text in colors

A report is a list of runs of text, each in one color of a terminal.
-/

namespace UiMarkup

inductive Ink
  /-- The color that the terminal has by itself. -/
  | plain
  /-- What an error is about. -/
  | blame
  /-- Source text around it. -/
  | source
  /-- The frame and the line numbers. -/
  | frame
  /-- The margin of lines that are not in the source. -/
  | margin
  | note
deriving DecidableEq, Repr

/-- The parameter of the control sequence that selects the color. -/
def Ink.code : Ink → Option String
  | plain => none
  | blame => some "31"
  | source => some "38;5;249"
  | frame => some "38;5;246"
  | margin => some "38;5;240"
  | note => some "38;5;115"

structure Run where
  ink : Ink
  text : String
deriving DecidableEq, Repr

namespace Run

def plain (text : String) : Run := ⟨.plain, text⟩

/-- Every run sets its color and sets it back. -/
def render (r : Run) : String :=
  match r.ink.code with
  | none => r.text
  | some code => "\x1b[" ++ code ++ "m" ++ r.text ++ "\x1b[0m"

/-- A run for each of `n` cells. -/
def cells (ink : Ink) (text : String) (n : Nat) : List Run := List.replicate n ⟨ink, text⟩

end Run

def renderRuns (runs : List Run) : String := String.join (runs.map Run.render)

end UiMarkup
