import UiMarkup.Report.Ink
import UiMarkup.Report.Lines
import UiMarkup.Check.Error

/-!
# Reports

A report shows an error in its source: where it is, the line, and an arrow
from the place to what is wrong there. An error on several lines shows its
first and its last line.
-/

namespace UiMarkup

structure Report where
  span : Span
  title : String
  label : String
  note : Option String
deriving DecidableEq, Repr

namespace Report

/-! ## Margins -/

def blanks (n : Nat) : String := timesText n " "

def digitCount (n : Nat) : Nat := (toString n).length

/-- The margin of a source line, `width` digits wide. -/
def numberMargin (width number : Nat) : List Run :=
  [.plain " ", ⟨.frame, blanks (width - digitCount number) ++ toString number ++ " │"⟩, .plain " "]

/-- The margin of a line that is not in the source. -/
def emptyMargin (width : Nat) (bar : String) : List Run :=
  [.plain " ", ⟨.margin, blanks (width + 1) ++ bar⟩, .plain " "]

def endLine : List Run := [.plain "\n"]

/-! ## Source lines -/

def inkAt (span : Span) (offset : Nat) : Ink :=
  if span.start ≤ offset ∧ offset < span.stop then .blame else .source

/-- The text of a line. White space is drawn as blanks. -/
def textRuns (span : Span) (l : SourceLine) : List Run :=
  (l.shown.zipIdx.map fun (c, column) =>
    let ink := inkAt span (l.start + column)
    if isBlank c then Run.cells ink " " (SourceLine.cellsOf c column)
    else [⟨ink, String.singleton c⟩]).flatten

/-- The cells of the columns before `count`. A column of several cells has `first` in its first
one and `more` in the others. -/
def columnRuns (l : SourceLine) (count : Nat) (first more : Nat → Run) : List Run :=
  (l.columnWidths count).zipIdx.flatMap fun
    | (0, _) => []
    | (n + 1, column) => first column :: List.replicate n (more column)

/-! ## An error within a line -/

/-- The column from which the arrow starts. -/
def arrowColumn (span : Span) (l : SourceLine) : Nat := (span.start + span.stop) / 2 - l.start

/-- The line under the source, which marks the place. -/
def markRuns (span : Span) (l : SourceLine) (count : Nat) : List Run :=
  let arrow := arrowColumn span l
  let marked (column : Nat) : Bool :=
    span.start ≤ l.start + column && l.start + column < span.stop
  let pointed := span.start = span.stop
  columnRuns l count
    (fun column =>
      if column = arrow then ⟨.blame, if pointed then "│" else "┬"⟩
      else if marked column then ⟨.blame, "─"⟩
      else .plain " ")
    (fun column =>
      if column = arrow then ⟨.blame, if pointed then " " else "─"⟩
      else if marked column then ⟨.blame, "─"⟩
      else .plain " ")

/-- The line below, which leads to the label. -/
def arrowRuns (span : Span) (l : SourceLine) (count : Nat) : List Run :=
  let arrow := arrowColumn span l
  columnRuns l count
    (fun column =>
      if column < arrow then .plain " "
      else if column = arrow then ⟨.blame, "╰"⟩
      else ⟨.blame, "─"⟩)
    (fun column => if column < arrow then .plain " " else ⟨.blame, "─"⟩)

def singleLine (r : Report) (width : Nat) (l : SourceLine) : List Run :=
  if l.stop < r.span.stop then emptyMargin width "│" ++ endLine
  else
    let count := r.span.stop - l.start + 2
    numberMargin width l.number ++ textRuns r.span l ++ endLine
      ++ emptyMargin width "│" ++ markRuns r.span l count ++ endLine
      ++ emptyMargin width "│" ++ arrowRuns r.span l count ++ [.plain (" " ++ r.label)] ++ endLine

/-! ## An error on several lines -/

def blames (texts : List String) : List Run := texts.map (Run.mk .blame)

/-- The last line with its arrow. -/
def lastLine (r : Report) (width : Nat) (last : SourceLine) : List Run :=
  let count := last.text.length + 2
  numberMargin width last.number ++ blames ["├", "─", "▶", " "] ++ textRuns r.span last ++ endLine
    ++ emptyMargin width "│" ++ blames ["│"] ++ [.plain "   "]
    ++ columnRuns last count (fun _ => .plain " ") (fun _ => .plain " ") ++ endLine
    ++ emptyMargin width "│" ++ blames ["╰", "─", "─", "─"]
    ++ columnRuns last count (fun _ => ⟨.blame, "─"⟩) (fun _ => ⟨.blame, "─"⟩)
    ++ [.plain (" " ++ r.label)] ++ endLine

/-- The lines behind the first one are left out, except for the last one. That one is left out
too if the error ends behind it. -/
def severalLines (r : Report) (width : Nat) (first last : SourceLine) : List Run :=
  let isOpen := last.stop < r.span.stop
  let gap := if isOpen || first.number + 1 < last.number then
      emptyMargin width "┆" ++ blames ["┆"] ++ [.plain "   "] ++ endLine
    else []
  numberMargin width first.number ++ blames ["╭", "─", "▶", " "] ++ textRuns r.span first ++ endLine
    ++ gap ++ (if isOpen then [] else r.lastLine width last)

/-! ## The whole report -/

/-- Where the error is, as the top of the frame says it. -/
def placeRuns (file : String) (width : Nat) (l : SourceLine) (span : Span) : List Run :=
  let place := file ++ ":" ++ toString l.number ++ ":" ++ toString (span.start - l.start + 1)
  [.plain (blanks (width + 2)), ⟨.frame, "╭"⟩, ⟨.frame, "─"⟩, ⟨.frame, "["⟩, .plain place,
      ⟨.frame, "]"⟩]
    ++ endLine ++ [.plain (blanks (width + 2)), ⟨.frame, "│"⟩] ++ endLine

/-- What stands between the margin and a note. A note is drawn beside the end of the first line
of the source, so an error on several lines that starts just there has its bar in front. -/
def noteIndent (span : Span) (lines : List SourceLine) : List Run :=
  if (lines.head?.map SourceLine.stop) = some span.start then blames ["│"] ++ [.plain "   "]
  else [.plain "    "]

def noteRuns (width : Nat) (indent : List Run) : Option String → List Run
  | none => []
  | some note =>
    emptyMargin width "│" ++ indent ++ endLine
      ++ emptyMargin width "│" ++ indent ++ [⟨.note, "Note"⟩, .plain (": " ++ note)] ++ endLine

def frameEnd (width : Nat) : List Run := ⟨.frame, timesText (width + 2) "─" ++ "╯"⟩ :: endLine

/-- The report without its title, when the span lies within the source. -/
def bodyRuns (r : Report) (lines : List SourceLine) (file : String) : List Run :=
  match SourceLine.at? lines r.span.start,
      SourceLine.at? lines (max (r.span.stop - 1) r.span.start) with
  | some first, some last =>
    let width := digitCount last.number
    let isSingle := first.number = last.number
    placeRuns file width first r.span
      ++ (if isSingle then r.singleLine width first else r.severalLines width first last)
      ++ noteRuns width (if isSingle then [] else noteIndent r.span lines) r.note
      ++ frameEnd width
  | _, _ => []

def draw (r : Report) (lines : List SourceLine) (file : String) : String :=
  renderRuns ([⟨.blame, "Error:"⟩, .plain (" " ++ r.title)] ++ endLine ++ r.bodyRuns lines file)

end Report

/-! ## What reports say -/

def ParseError.report (e : ParseError) : Report :=
  let expected := if e.expected.isEmpty then "" else "\nExpected: " ++ joinWith ", " e.expected
  ⟨e.span, e.message, e.message ++ expected, none⟩

def ValidationError.report (e : ValidationError) : Report :=
  match e.cause with
  | .unknownKind kind =>
    ⟨e.span, "Unknown component kind", "'" ++ kind ++ "' is not a registered component kind", none⟩
  | .unknownAttribute kind name =>
    ⟨e.span, "Unknown attribute", "'" ++ kind ++ "' has no attribute '" ++ name ++ "'", none⟩
  | .invalidLiteral _ literal =>
    ⟨e.span, "Invalid literal", "'" ++ literal.raw ++ "' is not a valid " ++ literal.expected.name,
      some literal.reason.message⟩
  | .missingRequired kind name =>
    ⟨e.span, "Missing required attribute", "'" ++ kind ++ "' needs a value for '" ++ name ++ "'",
      none⟩

namespace CheckError

def reports : CheckError → List Report
  | parse error => [error.report]
  | validation errors => errors.map ValidationError.report

/-- All reports of an error, one below the other.

A span that runs backwards is not covered. The end of a source has one if a blank or a comment
stands behind the last token. There is no report to draw for such a span, so what is drawn here
means nothing. -/
def draw (e : CheckError) (source file : String) : String :=
  let lines := SourceLine.ofSource source.toList
  String.join (e.reports.map fun r => r.draw lines file)

end CheckError

end UiMarkup
