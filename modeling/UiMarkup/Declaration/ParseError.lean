import UiMarkup.Token.Basic
import UiMarkup.Text.Pieces

/-!
# What can be wrong with a source

A source is refused at the first token that cannot go on where it stands, at
a brace that nests too deep, or at characters that begin no token.
-/

namespace UiMarkup

/-- The places between two tokens of a declaration, named for what stands in front. -/
inductive Place
  | root
  | rootKind
  | itemName
  | classDot
  | styleClass
  | body
  | value
  | tupleItem
  | tupleComma
  | assignedValue
deriving DecidableEq, Repr

/-- The punctuation that can go on at a place, in byte order. Identifiers and
literals are not listed. -/
def Place.expected : Place → List Token
  | root | classDot => []
  | rootKind => [.dot, .braceOpen]
  | itemName => [.dot, .colon, .braceOpen]
  | styleClass => [.braceOpen]
  | body => [.braceClose]
  | value => [.parenOpen]
  | tupleItem => [.parenClose, .comma]
  | tupleComma => [.parenOpen, .parenClose]
  | assignedValue => [.semicolon]

namespace ParseError

inductive Cause
  /-- A token that cannot stand there, or the end of the source. -/
  | unexpected (found : Option Token) (place : Place)
  /-- Characters that begin no token. -/
  | unrecognized (text : String)
  /-- A brace that opens a body deeper than the limit. -/
  | tooDeep (limit : Nat)
deriving DecidableEq, Repr

/-- The most characters of unrecognized text that a message quotes. -/
def quoteLimit : Nat := 20

/-- The first line of a text, without its line end. -/
def firstLine (text : List Char) : List Char :=
  match cutAt (· = '\n') text with
  | (line, none) => line
  | (line, some _) => if line.getLast? = some '\r' then line.dropLast else line

/-- The start of a text, with dots when something of it is missing. -/
def quote (text : List Char) : String :=
  let start := (firstLine text).take quoteLimit
  String.ofList start ++ if byteLength start < byteLength text then "..." else ""

namespace Cause

def message : Cause → String
  | unexpected (some found) _ => "Unexpected " ++ found.describe
  | unexpected none _ => "Unexpected end of input"
  | unrecognized text => "Unrecognized token '" ++ quote text.toList ++ "'"
  | tooDeep limit => "Declarations nested deeper than the maximum of " ++ toString limit

/-- What would have been accepted, as a message names it. -/
def expected : Cause → List String
  | unexpected _ place => place.expected.map Token.describe
  | unrecognized _ | tooDeep _ => []

end Cause

end ParseError

structure ParseError where
  span : Span
  cause : ParseError.Cause
deriving DecidableEq, Repr

namespace ParseError

def message (e : ParseError) : String := e.cause.message

def expected (e : ParseError) : List String := e.cause.expected

def text (e : ParseError) : String :=
  "Parse error at " ++ e.span.text ++ ": " ++ e.message

end ParseError

end UiMarkup
