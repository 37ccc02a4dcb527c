import UiMarkup.Declaration.ParseError
import UiMarkup.Value.Literal

/-!
# What can be wrong with a document

A document that reads well may still not fit its schema. Every place where it
does not fit is an error of its own.
-/

namespace UiMarkup

namespace ValidationError

inductive Cause
  | unknownKind (kind : String)
  | unknownAttribute (kind name : String)
  | invalidLiteral (name : String) (literal : LiteralError)
  | missingRequired (kind name : String)
deriving DecidableEq, Repr

def Cause.message : Cause → String
  | unknownKind kind => "unknown component kind '" ++ kind ++ "'"
  | unknownAttribute kind name => "component '" ++ kind ++ "' has no attribute '" ++ name ++ "'"
  | invalidLiteral name literal => "attribute '" ++ name ++ "': " ++ literal.text
  | missingRequired kind name =>
    "component '" ++ kind ++ "' is missing required attribute '" ++ name ++ "'"

end ValidationError

structure ValidationError where
  span : Span
  cause : ValidationError.Cause
deriving DecidableEq, Repr

namespace ValidationError

def text (e : ValidationError) : String :=
  "Validation error at " ++ e.span.text ++ ": " ++ e.cause.message

/-! ## Order -/

/-- Puts an error in front of the first one that does not start before it. -/
def insertByStart (e : ValidationError) : List ValidationError → List ValidationError
  | [] => [e]
  | f :: rest => if e.span.start ≤ f.span.start then e :: f :: rest else f :: insertByStart e rest

/-- Errors in the order of the source. Those with one start keep their order. -/
def sortByStart (errors : List ValidationError) : List ValidationError :=
  errors.foldr insertByStart []

end ValidationError

/-- Why a document or a stylesheet is refused. -/
inductive CheckError
  | parse (error : ParseError)
  | validation (errors : List ValidationError)
deriving DecidableEq, Repr

namespace CheckError

/-- The number of errors. -/
def size : CheckError → Nat
  | parse _ => 1
  | validation errors => errors.length

def text : CheckError → String
  | parse error => "parse errors: " ++ error.text
  | validation errors =>
    "validation errors: " ++ joinWith "; " (errors.map ValidationError.text)

end CheckError

end UiMarkup
