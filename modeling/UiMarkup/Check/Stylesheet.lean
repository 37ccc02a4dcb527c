import UiMarkup.Check.Assignment
import UiMarkup.Declaration.Stream
import UiMarkup.FileText

/-!
# Stylesheets

A stylesheet is a document whose declarations say what is assigned where a
document assigns nothing. A declaration without class is a rule for its kind,
one with a class is a rule for that class of the kind. How declarations are
nested means nothing.
-/

namespace UiMarkup

/-- The rules for one kind. -/
structure KindStyle where
  base : NameMap Value
  classes : NameMap (NameMap Value)
deriving DecidableEq

structure Stylesheet where
  kinds : NameMap KindStyle
deriving DecidableEq

namespace KindStyle

def empty : KindStyle := ⟨.empty, .empty⟩

/-- Adds values to the rule of a class, or to the one without class. -/
def extend (k : KindStyle) (values : List (String × Value)) : Option String → KindStyle
  | none => { k with base := k.base.insertAll values }
  | some styleClass =>
    { k with classes := k.classes.update styleClass .empty (·.insertAll values) }

/-- Values of the class win. -/
def valuesFor (k : KindStyle) (styleClass : Option String) : NameMap Value :=
  match styleClass.bind k.classes.get? with
  | none => k.base
  | some rule => k.base.insertAll rule.entries

def same (k l : KindStyle) : Bool :=
  k.base.sameBy Value.same l.base && k.classes.sameBy (NameMap.sameBy Value.same) l.classes

end KindStyle

namespace Stylesheet

def empty : Stylesheet := ⟨.empty⟩

def isEmpty (s : Stylesheet) : Bool := s.kinds.isEmpty

/-- What is assigned to a component of this kind and class. -/
def valuesFor (s : Stylesheet) (kind : String) (styleClass : Option String) : NameMap Value :=
  match s.kinds.get? kind with
  | none => .empty
  | some style => style.valuesFor styleClass

/-- Floats are compared by value. -/
def same (s t : Stylesheet) : Bool := s.kinds.sameBy KindStyle.same t.kinds

/-! ## From a document -/

/-- Adds the rule that one declaration makes by itself. -/
def addRule (r : Registry) (s : Stylesheet) (d : Declaration) : Stylesheet :=
  match r.schema? d.kindName with
  | none => s
  | some schema =>
    ⟨s.kinds.update d.kindName .empty (·.extend (d.assignedValues schema) d.className)⟩

def ruleErrors (r : Registry) (d : Declaration) : List ValidationError :=
  match r.schema? d.kindName with
  | none => [⟨d.kind.span, .unknownKind d.kindName⟩]
  | some schema => d.assignmentErrors schema

def ofDeclarations (r : Registry) (ds : List Declaration) :
    Except (List ValidationError) Stylesheet :=
  let rules := Declaration.preorderAll ds
  match rules.flatMap (ruleErrors r) with
  | [] => .ok (rules.foldl (addRule r) empty)
  | errors => .error (ValidationError.sortByStart errors)

/-- Reads a stylesheet and checks every value in it. -/
def parse (r : Registry) (source : String) : Except CheckError Stylesheet := do
  let doc ← (Document.parse source defaultMaxDepth).mapError .parse
  (ofDeclarations r doc.roots).mapError .validation

end Stylesheet

/-! ## From a file -/

inductive StylesheetError
  | unreadable (error : ReadError)
  | invalid (error : CheckError)
deriving DecidableEq, Repr

def StylesheetError.message : StylesheetError → String
  | unreadable error => "Failed to read stylesheet file: " ++ error.message
  | invalid error => "Invalid stylesheet: " ++ error.text

/-- Loads a stylesheet as far as its file could be read. -/
def Stylesheet.ofFile (r : Registry) (text : Except ReadError String) :
    Except StylesheetError Stylesheet :=
  match text with
  | .error e => .error (.unreadable e)
  | .ok source => (parse r source).mapError .invalid

end UiMarkup
