import UiMarkup.Declaration.Basic
import UiMarkup.Text.Pieces

/-!
# Canonical text

The one layout that every declaration has: four blanks for each level, an
assignment to a line, assignments in front of children.
-/

namespace UiMarkup

def Assignment.print (a : Assignment) : String :=
  a.name.value ++ ": " ++ a.value.value ++ ";"

namespace Declaration

/-- `kind`, or `kind.class`. -/
def heading (kind : String) : Option String → String
  | none => kind
  | some styleClass => kind ++ "." ++ styleClass

mutual

/-- The lines of a declaration that stands `level` levels deep. -/
def printAt (level : Nat) : Declaration → String
  | ⟨kind, styleClass, assignments, children, _⟩ =>
    let indent := timesText level "    "
    let first := indent ++ heading kind.value (styleClass.map Placed.value)
    if assignments.isEmpty && children.isEmpty then first ++ " \x7b\x7d\n"
    else
      first ++ " \x7b\n"
        ++ String.join (assignments.map fun a => indent ++ "    " ++ a.print ++ "\n")
        ++ printAllAt (level + 1) children ++ indent ++ "\x7d\n"

def printAllAt (level : Nat) : List Declaration → String
  | [] => ""
  | d :: ds => d.printAt level ++ printAllAt level ds

end

def print (d : Declaration) : String := d.printAt 0

end Declaration

def Document.print (doc : Document) : String := Declaration.printAllAt 0 doc.roots

end UiMarkup
