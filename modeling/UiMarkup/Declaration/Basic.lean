import UiMarkup.Source

/-!
# Declarations

A declaration names a component kind and says how one component of that kind
looks: `kind.class { name: value; child { } }`. Values are kept as the text
that was written. They get a type when a schema is consulted.
-/

namespace UiMarkup

/-- An assignment `name: value;`. -/
structure Assignment where
  name : Placed String
  value : Placed String
  span : Span
deriving DecidableEq, Repr

/-- Assignments and children keep the order of the source, and a name may be
assigned more than once. -/
structure Declaration where
  kind : Placed String
  styleClass : Option (Placed String)
  assignments : List Assignment
  children : List Declaration
  span : Span
deriving Repr

namespace Declaration

def kindName (d : Declaration) : String := d.kind.value

def className (d : Declaration) : Option String := d.styleClass.map Placed.value

/-- The first assignment to `name`. -/
def assignment? (d : Declaration) (name : String) : Option Assignment :=
  d.assignments.find? (·.name.value = name)

mutual

/-- The number of declarations on the longest way down, this one included. -/
def depth : Declaration → Nat
  | ⟨_, _, _, children, _⟩ => 1 + deepest children

def deepest : List Declaration → Nat
  | [] => 0
  | d :: ds => max d.depth (deepest ds)

end

/-- The declaration that a path of child numbers leads to. -/
def descend? (d : Declaration) : List Nat → Option Declaration
  | [] => some d
  | n :: path =>
    match d.children[n]? with
    | none => none
    | some child => child.descend? path

end Declaration

/-- A document is the list of its root declarations. -/
structure Document where
  roots : List Declaration
deriving Repr

namespace Document

/-- The declaration that a path leads to: the number of a root, then numbers of children. -/
def descend? (doc : Document) : List Nat → Option Declaration
  | [] => none
  | n :: path =>
    match doc.roots[n]? with
    | none => none
    | some root => root.descend? path

end Document

end UiMarkup
