import UiMarkup.Declaration.Basic
import UiMarkup.Declaration.ParseError

/-!
# Reading a declaration

A declaration is read one token at a time. What has been read so far is kept
as the place that was reached and the bodies and tuples that are still open
around it, the innermost first.
-/

namespace UiMarkup.Declaration

/-- A body that is not closed yet. The latest item comes first. -/
structure OpenBody where
  kind : Placed String
  styleClass : Option (Placed String)
  assignments : List Assignment
  children : List Declaration
deriving Repr

namespace OpenBody

def empty (kind : Placed String) (styleClass : Option (Placed String)) : OpenBody :=
  ⟨kind, styleClass, [], []⟩

/-- Takes in `name: value;`, which ends at the byte `stop`. -/
def assign (b : OpenBody) (name value : Placed String) (stop : Nat) : OpenBody :=
  { b with assignments := ⟨name, value, ⟨name.span.start, stop⟩⟩ :: b.assignments }

def adopt (b : OpenBody) (child : Declaration) : OpenBody :=
  { b with children := child :: b.children }

/-- The declaration, now that its body ends at the byte `stop`. -/
def close (b : OpenBody) (stop : Nat) : Declaration :=
  ⟨b.kind, b.styleClass, b.assignments.reverse, b.children.reverse, ⟨b.kind.span.start, stop⟩⟩

end OpenBody

/-- A tuple that is not closed yet. The latest item comes first. -/
structure OpenTuple where
  start : Nat
  items : List String
deriving DecidableEq, Repr

namespace OpenTuple

def add (t : OpenTuple) (item : String) : OpenTuple := { t with items := item :: t.items }

/-- A tuple is written with one blank behind each comma. -/
def close (t : OpenTuple) (stop : Nat) : Placed String :=
  ⟨"(" ++ joinWith ", " t.items.reverse ++ ")", ⟨t.start, stop⟩⟩

end OpenTuple

/-- An assignment whose value is not finished yet. -/
structure Pending where
  name : Placed String
  body : OpenBody
  outer : List OpenBody
deriving Repr

inductive Progress
  | root
  | rootKind (kind : Placed String)
  | classDot (kind : Placed String) (outer : List OpenBody)
  | styleClass (kind styleClass : Placed String) (outer : List OpenBody)
  | body (body : OpenBody) (outer : List OpenBody)
  | itemName (name : Placed String) (body : OpenBody) (outer : List OpenBody)
  | value (pending : Pending) (tuples : List OpenTuple)
  | tupleItem (pending : Pending) (tuple : OpenTuple) (tuples : List OpenTuple)
  | tupleComma (pending : Pending) (tuple : OpenTuple) (tuples : List OpenTuple)
  | assignedValue (pending : Pending) (value : Placed String)
deriving Repr

namespace Progress

def place : Progress → Place
  | root => .root
  | rootKind .. => .rootKind
  | classDot .. => .classDot
  | styleClass .. => .styleClass
  | body .. => .body
  | itemName .. => .itemName
  | value .. => .value
  | tupleItem .. => .tupleItem
  | tupleComma .. => .tupleComma
  | assignedValue .. => .assignedValue

/-- A value was read: the innermost open tuple takes it, or the assignment does. -/
def afterValue (p : Pending) (v : Placed String) : List OpenTuple → Progress
  | [] => assignedValue p v
  | t :: ts => tupleItem p (t.add v.value) ts

/-- One token more. -/
inductive Step
  | refused
  | more (progress : Progress)
  | done (declaration : Declaration)

/-- A value begins: a scalar is a value by itself, a parenthesis opens a tuple. -/
def stepValue (p : Pending) (tuples : List OpenTuple) (t : Placed Token) : Step :=
  match t.value with
  | .parenOpen => .more (value p (⟨t.span.start, []⟩ :: tuples))
  | scalar =>
    match scalar.scalar? with
    | some text => .more (afterValue p ⟨text, t.span⟩ tuples)
    | none => .refused

/-- A body was closed: the body around it adopts the declaration, or the root is done. -/
def closeBody (d : Declaration) : List OpenBody → Step
  | [] => .done d
  | b :: outer => .more (body (b.adopt d) outer)

def step (s : Progress) (t : Placed Token) : Step :=
  match s, t.value with
  | root, .ident text => .more (rootKind ⟨text, t.span⟩)
  | rootKind kind, .dot => .more (classDot kind [])
  | rootKind kind, .braceOpen => .more (body (.empty kind none) [])
  | classDot kind outer, .ident text => .more (styleClass kind ⟨text, t.span⟩ outer)
  | styleClass kind cls outer, .braceOpen => .more (body (.empty kind (some cls)) outer)
  | body b outer, .ident text => .more (itemName ⟨text, t.span⟩ b outer)
  | body b outer, .braceClose => closeBody (b.close t.span.stop) outer
  | itemName name b outer, .colon => .more (value ⟨name, b, outer⟩ [])
  | itemName name b outer, .dot => .more (classDot name (b :: outer))
  | itemName name b outer, .braceOpen => .more (body (.empty name none) (b :: outer))
  | value p tuples, _ => stepValue p tuples t
  | tupleItem p tuple tuples, .comma => .more (tupleComma p tuple tuples)
  | tupleItem p tuple tuples, .parenClose =>
    .more (afterValue p (tuple.close t.span.stop) tuples)
  | tupleComma p tuple tuples, .parenClose =>
    .more (afterValue p (tuple.close t.span.stop) tuples)
  | tupleComma p tuple tuples, _ => stepValue p (tuple :: tuples) t
  | assignedValue p v, .semicolon => .more (body (p.body.assign p.name v t.span.stop) p.outer)
  | _, _ => .refused

/-- Reads on until the root declaration is done, and gives it with the tokens
behind it. An end that comes too early is blamed on the end of the source, at the
byte `length`, and counted back to `stop`, the end of the last token. -/
def read (length stop : Nat) (s : Progress) :
    List (Placed Token) → Except ParseError (Declaration × List (Placed Token))
  | [] => .error ⟨⟨length, stop⟩, .unexpected none s.place⟩
  | t :: ts =>
    match s.step t with
    | .refused => .error ⟨t.span, .unexpected (some t.value) s.place⟩
    | .more s' => s'.read length t.span.stop ts
    | .done d => .ok (d, ts)

/-- A declaration takes at least one token. -/
theorem length_read_lt {length stop : Nat} {s : Progress} {ts rest : List (Placed Token)}
    {d : Declaration} (h : s.read length stop ts = .ok (d, rest)) : rest.length < ts.length := by
  induction ts generalizing s stop with
  | nil => simp [read] at h
  | cons t ts ih =>
    rw [read] at h
    split at h
    · simp at h
    · exact Nat.lt_succ_of_lt (ih h)
    · simp at h
      simp [h]

end Progress

/-! ## How deep the next declaration goes -/

/-- Where the next root declaration ends if braces alone are counted. -/
inductive Extent
  /-- Behind the brace that closes the first body, or that closes none. -/
  | closed (rest : List (Placed Token))
  /-- At the end of the tokens. -/
  | unclosed
  /-- Before that, a brace goes too deep. -/
  | tooDeep (brace : Span)
deriving DecidableEq, Repr

/-- Counts braces with `depth` bodies open and at most `limit` allowed. -/
def extent (limit depth : Nat) : List (Placed Token) → Extent
  | [] => .unclosed
  | t :: ts =>
    match t.value with
    | .braceOpen => if limit ≤ depth then .tooDeep t.span else extent limit (depth + 1) ts
    | .braceClose => if depth ≤ 1 then .closed ts else extent limit (depth - 1) ts
    | _ => extent limit depth ts

end UiMarkup.Declaration
