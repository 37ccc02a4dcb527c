import UiMarkup.Toml.Value

/-!
# Building TOML tables

Headers open tables and dotted keys reach into them. No table is opened twice,
no key is given twice, and what is written between braces is never extended.
-/

namespace UiMarkup.Toml

namespace Entries

/-- Puts a value in the place of the one that a key has. -/
def replace (key : String) (v : Value) : Entries → Entries
  | [] => []
  | (k, w) :: rest => if k = key then (k, v) :: rest else (k, w) :: replace key v rest

/-- Whether a path that makes tables of one form may lead through a table of another. -/
def mayPass (made form : TableForm) : Bool :=
  match made, form with
  | _, .closed => false
  | .dotted, .header => false
  | _, _ => true

/-- Changes the table at the end of a path. Tables that are missing on the way
are made, and of several tables under one key the last is meant. -/
def alter (made : TableForm) (change : TableForm → Entries → Except Error Entries) :
    List String → TableForm → Entries → Except Error Entries
  | [], form, es => change form es
  | key :: path, _, es =>
    match es.lookup key with
    | none => do
      let inner ← alter made change path made []
      .ok (es ++ [(key, .table made inner)])
    | some (.table form inner) =>
      if mayPass made form then do
        let inner' ← alter made change path form inner
        .ok (replace key (.table form inner') es)
      else .error (.duplicateKey key)
    | some (.tables items) =>
      match items.getLast? with
      | none => .error (.notTable key)
      | some last => do
        let last' ← alter made change path .header last
        .ok (replace key (.tables (items.dropLast ++ [last'])) es)
    | some _ => .error (.notTable key)

/-- Gives a key a value. Behind a dotted key stands a table that dotted keys made. -/
def put (isDotted : Bool) (key : String) (v : Value) (form : TableForm) (es : Entries) :
    Except Error Entries :=
  if isDotted && form ≠ .dotted then .error (.duplicateKey key)
  else match es.lookup key with
    | some _ => .error (.duplicateKey key)
    | none => .ok (es ++ [(key, v)])

/-- Gives the key at the end of a dotted key a value. -/
def assign (path : List String) (key : String) (v : Value) (form : TableForm) (es : Entries) :
    Except Error Entries :=
  alter .dotted (put (!path.isEmpty) key v) path form es

/-- Opens the table of a header. -/
def openTable (path : List String) (key : String) (root : Entries) : Except Error Entries :=
  alter .implied (fun _ es =>
    match es.lookup key with
    | none => .ok (es ++ [(key, .table .header [])])
    | some (.table .implied inner) => .ok (replace key (.table .header inner) es)
    | some _ => .error (.duplicateKey key)) path .header root

/-- Opens one more table of a header in double brackets. -/
def openNext (path : List String) (key : String) (root : Entries) : Except Error Entries :=
  alter .implied (fun _ es =>
    match es.lookup key with
    | none => .ok (es ++ [(key, .tables [[]])])
    | some (.tables items) => .ok (replace key (.tables (items ++ [[]])) es)
    | some _ => .error (.duplicateKey key)) path .header root

end Entries

end UiMarkup.Toml
