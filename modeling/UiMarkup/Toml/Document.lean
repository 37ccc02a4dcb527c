import UiMarkup.Toml.Text
import UiMarkup.Toml.Scalar
import UiMarkup.Toml.Table

/-!
# TOML documents

A document is a table, written line by line.
-/

namespace UiMarkup.Toml

/-- Arrays, inline tables and dotted keys go less than this deep. -/
def depthLimit : Nat := 80

def expect (c : Char) : List Char → Except Error (List Char)
  | d :: cs => if d = c then .ok cs else .error (.unexpected (d :: cs))
  | [] => .error (.unexpected [])

/-! ## Keys -/

def isBareKeyPart (c : Char) : Bool := c.isAlphanum || c = '_' || c = '-'

def simpleKey (cs : List Char) : Except Error (String × List Char) :=
  match cs with
  | '"' :: rest => (basicString (rest.length + 1) rest).map fun (t, rest) => (String.ofList t, rest)
  | '\'' :: rest => (literalString rest).map fun (t, rest) => (String.ofList t, rest)
  | _ =>
    match cs.takeWhile isBareKeyPart with
    | [] => .error (.unexpected cs)
    | key => .ok (String.ofList key, cs.dropWhile isBareKeyPart)

/-- The parts of a key that points separate. -/
def keyParts : Nat → Reader (List String)
  | 0, cs => .error (.unexpected cs)
  | fuel + 1, cs => do
    let (key, rest) ← simpleKey (skipIndent cs)
    match skipIndent rest with
    | '.' :: rest =>
      let (keys, rest) ← keyParts fuel rest
      .ok (key :: keys, rest)
    | rest => .ok ([key], rest)

/-- A key as the path to a table, and the last part. -/
def keyPath (cs : List Char) : Except Error ((List String × String) × List Char) := do
  let (keys, rest) ← keyParts (cs.length + 1) cs
  match keys.getLast? with
  | none => .error (.unexpected cs)
  | some last =>
    if keys.length < depthLimit then .ok ((keys.dropLast, last), rest) else .error .tooDeep

/-! ## Values -/

def word (cs : List Char) : Except Error (Value × List Char) :=
  match ofWord? (takeWord cs).1 with
  | some v => .ok (v, (takeWord cs).2)
  | none => .error (.unexpected cs)

mutual

/-- A value with at most `depth` brackets and braces around each other. -/
def value : Nat → Nat → Reader Value
  | 0, _, cs => .error (.unexpected cs)
  | fuel + 1, depth, cs =>
    match cs with
    | '"' :: _ | '\'' :: _ => (stringText cs).map fun (t, rest) => (.string (String.ofList t), rest)
    | '[' :: rest =>
      match depth with
      | 0 => .error .tooDeep
      | depth + 1 => (items fuel depth rest).map fun (vs, rest) => (.array vs, rest)
    | '\x7b' :: rest =>
      match depth with
      | 0 => .error .tooDeep
      | depth + 1 =>
        match skipIndent rest with
        | '\x7d' :: rest => .ok (.table .closed [], rest)
        | rest => (pairs fuel depth [] rest).map fun (es, rest) => (.table .closed es, rest)
    | _ => word cs

/-- The items of an array through its closing bracket. A comma may stand behind the last. -/
def items : Nat → Nat → Reader (List Value)
  | 0, _, cs => .error (.unexpected cs)
  | fuel + 1, depth, cs =>
    match skipLines cs.length cs with
    | ']' :: rest => .ok ([], rest)
    | cs => do
      let (v, rest) ← value fuel depth cs
      match skipLines rest.length rest with
      | ',' :: rest =>
        let (vs, rest) ← items fuel depth rest
        .ok (v :: vs, rest)
      | ']' :: rest => .ok ([v], rest)
      | rest => .error (.unexpected rest)

/-- The pairs of an inline table through its closing brace, added to those before. -/
def pairs : Nat → Nat → Entries → Reader Entries
  | 0, _, _, cs => .error (.unexpected cs)
  | fuel + 1, depth, es, cs => do
    let ((path, key), rest) ← keyPath cs
    let rest ← expect '=' rest
    let (v, rest) ← value fuel depth (skipIndent rest)
    let es ← es.assign path key v .closed
    match skipIndent rest with
    | ',' :: rest => pairs fuel depth es rest
    | '\x7d' :: rest => .ok (es, rest)
    | rest => .error (.unexpected rest)

end

/-! ## Lines -/

/-- What is read so far, and the header that is open. -/
structure State where
  root : Entries
  header : List String

/-- The text behind the end of a line. -/
def lineEnd (cs : List Char) : Except Error (List Char) :=
  match skipComment (skipIndent cs) with
  | [] => .ok []
  | rest =>
    match newline? rest with
    | some rest => .ok rest
    | none => .error (.unexpected rest)

def headerLine (s : State) (cs : List Char) : Except Error (State × List Char) := do
  match cs with
  | '[' :: cs =>
    let ((path, key), rest) ← keyPath cs
    let rest ← expect ']' rest
    let rest ← expect ']' rest
    .ok (⟨← s.root.openNext path key, path ++ [key]⟩, rest)
  | cs =>
    let ((path, key), rest) ← keyPath cs
    let rest ← expect ']' rest
    .ok (⟨← s.root.openTable path key, path ++ [key]⟩, rest)

def pairLine (s : State) (cs : List Char) : Except Error (State × List Char) := do
  let ((path, key), rest) ← keyPath cs
  let rest ← expect '=' rest
  let (v, rest) ← value (rest.length + 1) (depthLimit - 1) (skipIndent rest)
  let root ← s.root.alter .implied (fun form es => es.assign path key v form) s.header .header
  .ok ({ s with root }, rest)

def line (s : State) (cs : List Char) : Except Error (State × List Char) := do
  let (s, rest) ← match skipIndent cs with
    | '[' :: rest => headerLine s rest
    | rest =>
      match skipComment rest with
      | [] | '\n' :: _ | '\r' :: '\n' :: _ => .ok (s, rest)
      | _ => pairLine s rest
  .ok (s, ← lineEnd rest)

def lines : Nat → State → List Char → Except Error Entries
  | _, s, [] => .ok s.root
  | 0, _, cs => .error (.unexpected cs)
  | fuel + 1, s, cs => do
    let (s, rest) ← line s cs
    lines fuel s rest

/-- Reads a document. A byte order mark in front of it means nothing. -/
def parse (source : String) : Except Error Entries :=
  let cs := match source.toList with
    | '\ufeff' :: cs => cs
    | cs => cs
  lines (cs.length + 1) ⟨[], []⟩ cs

end UiMarkup.Toml
