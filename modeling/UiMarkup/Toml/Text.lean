import UiMarkup.Toml.Value

/-!
# TOML strings and comments

Each reader takes the front of a text and gives what it means and the rest.
-/

namespace UiMarkup.Toml

def isIndent (c : Char) : Bool := c = ' ' || c = '\t'

/-- Control characters other than the tab stand nowhere but in line ends. -/
def isPrintable (c : Char) : Bool := c = '\t' || (0x20 ≤ c.toNat && c.toNat ≠ 0x7F)

def skipIndent (cs : List Char) : List Char := cs.dropWhile isIndent

/-- The text behind a line end. -/
def newline? : List Char → Option (List Char)
  | '\n' :: cs => some cs
  | '\r' :: '\n' :: cs => some cs
  | _ => none

/-- Leaves a comment out, if there is one. -/
def skipComment : List Char → List Char
  | '#' :: cs => cs.dropWhile isPrintable
  | cs => cs

/-- Leaves out blanks, comments and line ends. -/
def skipLines : Nat → List Char → List Char
  | 0, cs => cs
  | fuel + 1, cs =>
    match newline? (skipComment (skipIndent cs)) with
    | some rest => skipLines fuel rest
    | none => skipIndent cs

/-! ## Strings on one line -/

/-- The character with a hexadecimal number. -/
def scalar? (digits : List Char) : Option Char := do
  let n ← ofDigitsIn? 16 digits
  if n.isValidChar then some (Char.ofNat n) else none

/-- The character that an escape sequence means, read behind its backslash. -/
def escape? : List Char → Option (Char × List Char)
  | 'b' :: cs => some ('\x08', cs)
  | 't' :: cs => some ('\t', cs)
  | 'n' :: cs => some ('\n', cs)
  | 'f' :: cs => some ('\x0c', cs)
  | 'r' :: cs => some ('\r', cs)
  | '"' :: cs => some ('"', cs)
  | '\\' :: cs => some ('\\', cs)
  | 'u' :: cs => do
    if cs.length < 4 then none else some (← scalar? (cs.take 4), cs.drop 4)
  | 'U' :: cs => do
    if cs.length < 8 then none else some (← scalar? (cs.take 8), cs.drop 8)
  | _ => none

abbrev Reader (α : Type) := List Char → Except Error (α × List Char)

def cons (c : Char) (r : Except Error (List Char × List Char)) :
    Except Error (List Char × List Char) :=
  r.map fun (text, rest) => (c :: text, rest)

/-- The rest of a string with escapes, behind its opening quote. -/
def basicString : Nat → Reader (List Char)
  | 0, cs => .error (.unexpected cs)
  | _ + 1, [] => .error (.unexpected [])
  | _ + 1, '"' :: cs => .ok ([], cs)
  | fuel + 1, '\\' :: cs =>
    match escape? cs with
    | some (c, rest) => cons c (basicString fuel rest)
    | none => .error (.unexpected ('\\' :: cs))
  | fuel + 1, c :: cs =>
    if isPrintable c then cons c (basicString fuel cs) else .error (.unexpected (c :: cs))

/-- The rest of a string without escapes, behind its opening quote. -/
def literalString : Reader (List Char)
  | [] => .error (.unexpected [])
  | '\'' :: cs => .ok ([], cs)
  | c :: cs => if isPrintable c then cons c (literalString cs) else .error (.unexpected (c :: cs))

/-! ## Strings on several lines -/

/-- Up to two quotes may stand right before the three that close a string. -/
def closing? (quote : Char) (cs : List Char) : Option (List Char × List Char) :=
  let run := (cs.takeWhile (· = quote)).take 5
  if run.length < 3 then none else some (run.drop 3, cs.drop run.length)

/-- A backslash at the end of a line leaves out all blanks and line ends up to
the next text. -/
def skipContinued : Nat → List Char → List Char
  | 0, cs => cs
  | fuel + 1, cs =>
    match newline? (skipIndent cs) with
    | some rest => skipContinued fuel rest
    | none => skipIndent cs

def multilineBasic : Nat → Reader (List Char)
  | 0, cs => .error (.unexpected cs)
  | _ + 1, [] => .error (.unexpected [])
  | fuel + 1, c :: cs =>
    match closing? '"' (c :: cs) with
    | some closed => .ok closed
    | none =>
      match newline? (c :: cs) with
      | some rest => cons '\n' (multilineBasic fuel rest)
      | none =>
        if c = '\\' then
          match escape? cs, newline? (skipIndent cs) with
          | some (c', rest), _ => cons c' (multilineBasic fuel rest)
          | none, some rest => multilineBasic fuel (skipContinued rest.length rest)
          | none, none => .error (.unexpected (c :: cs))
        else if isPrintable c then cons c (multilineBasic fuel cs)
        else .error (.unexpected (c :: cs))

def multilineLiteral : Nat → Reader (List Char)
  | 0, cs => .error (.unexpected cs)
  | _ + 1, [] => .error (.unexpected [])
  | fuel + 1, c :: cs =>
    match closing? '\'' (c :: cs) with
    | some closed => .ok closed
    | none =>
      match newline? (c :: cs) with
      | some rest => cons '\n' (multilineLiteral fuel rest)
      | none =>
        if isPrintable c then cons c (multilineLiteral fuel cs)
        else .error (.unexpected (c :: cs))

/-- A line end right behind the opening quotes is left out. -/
def skipFirstNewline (cs : List Char) : List Char := (newline? cs).getD cs

def stringText : Reader (List Char)
  | '"' :: '"' :: '"' :: cs => multilineBasic (cs.length + 1) (skipFirstNewline cs)
  | '\'' :: '\'' :: '\'' :: cs => multilineLiteral (cs.length + 1) (skipFirstNewline cs)
  | '"' :: cs => basicString (cs.length + 1) cs
  | '\'' :: cs => literalString cs
  | cs => .error (.unexpected cs)

end UiMarkup.Toml
