import UiMarkup.Source

/-!
# Tokens

What a source is made of once blanks and comments are left out. A token with
a text keeps it exactly as written: strings keep their quotes and escapes,
numbers their sign, colors their `#`.
-/

namespace UiMarkup

inductive Token
  | braceOpen
  | braceClose
  | parenOpen
  | parenClose
  | colon
  | semicolon
  | comma
  | dot
  | ident (text : String)
  | string (text : String)
  | number (text : String)
  | hexColor (text : String)
deriving DecidableEq, Repr

namespace Token

/-- The token that a punctuation mark is. -/
def ofMark? : Char → Option Token
  | '{' => some braceOpen
  | '}' => some braceClose
  | '(' => some parenOpen
  | ')' => some parenClose
  | ':' => some colon
  | ';' => some semicolon
  | ',' => some comma
  | '.' => some dot
  | _ => none

/-- The token as it stands in the source. -/
def text : Token → String
  | braceOpen => "\x7b"
  | braceClose => "\x7d"
  | parenOpen => "("
  | parenClose => ")"
  | colon => ":"
  | semicolon => ";"
  | comma => ","
  | dot => "."
  | ident text | string text | number text | hexColor text => text

/-- The token as a message names it. -/
def describe : Token → String
  | ident text => "identifier '" ++ text ++ "'"
  | string text => "string " ++ text
  | number text => "number " ++ text
  | hexColor text => "color " ++ text
  | mark => "'" ++ mark.text ++ "'"

/-- The text of a token that can stand as a value by itself. -/
def scalar? : Token → Option String
  | ident text | string text | number text | hexColor text => some text
  | _ => none

end Token

end UiMarkup
