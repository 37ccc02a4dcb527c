import UiMarkup.Number.Binary64

/-!
# TOML values
-/

namespace UiMarkup.Toml

/-- How a table came to be, which decides what may be added to it later. -/
inductive TableForm
  /-- Opened by a header of its own, as the root is. -/
  | header
  /-- Named only on the way to a longer header. -/
  | implied
  /-- Made by a dotted key. -/
  | dotted
  /-- Written between braces. -/
  | closed
deriving DecidableEq, Repr

inductive Value
  | string (text : String)
  | boolean (value : Bool)
  | integer (number : Int)
  | float (number : Binary64)
  | dateTime (text : String)
  | array (items : List Value)
  | table (form : TableForm) (entries : List (String × Value))
  /-- Tables that headers in double brackets open one after the other. -/
  | tables (items : List (List (String × Value)))

abbrev Entries := List (String × Value)

inductive Error
  /-- Text that cannot stand where it does. -/
  | unexpected (rest : List Char)
  | duplicateKey (key : String)
  | notTable (key : String)
  | tooDeep
deriving DecidableEq, Repr

def Error.message : Error → String
  | unexpected rest => "cannot read on at '" ++ String.ofList (rest.take 20) ++ "'"
  | duplicateKey key => "duplicate key '" ++ key ++ "'"
  | notTable key => "'" ++ key ++ "' is not a table that can be extended"
  | tooDeep => "nested too deep"

end UiMarkup.Toml
