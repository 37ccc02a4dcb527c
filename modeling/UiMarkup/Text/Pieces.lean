/-!
# Text in pieces

Joining texts with something between them, and the way back.
-/

namespace UiMarkup

/-- The texts one behind the other, with `between` between any two. -/
def joinWith (between : String) : List String → String
  | [] => ""
  | [text] => text
  | text :: texts => text ++ between ++ joinWith between texts

/-- The pieces of a text that `mark` separates. There is always at least one. -/
def piecesAt (mark : Char) : List Char → List (List Char)
  | [] => [[]]
  | c :: cs =>
    if c = mark then [] :: piecesAt mark cs
    else match piecesAt mark cs with
      | [] => [[c]]
      | piece :: pieces => (c :: piece) :: pieces

/-- The part of a text in front of the first `mark`, and the part behind it if there is one. -/
def cutAt (mark : Char → Bool) : List Char → List Char × Option (List Char)
  | [] => ([], none)
  | c :: cs =>
    if mark c then ([], some cs)
    else match cutAt mark cs with
      | (front, back) => (c :: front, back)

/-- `n` copies of a text. -/
def timesText (n : Nat) (text : String) : String :=
  String.join (List.replicate n text)

end UiMarkup
