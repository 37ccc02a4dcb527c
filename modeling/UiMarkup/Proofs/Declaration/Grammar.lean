import UiMarkup.Declaration.Basic
import UiMarkup.Text.Pieces
import UiMarkup.Token.Basic

/-!
# The grammar of declarations

Which tokens make a declaration, and which tree they make. `Reading` reads one
token at a time and keeps stacks. Here nothing is read: a tree is derived from
the tokens of its parts, put side by side.
-/

namespace UiMarkup.Grammar

/-! ## Values -/

/-- `','?` -/
inductive OptionalComma : List (Placed Token) → Prop
  | absent : OptionalComma []
  | present {comma : Placed Token} : comma.value = .comma → OptionalComma [comma]

mutual

/-- `value := string | number | hex-color | ident | '(' items ','? ')'` -/
inductive Value : List (Placed Token) → Placed String → Prop
  | scalar {t : Placed Token} {text : String} :
      t.value.scalar? = some text → Value [t] ⟨text, t.span⟩
  /-- A tuple is written anew, with one blank behind each comma. -/
  | tuple {open_ close : Placed Token} {ts commas : List (Placed Token)} {items : List String} :
      open_.value = .parenOpen → Items ts items → OptionalComma commas →
      close.value = .parenClose →
      Value (open_ :: ts ++ commas ++ [close])
        ⟨"(" ++ joinWith ", " items ++ ")", ⟨open_.span.start, close.span.stop⟩⟩

/-- `items := value (',' value)*` -/
inductive Items : List (Placed Token) → List String → Prop
  | one {ts : List (Placed Token)} {v : Placed String} : Value ts v → Items ts [v.value]
  | more {ts us : List (Placed Token)} {items : List String} {comma : Placed Token}
      {v : Placed String} :
      Items ts items → comma.value = .comma → Value us v →
      Items (ts ++ comma :: us) (items ++ [v.value])

end

/-! ## Declarations -/

/-- `assignment := ident ':' value ';'` -/
inductive Assigns : List (Placed Token) → Assignment → Prop
  | mk {name colon semicolon : Placed Token} {text : String} {ts : List (Placed Token)}
      {v : Placed String} :
      name.value = .ident text → colon.value = .colon → Value ts v →
      semicolon.value = .semicolon →
      Assigns (name :: colon :: ts ++ [semicolon])
        ⟨⟨text, name.span⟩, v, ⟨name.span.start, semicolon.span.stop⟩⟩

/-- `heading := ident ('.' ident)?` -/
inductive Heading : List (Placed Token) → Placed String → Option (Placed String) → Prop
  | plain {kind : Placed Token} {text : String} :
      kind.value = .ident text → Heading [kind] ⟨text, kind.span⟩ none
  | styled {kind dot cls : Placed Token} {text clsText : String} :
      kind.value = .ident text → dot.value = .dot → cls.value = .ident clsText →
      Heading [kind, dot, cls] ⟨text, kind.span⟩ (some ⟨clsText, cls.span⟩)

mutual

/-- `declaration := heading '{' body '}'` -/
inductive Declares : List (Placed Token) → Declaration → Prop
  | mk {hs ts : List (Placed Token)} {open_ close : Placed Token} {kind : Placed String}
      {styleClass : Option (Placed String)} {assignments : List Assignment}
      {children : List Declaration} :
      Heading hs kind styleClass → open_.value = .braceOpen → Body ts assignments children →
      close.value = .braceClose →
      Declares (hs ++ open_ :: ts ++ [close])
        ⟨kind, styleClass, assignments, children, ⟨kind.span.start, close.span.stop⟩⟩

/-- `body := (assignment | declaration)*`. Both keep their order, each among its own. -/
inductive Body : List (Placed Token) → List Assignment → List Declaration → Prop
  | empty : Body [] [] []
  | assign {ts us : List (Placed Token)} {assignments : List Assignment}
      {children : List Declaration} {a : Assignment} :
      Body ts assignments children → Assigns us a →
      Body (ts ++ us) (assignments ++ [a]) children
  | child {ts us : List (Placed Token)} {assignments : List Assignment}
      {children : List Declaration} {d : Declaration} :
      Body ts assignments children → Declares us d →
      Body (ts ++ us) assignments (children ++ [d])

end

/-- `document := declaration*` -/
inductive Roots : List (Placed Token) → List Declaration → Prop
  | nil : Roots [] []
  | cons {ts us : List (Placed Token)} {d : Declaration} {ds : List Declaration} :
      Declares ts d → Roots us ds → Roots (ts ++ us) (d :: ds)

/-! ## Bodies side by side -/

theorem body_append {ts us : List (Placed Token)} {as bs : List Assignment}
    {ds es : List Declaration} (h : Body ts as ds) :
    Body us bs es → Body (ts ++ us) (as ++ bs) (ds ++ es)
  | .empty => by simpa using h
  | .assign hbody hassigns => by
    rw [← List.append_assoc, ← List.append_assoc]
    exact .assign (body_append h hbody) hassigns
  | .child hbody hdeclares => by
    rw [← List.append_assoc, ← List.append_assoc]
    exact .child (body_append h hbody) hdeclares

/-- A document is a body that assigns nothing. -/
theorem body_of_roots {ts : List (Placed Token)} {ds : List Declaration} (h : Roots ts ds) :
    Body ts [] ds := by
  induction h with
  | nil => exact .empty
  | cons hdeclares _ ih => exact body_append (.child .empty hdeclares) ih

end UiMarkup.Grammar
