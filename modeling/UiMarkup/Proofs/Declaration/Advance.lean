import UiMarkup.Declaration.Reading
import UiMarkup.Proofs.Declaration.Grammar

/-!
# What the grammar derives is read

Read from the right place, the tokens of a value, an assignment or a
declaration lead to the place behind it, with its tree taken in.
-/

namespace UiMarkup.Declaration.Progress

open Grammar

/-! ## Runs of steps -/

/-- Where the tokens lead if none of them is refused and none ends the root. -/
def advance (s : Progress) : List (Placed Token) → Option Progress
  | [] => some s
  | t :: ts =>
    match s.step t with
    | .more s' => s'.advance ts
    | .refused | .done _ => none

@[simp] theorem advance_nil (s : Progress) : s.advance [] = some s := rfl

theorem advance_cons {s s' : Progress} {t : Placed Token} (h : s.step t = .more s')
    (ts : List (Placed Token)) : s.advance (t :: ts) = s'.advance ts := by
  rw [advance, h]

theorem advance_append {s s' : Progress} {ts : List (Placed Token)} (h : s.advance ts = some s')
    (us : List (Placed Token)) : s.advance (ts ++ us) = s'.advance us := by
  induction ts generalizing s with
  | nil =>
    obtain rfl : s = s' := by simpa using h
    rfl
  | cons t ts ih =>
    rw [advance] at h
    split at h
    case h_1 s'' hstep =>
      rw [List.cons_append, advance_cons hstep]
      exact ih h
    all_goals simp at h

/-- The end of the last token, or `stop` if there is none. -/
def stopBehind (stop : Nat) : List (Placed Token) → Nat
  | [] => stop
  | t :: ts => stopBehind t.span.stop ts

theorem read_append {s s' : Progress} {ts : List (Placed Token)} (h : s.advance ts = some s')
    (length stop : Nat) (rest : List (Placed Token)) :
    s.read length stop (ts ++ rest) = s'.read length (stopBehind stop ts) rest := by
  induction ts generalizing s stop with
  | nil =>
    obtain rfl : s = s' := by simpa using h
    rfl
  | cons t ts ih =>
    rw [advance] at h
    split at h
    case h_1 s'' hstep =>
      rw [List.cons_append, read, hstep]
      exact ih h t.span.stop
    all_goals simp at h

/-! ## Values -/

-- Every lemma below goes through a transition.
attribute [local simp] step

theorem step_value (p : Pending) (tuples : List OpenTuple) (t : Placed Token) :
    (value p tuples).step t = stepValue p tuples t := by
  simp

theorem step_of_scalar {t : Placed Token} {text : String} (h : t.value.scalar? = some text)
    (p : Pending) (tuples : List OpenTuple) :
    (value p tuples).step t = .more (afterValue p ⟨text, t.span⟩ tuples) := by
  rw [step_value, stepValue]
  split
  · simp_all [Token.scalar?]
  · rw [h]

theorem step_of_parenOpen {t : Placed Token} (h : t.value = .parenOpen) (p : Pending)
    (tuples : List OpenTuple) :
    (value p tuples).step t = .more (value p (⟨t.span.start, []⟩ :: tuples)) := by
  rw [step_value, stepValue, h]

theorem step_of_comma {t : Placed Token} (h : t.value = .comma) (p : Pending) (tuple : OpenTuple)
    (tuples : List OpenTuple) :
    (tupleItem p tuple tuples).step t = .more (tupleComma p tuple tuples) := by
  simp [h]

/-- Behind a comma a value is read as anywhere else. Only a closing parenthesis is not. -/
theorem step_tupleComma {t : Placed Token} (h : t.value ≠ .parenClose) (p : Pending)
    (tuple : OpenTuple) (tuples : List OpenTuple) :
    (tupleComma p tuple tuples).step t = (value p (tuple :: tuples)).step t := by
  simp

theorem value_head {ts : List (Placed Token)} {v : Placed String} (h : Value ts v) :
    ∃ t us, ts = t :: us ∧ t.value ≠ .parenClose := by
  cases h with
  | scalar hscalar =>
    refine ⟨_, _, rfl, ?_⟩
    intro hclose
    simp [hclose, Token.scalar?] at hscalar
  | tuple hopen _ _ _ => exact ⟨_, _, rfl, by simp [hopen]⟩

theorem advance_tupleComma {ts : List (Placed Token)} {v : Placed String} (h : Value ts v)
    (p : Pending) (tuple : OpenTuple) (tuples : List OpenTuple) :
    (tupleComma p tuple tuples).advance ts = (value p (tuple :: tuples)).advance ts := by
  obtain ⟨t, us, rfl, hhead⟩ := value_head h
  rw [advance, advance, step_tupleComma hhead]

/-- From an item, perhaps over a comma, to the end of its tuple. -/
theorem advance_close {commas : List (Placed Token)} {close : Placed Token}
    (hcommas : OptionalComma commas) (hclose : close.value = .parenClose) (p : Pending)
    (tuple : OpenTuple) (tuples : List OpenTuple) :
    (tupleItem p tuple tuples).advance (commas ++ [close]) =
      some (afterValue p (tuple.close close.span.stop) tuples) := by
  cases hcommas with
  | absent => simp [advance, hclose]
  | present hcomma => simp [advance, hcomma, hclose]

mutual

theorem advance_value {ts : List (Placed Token)} {v : Placed String} :
    Value ts v → ∀ (p : Pending) (tuples : List OpenTuple),
      (value p tuples).advance ts = some (afterValue p v tuples)
  | .scalar hscalar, p, tuples => by
    rw [advance_cons (step_of_scalar hscalar p tuples), advance_nil]
  | .tuple hopen hitems hcommas hclose, p, tuples => by
    rw [List.append_assoc, List.cons_append, advance_cons (step_of_parenOpen hopen p tuples),
      advance_append (advance_items hitems p _ tuples), advance_close hcommas hclose]
    simp [OpenTuple.close]

theorem advance_items {ts : List (Placed Token)} {items : List String} :
    Items ts items → ∀ (p : Pending) (t : OpenTuple) (tuples : List OpenTuple),
      (value p (t :: tuples)).advance ts =
        some (tupleItem p ⟨t.start, items.reverse ++ t.items⟩ tuples)
  | .one hvalue, p, t, tuples => advance_value hvalue p (t :: tuples)
  | .more hitems hcomma hvalue, p, t, tuples => by
    rw [advance_append (advance_items hitems p t tuples),
      advance_cons (step_of_comma hcomma p _ tuples), advance_tupleComma hvalue,
      advance_value hvalue]
    simp [afterValue, OpenTuple.add]

end

/-! ## Assignments and declarations -/

theorem advance_assigns {ts : List (Placed Token)} {a : Assignment} (h : Assigns ts a)
    (b : OpenBody) (outer : List OpenBody) :
    (body b outer).advance ts = some (body { b with assignments := a :: b.assignments } outer) := by
  cases h with
  | @mk name colon semicolon text ts v hname hcolon hvalue hsemicolon =>
    have hfront : (body b outer).advance [name, colon] =
        some (value ⟨⟨text, name.span⟩, b, outer⟩ []) := by
      simp [advance, hname, hcolon]
    have hback : (assignedValue ⟨⟨text, name.span⟩, b, outer⟩ v).advance [semicolon] =
        some (body (b.assign ⟨text, name.span⟩ v semicolon.span.stop) outer) := by
      simp [advance, hsemicolon]
    rw [show name :: colon :: ts ++ [semicolon] = [name, colon] ++ (ts ++ [semicolon]) from rfl,
      advance_append hfront, advance_append (advance_value hvalue _ _), afterValue, hback]
    rfl

/-- From inside a body over a heading and its brace into the body of a child. -/
theorem advance_heading {hs : List (Placed Token)} {kind : Placed String}
    {cls : Option (Placed String)} {open_ : Placed Token} (h : Heading hs kind cls)
    (hopen : open_.value = .braceOpen) (b : OpenBody) (outer : List OpenBody) :
    (body b outer).advance (hs ++ [open_]) = some (body (.empty kind cls) (b :: outer)) := by
  cases h with
  | plain hkind => simp [advance, hkind, hopen]
  | styled hkind hdot hcls => simp [advance, hkind, hdot, hcls, hopen]

theorem advance_root {hs : List (Placed Token)} {kind : Placed String}
    {cls : Option (Placed String)} {open_ : Placed Token} (h : Heading hs kind cls)
    (hopen : open_.value = .braceOpen) :
    root.advance (hs ++ [open_]) = some (body (.empty kind cls) []) := by
  cases h with
  | plain hkind => simp [advance, hkind, hopen]
  | styled hkind hdot hcls => simp [advance, hkind, hdot, hcls, hopen]

mutual

theorem advance_declares {ts : List (Placed Token)} {d : Declaration} :
    Declares ts d → ∀ (b : OpenBody) (outer : List OpenBody),
      (body b outer).advance ts = some (body (b.adopt d) outer)
  | @Declares.mk hs ts open_ close kind cls as ds hheading hopen hbody hclose, b, outer => by
    rw [show hs ++ open_ :: ts ++ [close] = (hs ++ [open_]) ++ (ts ++ [close]) by simp,
      advance_append (advance_heading hheading hopen b outer),
      advance_append (advance_body hbody (.empty kind cls) (b :: outer))]
    simp [advance, hclose, closeBody, OpenBody.close, OpenBody.empty]

theorem advance_body {ts : List (Placed Token)} {as : List Assignment} {ds : List Declaration} :
    Body ts as ds → ∀ (b : OpenBody) (outer : List OpenBody),
      (body b outer).advance ts =
        some (body ⟨b.kind, b.styleClass, as.reverse ++ b.assignments,
          ds.reverse ++ b.children⟩ outer)
  | .empty, b, outer => rfl
  | .assign hbody hassigns, b, outer => by
    rw [advance_append (advance_body hbody b outer), advance_assigns hassigns]
    simp
  | .child hbody hdeclares, b, outer => by
    rw [advance_append (advance_body hbody b outer), advance_declares hdeclares]
    simp [OpenBody.adopt]

end

/-- The tokens of a declaration are read to its end, whatever stands behind them. -/
theorem read_of_declares {ts : List (Placed Token)} {d : Declaration} (h : Declares ts d)
    (length stop : Nat) (rest : List (Placed Token)) :
    root.read length stop (ts ++ rest) = .ok (d, rest) := by
  cases h with
  | @mk hs ts open_ close kind cls as ds hheading hopen hbody hclose =>
    rw [show hs ++ open_ :: ts ++ [close] ++ rest =
        (hs ++ [open_]) ++ (ts ++ close :: rest) by simp,
      read_append (advance_root hheading hopen), read_append (advance_body hbody _ _)]
    simp [read, hclose, closeBody, OpenBody.close, OpenBody.empty]

end UiMarkup.Declaration.Progress
