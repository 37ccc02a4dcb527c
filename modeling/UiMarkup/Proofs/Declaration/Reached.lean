import UiMarkup.Declaration.Reading
import UiMarkup.Proofs.Declaration.Grammar

/-!
# What is read is derived by the grammar

At every place the tokens read so far are parts of the grammar put side by
side: the bodies and tuples that are still open, and what stands in them. One
token more keeps that true, and the token that ends the root makes it a
declaration.
-/

namespace UiMarkup.Declaration.Progress

open Grammar

/-! ## The invariant -/

/-- The tokens up to an item of the innermost open body. -/
inductive Opened : List (Placed Token) → List OpenBody → Prop
  | root : Opened [] []
  | body {ts hs us : List (Placed Token)} {open_ : Placed Token} {b : OpenBody}
      {outer : List OpenBody} :
      Opened ts outer → Heading hs b.kind b.styleClass → open_.value = .braceOpen →
      Body us b.assignments.reverse b.children.reverse →
      Opened (ts ++ (hs ++ open_ :: us)) (b :: outer)

/-- The tokens up to the value of an assignment. -/
inductive Named : List (Placed Token) → Pending → Prop
  | mk {ts : List (Placed Token)} {name colon : Placed Token} {text : String} {b : OpenBody}
      {outer : List OpenBody} :
      Opened ts (b :: outer) → name.value = .ident text → colon.value = .colon →
      Named (ts ++ [name, colon]) ⟨⟨text, name.span⟩, b, outer⟩

/-- An open tuple up to an item that was read. -/
inductive Filled : List (Placed Token) → OpenTuple → Prop
  | mk {open_ : Placed Token} {ts : List (Placed Token)} {items : List String} :
      open_.value = .parenOpen → Items ts items.reverse →
      Filled (open_ :: ts) ⟨open_.span.start, items⟩

/-- The tokens of the open tuples, each up to an item that is still to come. -/
inductive Nested : List (Placed Token) → List OpenTuple → Prop
  | none : Nested [] []
  | first {ts : List (Placed Token)} {tuples : List OpenTuple} {open_ : Placed Token} :
      Nested ts tuples → open_.value = .parenOpen →
      Nested (ts ++ [open_]) (⟨open_.span.start, []⟩ :: tuples)
  | next {ts us : List (Placed Token)} {tuple : OpenTuple} {tuples : List OpenTuple}
      {comma : Placed Token} :
      Nested ts tuples → Filled us tuple → comma.value = .comma →
      Nested (ts ++ (us ++ [comma])) (tuple :: tuples)

/-- The tokens that lead to a place. -/
inductive Reached : List (Placed Token) → Progress → Prop
  | root : Reached [] root
  | rootKind {kind : Placed Token} {text : String} :
      kind.value = .ident text → Reached [kind] (rootKind ⟨text, kind.span⟩)
  | classDot {ts : List (Placed Token)} {outer : List OpenBody} {kind dot : Placed Token}
      {text : String} :
      Opened ts outer → kind.value = .ident text → dot.value = .dot →
      Reached (ts ++ [kind, dot]) (classDot ⟨text, kind.span⟩ outer)
  | styleClass {ts hs : List (Placed Token)} {outer : List OpenBody} {kind cls : Placed String} :
      Opened ts outer → Heading hs kind (some cls) →
      Reached (ts ++ hs) (styleClass kind cls outer)
  | body {ts : List (Placed Token)} {b : OpenBody} {outer : List OpenBody} :
      Opened ts (b :: outer) → Reached ts (body b outer)
  | itemName {ts : List (Placed Token)} {name : Placed Token} {text : String} {b : OpenBody}
      {outer : List OpenBody} :
      Opened ts (b :: outer) → name.value = .ident text →
      Reached (ts ++ [name]) (itemName ⟨text, name.span⟩ b outer)
  | value {ts us : List (Placed Token)} {p : Pending} {tuples : List OpenTuple} :
      Named ts p → Nested us tuples → Reached (ts ++ us) (value p tuples)
  | tupleItem {ts us vs : List (Placed Token)} {p : Pending} {tuple : OpenTuple}
      {tuples : List OpenTuple} :
      Named ts p → Nested us tuples → Filled vs tuple →
      Reached (ts ++ (us ++ vs)) (tupleItem p tuple tuples)
  | tupleComma {ts us vs : List (Placed Token)} {p : Pending} {tuple : OpenTuple}
      {tuples : List OpenTuple} {comma : Placed Token} :
      Named ts p → Nested us tuples → Filled vs tuple → comma.value = .comma →
      Reached (ts ++ (us ++ (vs ++ [comma]))) (tupleComma p tuple tuples)
  | assignedValue {ts us : List (Placed Token)} {p : Pending} {v : Placed String} :
      Named ts p → Value us v → Reached (ts ++ us) (assignedValue p v)

/-! ## One token more -/

/-- What may come of one token more. -/
def Follows (ts : List (Placed Token)) : Step → Prop
  | .refused => True
  | .more s => Reached ts s
  | .done d => Declares ts d

@[simp] theorem follows_more (ts : List (Placed Token)) (s : Progress) :
    Follows ts (.more s) ↔ Reached ts s := Iff.rfl

@[simp] theorem follows_done (ts : List (Placed Token)) (d : Declaration) :
    Follows ts (.done d) ↔ Declares ts d := Iff.rfl

theorem opened_empty {ts hs : List (Placed Token)} {outer : List OpenBody} {open_ : Placed Token}
    {kind : Placed String} {cls : Option (Placed String)} (h : Opened ts outer)
    (hheading : Heading hs kind cls) (hopen : open_.value = .braceOpen) :
    Opened (ts ++ hs ++ [open_]) (.empty kind cls :: outer) := by
  rw [List.append_assoc]
  exact .body (b := .empty kind cls) h hheading hopen .empty

theorem opened_assign {ts us : List (Placed Token)} {p : Pending} {v : Placed String}
    {semicolon : Placed Token} (h : Named ts p) (hvalue : Value us v)
    (hsemicolon : semicolon.value = .semicolon) :
    Opened (ts ++ us ++ [semicolon]) (p.body.assign p.name v semicolon.span.stop :: p.outer) := by
  cases h with
  | @mk _ name colon text b outer hopened hname hcolon =>
    cases hopened with
    | @body ts' hs ws open_ _ _ houter hheading hopen hbody =>
      have hassigns : Assigns (name :: colon :: us ++ [semicolon])
          ⟨⟨text, name.span⟩, v, ⟨name.span.start, semicolon.span.stop⟩⟩ :=
        .mk hname hcolon hvalue hsemicolon
      have := Opened.body (b := b.assign ⟨text, name.span⟩ v semicolon.span.stop) houter hheading
        hopen (by simpa [OpenBody.assign] using hbody.assign hassigns)
      simpa using this

/-- A value ends: an open tuple takes it, or the assignment does. -/
theorem reached_afterValue {ts us vs : List (Placed Token)} {p : Pending}
    {tuples : List OpenTuple} {v : Placed String} (h : Named ts p) (hnested : Nested us tuples)
    (hvalue : Value vs v) : Reached (ts ++ (us ++ vs)) (afterValue p v tuples) := by
  cases hnested with
  | none => exact .assignedValue h hvalue
  | @first us' tuples' open_ houter hopen =>
    have hfilled : Filled (open_ :: vs) ⟨open_.span.start, [v.value]⟩ := .mk hopen (.one hvalue)
    simpa [afterValue, OpenTuple.add] using Reached.tupleItem h houter hfilled
  | @next us' ws tuple tuples' comma houter hfilled hcomma =>
    cases hfilled with
    | @mk open_ xs items hopen hitems =>
      have hmore : Filled (open_ :: (xs ++ comma :: vs)) ⟨open_.span.start, v.value :: items⟩ :=
        .mk hopen (by simpa using hitems.more hcomma hvalue)
      simpa [afterValue, OpenTuple.add] using Reached.tupleItem h houter hmore

theorem value_of_filled {ts commas : List (Placed Token)} {tuple : OpenTuple}
    {close : Placed Token} (h : Filled ts tuple) (hcommas : OptionalComma commas)
    (hclose : close.value = .parenClose) :
    Value (ts ++ commas ++ [close]) (tuple.close close.span.stop) := by
  cases h with
  | mk hopen hitems => exact .tuple hopen hitems hcommas hclose

theorem follows_stepValue {ts us : List (Placed Token)} {p : Pending} {tuples : List OpenTuple}
    (h : Named ts p) (hnested : Nested us tuples) (t : Placed Token) :
    Follows (ts ++ us ++ [t]) (stepValue p tuples t) := by
  unfold stepValue
  split
  · next hopen =>
    rw [List.append_assoc]
    exact .value h (hnested.first hopen)
  · split
    · next hscalar =>
      rw [List.append_assoc]
      exact reached_afterValue h hnested (.scalar hscalar)
    · trivial

theorem follows_closeBody {ts : List (Placed Token)} {b : OpenBody} {outer : List OpenBody}
    {close : Placed Token} (h : Opened ts (b :: outer)) (hclose : close.value = .braceClose) :
    Follows (ts ++ [close]) (closeBody (b.close close.span.stop) outer) := by
  cases h with
  | @body ts' hs us open_ _ _ houter hheading hopen hbody =>
    have hdeclares : Declares (hs ++ open_ :: us ++ [close]) (b.close close.span.stop) :=
      .mk hheading hopen hbody hclose
    cases houter with
    | root => simpa [closeBody] using hdeclares
    | @body ts'' hs' us' open' b' outer' houter' hheading' hopen' hbody' =>
      have := Opened.body (b := b'.adopt (b.close close.span.stop)) houter' hheading' hopen'
        (by simpa [OpenBody.adopt] using hbody'.child hdeclares)
      exact .body (by simpa using this)

/-- One token more: the invariant holds again, or the root is a declaration. -/
theorem follows_step {ts : List (Placed Token)} {s : Progress} (h : Reached ts s)
    (t : Placed Token) : Follows (ts ++ [t]) (s.step t) := by
  unfold step
  split
  · next hident =>
    cases h
    exact .rootKind hident
  · next hdot =>
    cases h with
    | rootKind hkind => exact .classDot .root hkind hdot
  · next hopen =>
    cases h with
    | rootKind hkind => exact .body (opened_empty .root (.plain hkind) hopen)
  · next hident =>
    cases h with
    | classDot houter hkind hdot =>
      simpa using Reached.styleClass houter (.styled hkind hdot hident)
  · next hopen =>
    cases h with
    | styleClass houter hheading => exact .body (opened_empty houter hheading hopen)
  · next hident =>
    cases h with
    | body hopened => exact .itemName hopened hident
  · next hclose =>
    cases h with
    | body hopened => exact follows_closeBody hopened hclose
  · next hcolon =>
    cases h with
    | itemName hopened hname =>
      simpa using Reached.value (.mk hopened hname hcolon) .none
  · next hdot =>
    cases h with
    | itemName hopened hname => simpa using Reached.classDot hopened hname hdot
  · next hopen =>
    cases h with
    | itemName hopened hname => exact .body (opened_empty hopened (.plain hname) hopen)
  · cases h with
    | value hnamed hnested => exact follows_stepValue hnamed hnested t
  · next hcomma =>
    cases h with
    | tupleItem hnamed hnested hfilled =>
      simpa using Reached.tupleComma hnamed hnested hfilled hcomma
  · next hclose =>
    cases h with
    | tupleItem hnamed hnested hfilled =>
      simpa using reached_afterValue hnamed hnested (value_of_filled hfilled .absent hclose)
  · next hclose =>
    cases h with
    | tupleComma hnamed hnested hfilled hcomma =>
      simpa using reached_afterValue hnamed hnested
        (value_of_filled hfilled (.present hcomma) hclose)
  · cases h with
    | tupleComma hnamed hnested hfilled hcomma =>
      exact follows_stepValue hnamed (hnested.next hfilled hcomma) t
  · next hsemicolon =>
    cases h with
    | assignedValue hnamed hvalue => exact .body (opened_assign hnamed hvalue hsemicolon)
  · trivial

/-! ## Whole runs -/

theorem declares_of_reached {ts us rest : List (Placed Token)} {s : Progress} {d : Declaration}
    {length stop : Nat} (h : Reached ts s) (hread : s.read length stop us = .ok (d, rest)) :
    ∃ vs, us = vs ++ rest ∧ Declares (ts ++ vs) d := by
  induction us generalizing ts s stop with
  | nil => simp [read] at hread
  | cons t us ih =>
    have hnext := follows_step h t
    rw [read] at hread
    split at hread
    · simp at hread
    · next s' hstep =>
      rw [hstep] at hnext
      obtain ⟨vs, rfl, hdeclares⟩ := ih hnext hread
      exact ⟨t :: vs, rfl, by simpa using hdeclares⟩
    · next d' hstep =>
      rw [hstep] at hnext
      obtain ⟨rfl, rfl⟩ : d' = d ∧ us = rest := by simpa using hread
      exact ⟨[t], rfl, hnext⟩

/-- Whatever is read off the front of some tokens is derived from that front. -/
theorem declares_of_read {ts rest : List (Placed Token)} {d : Declaration} {length stop : Nat}
    (h : root.read length stop ts = .ok (d, rest)) : ∃ us, ts = us ++ rest ∧ Declares us d :=
  declares_of_reached .root h

end UiMarkup.Declaration.Progress
