import UiMarkup.Proofs.Declaration.Advance
import UiMarkup.Proofs.Declaration.Erasure
import UiMarkup.Proofs.Declaration.Parsing

/-!
# Tokens that a document can begin with

Tokens are viable if some more make a document of them. No place of the reader
is a dead end, so they are viable as long as the reader refuses none, and what
it lists at a place is what keeps them viable.
-/

namespace UiMarkup

/-! ## The grammar on tokens alone -/

/-- A punctuation mark. The other tokens carry a text. -/
def Token.IsMark (t : Token) : Prop := ∃ c, Token.ofMark? c = some t

theorem Token.isMark_iff {t : Token} : t.IsMark ↔ t.scalar? = none := by
  constructor
  · rintro ⟨c, hc⟩
    unfold ofMark? at hc
    split at hc <;> cases hc <;> rfl
  · intro h
    cases t with
    | braceOpen => exact ⟨'{', rfl⟩
    | braceClose => exact ⟨'}', rfl⟩
    | parenOpen => exact ⟨'(', rfl⟩
    | parenClose => exact ⟨')', rfl⟩
    | colon => exact ⟨':', rfl⟩
    | semicolon => exact ⟨';', rfl⟩
    | comma => exact ⟨',', rfl⟩
    | dot => exact ⟨'.', rfl⟩
    | ident text | string text | number text | hexColor text => simp [scalar?] at h

namespace Grammar

open Declaration

/-- The grammar derives a document from these tokens, wherever they stand. -/
def IsDocument (ts : List Token) : Prop :=
  ∃ ps ds, ps.map Placed.value = ts ∧ Roots ps ds

/-- With some tokens more it does. -/
def Viable (ts : List Token) : Prop := ∃ more, IsDocument (ts ++ more)

theorem viable_of_append {ts us : List Token} (h : Viable (ts ++ us)) : Viable ts := by
  obtain ⟨more, hdocument⟩ := h
  exact ⟨us ++ more, by rwa [← List.append_assoc]⟩

theorem roots_append {ts us : List (Placed Token)} {ds es : List Declaration} (h : Roots ts ds)
    (h' : Roots us es) : Roots (ts ++ us) (ds ++ es) := by
  induction h with
  | nil => exact h'
  | cons hdeclares _ ih =>
    rw [List.append_assoc]
    exact .cons hdeclares ih

end Grammar

namespace Declaration.Progress

open Grammar

/-! ## Reading one root after another -/

/-- Where the tokens lead if none is refused. Behind a root the next one begins. -/
def pass (s : Progress) : List (Placed Token) → Option Progress
  | [] => some s
  | t :: ts =>
    match s.step t with
    | .refused => none
    | .more s' => s'.pass ts
    | .done _ => root.pass ts

theorem pass_of_more {s s' : Progress} {t : Placed Token} (h : s.step t = .more s')
    (ts : List (Placed Token)) : s.pass (t :: ts) = s'.pass ts := by
  rw [pass, h]

theorem pass_of_done {s : Progress} {t : Placed Token} {d : Declaration} (h : s.step t = .done d)
    (ts : List (Placed Token)) : s.pass (t :: ts) = root.pass ts := by
  rw [pass, h]

theorem pass_of_refused {s : Progress} {t : Placed Token} (h : s.step t = .refused)
    (ts : List (Placed Token)) : s.pass (t :: ts) = none := by
  rw [pass, h]

theorem pass_append (s : Progress) (ts us : List (Placed Token)) :
    s.pass (ts ++ us) = (s.pass ts).bind (·.pass us) := by
  fun_induction pass s ts with
  | case1 s => rfl
  | case2 s t ts hstep => rw [List.cons_append, pass_of_refused hstep, Option.bind_none]
  | case3 s t ts s' hstep ih => rw [List.cons_append, pass_of_more hstep, ih]
  | case4 s t ts d hstep ih => rw [List.cons_append, pass_of_done hstep, ih]

theorem pass_of_advance {s s' : Progress} {ts : List (Placed Token)}
    (h : s.advance ts = some s') : s.pass ts = some s' := by
  fun_induction advance s ts with
  | case1 s => exact h
  | case2 s t ts s'' hstep ih => rw [pass_of_more hstep, ih h]
  | case3 | case4 => cases h

theorem pass_of_read {s : Progress} {ts rest : List (Placed Token)} {d : Declaration}
    {length stop : Nat} (h : s.read length stop ts = .ok (d, rest)) :
    s.pass ts = root.pass rest := by
  fun_induction read length stop s ts with
  | case1 | case2 => cases h
  | case3 _ s t ts s' hstep ih => rw [pass_of_more hstep, ih h]
  | case4 _ s t us d' hstep =>
    cases h
    exact pass_of_done hstep _

theorem pass_of_roots {ts : List (Placed Token)} {ds : List Declaration} (h : Roots ts ds) :
    root.pass ts = some root := by
  induction h with
  | nil => rfl
  | cons hdeclares _ ih => rw [pass_of_read (read_of_declares hdeclares 0 0 _), ih]

/-! ## What was read is derived -/

/-- Some roots, and behind them the tokens that lead to a place. -/
inductive Passed : List (Placed Token) → Progress → Prop
  | mk {ts us : List (Placed Token)} {ds : List Declaration} {s : Progress} :
      Roots ts ds → Reached us s → Passed (ts ++ us) s

theorem passed_of_more {ts : List (Placed Token)} {s s' : Progress} {t : Placed Token}
    (h : Passed ts s) (hstep : s.step t = .more s') : Passed (ts ++ [t]) s' := by
  obtain ⟨hroots, hreached⟩ := h
  have hfollows := follows_step hreached t
  rw [hstep, follows_more] at hfollows
  rw [List.append_assoc]
  exact .mk hroots hfollows

theorem passed_of_done {ts : List (Placed Token)} {s : Progress} {t : Placed Token}
    {d : Declaration} (h : Passed ts s) (hstep : s.step t = .done d) : Passed (ts ++ [t]) root := by
  obtain ⟨hroots, hreached⟩ := h
  have hfollows := follows_step hreached t
  rw [hstep, follows_done] at hfollows
  rw [List.append_assoc]
  simpa using Passed.mk (roots_append hroots (.cons hfollows .nil)) .root

theorem passed_pass {ts us : List (Placed Token)} {s s' : Progress} (h : Passed ts s)
    (hpass : s.pass us = some s') : Passed (ts ++ us) s' := by
  fun_induction pass s us generalizing ts with
  | case1 s =>
    cases hpass
    rwa [List.append_nil]
  | case2 => cases hpass
  | case3 s t us s'' hstep ih =>
    rw [List.append_cons]
    exact ih (passed_of_more h hstep) hpass
  | case4 s t us d hstep ih =>
    rw [List.append_cons]
    exact ih (passed_of_done h hstep) hpass

theorem roots_of_pass {ts : List (Placed Token)} (h : root.pass ts = some root) :
    ∃ ds, Roots ts ds := by
  have hpassed : Passed ([] ++ ts) root := passed_pass (.mk .nil .root) h
  generalize hus : [] ++ ts = us at hpassed
  obtain ⟨hroots, hreached⟩ := hpassed
  cases hreached
  rw [List.nil_append, List.append_nil] at hus
  exact ⟨_, hus ▸ hroots⟩

/-! ## No place is a dead end -/

/-- Some tokens lead from here to the end of a root. -/
def Completes (s : Progress) : Prop := ∃ us, s.pass us = some root

/-- A token for which no place is needed. -/
def anywhere (t : Token) : Placed Token := ⟨t, .nowhere⟩

theorem completes_of_more {s s' : Progress} {t : Token} (h : s.step (anywhere t) = .more s')
    (hnext : s'.Completes) : s.Completes := by
  obtain ⟨us, hus⟩ := hnext
  exact ⟨anywhere t :: us, (pass_of_more h us).trans hus⟩

theorem completes_body (b : OpenBody) (outer : List OpenBody) : (body b outer).Completes := by
  induction outer generalizing b with
  | nil => exact ⟨[anywhere .braceClose], rfl⟩
  | cons b' outer ih => exact completes_of_more (t := .braceClose) rfl (ih _)

theorem completes_assignedValue (p : Pending) (v : Placed String) :
    (assignedValue p v).Completes :=
  completes_of_more (t := .semicolon) rfl (completes_body _ _)

theorem completes_afterValue (p : Pending) (v : Placed String) (tuples : List OpenTuple) :
    (afterValue p v tuples).Completes := by
  induction tuples generalizing v with
  | nil => exact completes_assignedValue p v
  | cons tuple tuples ih => exact completes_of_more (t := .parenClose) rfl (ih _)

theorem completes_value (p : Pending) (tuples : List OpenTuple) : (value p tuples).Completes :=
  completes_of_more (t := .ident "") rfl (completes_afterValue _ _ _)

theorem completes (s : Progress) : s.Completes := by
  cases s with
  | root => exact ⟨[], rfl⟩
  | rootKind kind => exact completes_of_more (t := .braceOpen) rfl (completes_body _ _)
  | classDot kind outer =>
    exact completes_of_more (t := .ident "") rfl
      (completes_of_more (t := .braceOpen) rfl (completes_body _ _))
  | styleClass kind cls outer => exact completes_of_more (t := .braceOpen) rfl (completes_body _ _)
  | body b outer => exact completes_body b outer
  | itemName name b outer => exact completes_of_more (t := .braceOpen) rfl (completes_body _ _)
  | value p tuples => exact completes_value p tuples
  | tupleItem p tuple tuples =>
    exact completes_of_more (t := .parenClose) rfl (completes_afterValue _ _ _)
  | tupleComma p tuple tuples =>
    exact completes_of_more (t := .parenClose) rfl (completes_afterValue _ _ _)
  | assignedValue p v => exact completes_assignedValue p v

/-! ## Viable tokens -/

/-- Tokens are viable exactly when none of them is refused. -/
theorem viable_iff {ts : List (Placed Token)} :
    Viable (ts.map Placed.value) ↔ ∃ s, root.pass ts = some s := by
  constructor
  · -- The document is made of other tokens with the same values, so it is moved to these.
    rintro ⟨more, ps, ds, hps, hroots⟩
    have hmoved : Moved ps (ts ++ more.map anywhere) := by
      unfold Moved
      rw [hps, List.map_append, List.map_map, show Placed.value ∘ anywhere = id from rfl,
        List.map_id]
    obtain ⟨es, hes, -⟩ := roots_moved hroots hmoved
    have hpass := pass_of_roots hes
    rw [pass_append] at hpass
    obtain ⟨s, hs, -⟩ := Option.bind_eq_some_iff.mp hpass
    exact ⟨s, hs⟩
  · -- No place is a dead end: the tokens that complete it complete the document.
    rintro ⟨s, hs⟩
    obtain ⟨us, hus⟩ := completes s
    have hpass : root.pass (ts ++ us) = some root := by
      rw [pass_append, hs, Option.bind_some, hus]
    obtain ⟨ds, hroots⟩ := roots_of_pass hpass
    exact ⟨us.map Placed.value, ts ++ us, ds, List.map_append, hroots⟩

theorem viable_concat_iff {ts : List (Placed Token)} {s : Progress} (h : root.pass ts = some s)
    (t : Token) : Viable (ts.map Placed.value ++ [t]) ↔ s.step (anywhere t) ≠ .refused := by
  have hvalues : ts.map Placed.value ++ [t] = (ts ++ [anywhere t]).map Placed.value := by
    simp [anywhere]
  rw [hvalues, viable_iff, pass_append, h, Option.bind_some, pass]
  cases s.step (anywhere t) <;> simp [pass]

/-! ## What a place lists -/

/-- Of a token only its value decides whether it is taken. -/
theorem step_refused_iff (s : Progress) {t u : Placed Token} (h : t.value = u.value) :
    s.step t = .refused ↔ s.step u = .refused := by
  obtain ⟨value, span⟩ := t
  obtain ⟨_, span'⟩ := u
  obtain rfl := h
  cases s with
  | body b outer =>
    cases value <;> simp [step]
    cases outer <;> simp [closeBody]
  | value p tuples => cases value <;> simp [step, stepValue, Token.scalar?]
  | tupleComma p tuple tuples => cases value <;> simp [step, stepValue, Token.scalar?]
  | _ => cases value <;> simp [step]

/-- A punctuation mark is taken exactly where it is listed. -/
theorem step_ne_refused_iff (s : Progress) {t : Placed Token} (h : t.value.IsMark) :
    s.step t ≠ .refused ↔ t.value ∈ s.place.expected := by
  obtain ⟨mark, span⟩ := t
  rw [Token.isMark_iff] at h
  cases s with
  | body b outer =>
    cases outer <;> cases mark <;> simp_all [step, closeBody, place, Place.expected, Token.scalar?]
  | _ => cases mark <;> simp_all [step, stepValue, place, Place.expected, Token.scalar?]

end Declaration.Progress

theorem Place.isMark_of_mem_expected {place : Place} {t : Token} (h : t ∈ place.expected) :
    t.IsMark := by
  have hall : ∀ u ∈ place.expected, u.scalar? = none := by cases place <;> decide
  exact Token.isMark_iff.mpr (hall t h)

theorem Place.pairwise_expected (place : Place) :
    (place.expected.map Token.describe).Pairwise (· < ·) := by
  cases place <;> decide

end UiMarkup
