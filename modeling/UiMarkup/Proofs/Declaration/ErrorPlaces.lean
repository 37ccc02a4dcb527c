import Mathlib
import UiMarkup.Proofs.Declaration.Places

/-!
# Where syntax errors stand

An error stands at a token, at unrecognized text, or at the end of the source.
At the end it is counted back to the last token, so there it runs backwards
when a blank or a comment follows that token. Everywhere else it is a slice of
the source.
-/

namespace UiMarkup

/-! ## Reading stays in its extent -/

namespace Declaration.Progress

/-- The bodies that are open at a place. -/
def openBodies : Progress → Nat
  | root | rootKind _ => 0
  | classDot _ outer | styleClass _ _ outer => outer.length
  | body _ outer | itemName _ _ outer => outer.length + 1
  | value p _ | tupleItem p _ _ | tupleComma p _ _ | assignedValue p _ => p.outer.length + 1

theorem openBodies_afterValue (p : Pending) (v : Placed String) (tuples : List OpenTuple) :
    (afterValue p v tuples).openBodies = p.outer.length + 1 := by
  cases tuples <;> rfl

theorem openBodies_stepValue {p : Pending} {tuples : List OpenTuple} {t : Placed Token}
    {s : Progress} (h : stepValue p tuples t = .more s) :
    ¬ IsBrace t ∧ s.openBodies = p.outer.length + 1 := by
  unfold stepValue at h
  split at h
  next hopen =>
    cases h
    exact ⟨by simp [IsBrace, hopen], rfl⟩
  next =>
    split at h
    next hscalar =>
      cases h
      refine ⟨?_, openBodies_afterValue _ _ _⟩
      rintro (hbrace | hbrace) <;> simp [hbrace, Token.scalar?] at hscalar
    next => cases h

/-- What a token that goes on does to the open bodies. -/
theorem openBodies_step {s s' : Progress} {t : Placed Token} (h : s.step t = .more s') :
    (t.value = .braceOpen ∧ s'.openBodies = s.openBodies + 1) ∨
    (t.value = .braceClose ∧ s.openBodies = s'.openBodies + 1 ∧ 0 < s'.openBodies) ∨
    (¬ IsBrace t ∧ s'.openBodies = s.openBodies) := by
  unfold step at h
  split at h
  -- A brace closes a body: the last one would end the declaration.
  case h_7 b outer hclose =>
    cases outer with
    | nil => cases h
    | cons b' outer =>
      cases h
      exact .inr (.inl ⟨hclose, rfl, Nat.succ_pos _⟩)
  -- A value begins, or a parenthesis ends one.
  case h_11 | h_15 => exact .inr (.inr (openBodies_stepValue h))
  case h_13 | h_14 =>
    cases h
    exact .inr (.inr ⟨by simp [IsBrace, *], openBodies_afterValue _ _ _⟩)
  case h_17 => cases h
  -- Every other step shows its token and its open bodies.
  all_goals
    cases h
    first
    | exact .inl ⟨‹_›, rfl⟩
    | exact .inr (.inr ⟨by simp [IsBrace, *], rfl⟩)

theorem extent_of_step {s s' : Progress} {t : Placed Token} {ts rest : List (Placed Token)}
    {limit : Nat} (h : s.step t = .more s')
    (hextent : extent limit s.openBodies (t :: ts) = .closed rest) :
    extent limit s'.openBodies ts = .closed rest := by
  rw [extent] at hextent
  rcases openBodies_step h with ⟨hopen, hs⟩ | ⟨hclose, hs, hpos⟩ | ⟨hbrace, hs⟩
  · rw [hopen] at hextent
    simp only at hextent
    split at hextent
    · cases hextent
    · rwa [hs]
  · rw [hclose, hs] at hextent
    simp only at hextent
    rwa [if_neg (by omega), Nat.add_sub_cancel] at hextent
  · rw [hs]
    split at hextent
    · exact absurd (.inl ‹_›) hbrace
    · exact absurd (.inr ‹_›) hbrace
    · exact hextent

/-- Where the braces close, reading is over no later: it stops at a token if it fails. -/
theorem error_at_token {s : Progress} {ts rest : List (Placed Token)} {limit length stop : Nat}
    {e : ParseError} (hextent : extent limit s.openBodies ts = .closed rest)
    (h : s.read length stop ts = .error e) :
    ∃ t ∈ ts, ∃ place, e = ⟨t.span, .unexpected (some t.value) place⟩ := by
  induction ts generalizing s stop with
  | nil => simp [extent] at hextent
  | cons t ts ih =>
    rw [read] at h
    split at h
    · cases h
      exact ⟨t, List.mem_cons_self, _, rfl⟩
    next s' hstep =>
      obtain ⟨u, hu, place, rfl⟩ := ih (extent_of_step hstep hextent) h
      exact ⟨u, List.mem_cons_of_mem _ hu, place, rfl⟩
    · cases h

theorem stopBehind_append_singleton (stop : Nat) (ts : List (Placed Token)) (t : Placed Token) :
    stopBehind stop (ts ++ [t]) = t.span.stop := by
  induction ts generalizing stop with
  | nil => rfl
  | cons u ts ih => exact ih u.span.stop

/-- Where reading stops: at a token that is refused, or at the end. -/
theorem stops_of_read {s : Progress} {ts : List (Placed Token)} {length stop : Nat}
    {e : ParseError} (h : s.read length stop ts = .error e) :
    (∃ front t back s', ts = front ++ t :: back ∧ s.advance front = some s' ∧
      s'.step t = .refused ∧ e = ⟨t.span, .unexpected (some t.value) s'.place⟩) ∨
    (∃ s', s.advance ts = some s' ∧
      e = ⟨⟨length, stopBehind stop ts⟩, .unexpected none s'.place⟩) := by
  fun_induction read length stop s ts with
  | case1 stop s =>
    cases h
    exact .inr ⟨s, rfl, rfl⟩
  | case2 stop s t ts hstep =>
    cases h
    exact .inl ⟨[], t, ts, s, rfl, rfl, hstep, rfl⟩
  | case3 stop s t ts s' hstep ih =>
    rcases ih h with ⟨front, u, back, s'', rfl, hfront, hrefused, he⟩ | ⟨s'', hts, he⟩
    · exact .inl ⟨t :: front, u, back, s'', rfl, by rwa [advance_cons hstep], hrefused, he⟩
    · exact .inr ⟨s'', by rwa [advance_cons hstep], he⟩
  | case4 => cases h

end Declaration.Progress

theorem Declaration.mem_of_tooDeep {limit depth : Nat} {ts : List (Placed Token)} {brace : Span}
    (h : extent limit depth ts = .tooDeep brace) : ∃ t ∈ ts, t.span = brace := by
  fun_induction extent limit depth ts with
  | case1 => cases h
  | case2 depth t ts hopen hle =>
    cases h
    exact ⟨t, List.mem_cons_self, rfl⟩
  | case4 => cases h
  | _ =>
    rename_i ih
    obtain ⟨u, hu, hspan⟩ := ih h
    exact ⟨u, List.mem_cons_of_mem _ hu, hspan⟩

/-! ## Where an error comes from -/

namespace DeclarationStream

open Declaration

/-- The errors that a stream can come to. -/
inductive ErrorOf (s : DeclarationStream) : ParseError → Prop
  | unrecognized {text : Placed String} :
      s.run.broken = some text → ErrorOf s (unrecognized text)
  | tooDeep {t : Placed Token} : t ∈ s.left → ErrorOf s ⟨t.span, .tooDeep s.maxDepth⟩
  | token {t : Placed Token} {place : Place} :
      t ∈ s.left → ErrorOf s ⟨t.span, .unexpected (some t.value) place⟩
  | ending {front : List (Placed Token)} {last : Placed Token} {place : Place} :
      s.run.broken = none → s.left = front ++ [last] →
      ErrorOf s ⟨⟨s.length, last.span.stop⟩, .unexpected none place⟩

theorem errorOf_blame {s : DeclarationStream} {e : ParseError}
    (h : s.run.broken = none → s.ErrorOf e) : s.ErrorOf (s.blame true e) := by
  unfold blame
  cases hbroken : s.run.broken with
  | none => exact h hbroken
  | some text => exact .unrecognized hbroken

/-- Up to the end of the tokens an error is blamed on unrecognized text, if there is any. -/
theorem errorOf_read {s : DeclarationStream} {e : ParseError} (hleft : s.left ≠ [])
    (h : Progress.root.read s.length s.length s.left = .error e) : s.ErrorOf (s.blame true e) := by
  apply errorOf_blame
  intro hbroken
  rcases Progress.stops_of_read h with ⟨front, t, back, s', hts, -, -, rfl⟩ | ⟨s', -, rfl⟩
  · exact .token (hts ▸ List.mem_append_right front List.mem_cons_self)
  · rcases List.eq_nil_or_concat s.left with hnil | ⟨front, last, hlast⟩
    · exact absurd hnil hleft
    · rw [List.concat_eq_append] at hlast
      rw [hlast, Progress.stopBehind_append_singleton]
      exact .ending hbroken hlast

theorem errorOf_readRoot {s : DeclarationStream} {e : ParseError} (hleft : s.left ≠ [])
    (h : s.readRoot = .error e) : s.ErrorOf e := by
  unfold readRoot at h
  split at h
  next brace hextent =>
    cases h
    obtain ⟨t, ht, rfl⟩ := mem_of_tooDeep hextent
    exact .tooDeep ht
  next rest hextent =>
    obtain ⟨e, hread, rfl⟩ := mapError_eq_error_iff.mp h
    cases hrest : rest.isEmpty with
    | true => exact errorOf_read hleft hread
    | false =>
      obtain ⟨t, ht, place, rfl⟩ := Progress.error_at_token hextent hread
      have hblame : s.blame false ⟨t.span, .unexpected (some t.value) place⟩ =
          ⟨t.span, .unexpected (some t.value) place⟩ := by
        unfold blame
        split <;> rfl
      rw [hblame]
      exact .token ht
  next =>
    obtain ⟨e, hread, rfl⟩ := mapError_eq_error_iff.mp h
    exact errorOf_read hleft hread

/-- An error is made by unrecognized text behind all roots, or in reading the next root. -/
theorem error_of_next {s : DeclarationStream} {e : ParseError}
    (h : s.next.1 = some (.error e)) :
    (s.left = [] ∧ ∃ text, s.run.broken = some text ∧ e = unrecognized text) ∨
      (s.left ≠ [] ∧ s.readRoot = .error e) := by
  unfold next at h
  split at h
  · cases h
  · split at h
    next hleft =>
      obtain ⟨text, hbroken, heq⟩ := Option.map_eq_some_iff.mp h
      cases heq
      exact .inl ⟨List.isEmpty_iff.mp hleft, text, hbroken, rfl⟩
    next hleft =>
      split at h
      · cases h
      next hread =>
        cases h
        exact .inr ⟨by simpa using hleft, hread⟩

/-- One step: an error comes from one of these places. -/
theorem errorOf_next {s s' : DeclarationStream} {e : ParseError}
    (h : s.next = (some (.error e), s')) : s.ErrorOf e := by
  rcases error_of_next (congrArg Prod.fst h) with ⟨-, text, hbroken, rfl⟩ | ⟨hleft, hread⟩
  · exact .unrecognized hbroken
  · exact errorOf_readRoot hleft hread

/-- Its tokens stood in front of what is left behind a declaration. -/
theorem next_ok {s s' : DeclarationStream} {d : Declaration} (h : s.next = (some (.ok d), s')) :
    ∃ ts, ts ++ s'.left = s.left ∧ Grammar.Declares ts d ∧ s' = { s with left := s'.left } := by
  unfold next at h
  split at h
  · cases h
  · split at h
    · obtain ⟨text, -, heq⟩ := Option.map_eq_some_iff.mp (Prod.mk.inj h).1
      cases heq
    · split at h
      next d' rest hread =>
        cases h
        obtain ⟨ts, hleft, hdeclares, -⟩ := readRoot_eq_ok_iff.mp hread
        exact ⟨ts, hleft.symm, hdeclares, rfl⟩
      · cases h

theorem errorOf_behind {s s' : DeclarationStream} {e : ParseError} {ts : List (Placed Token)}
    (hleft : ts ++ s'.left = s.left) (hs : s' = { s with left := s'.left }) (h : s'.ErrorOf e) :
    s.ErrorOf e := by
  rw [hs] at h
  cases h with
  | unrecognized hbroken => exact .unrecognized hbroken
  | tooDeep ht => exact .tooDeep (hleft ▸ List.mem_append_right _ ht)
  | token ht => exact .token (hleft ▸ List.mem_append_right _ ht)
  | @ending front last place hbroken hlast =>
    have hlast : s'.left = front ++ [last] := hlast
    rw [hlast, ← List.append_assoc] at hleft
    exact .ending hbroken hleft.symm

/-- All steps: so does the error that a stream hands out in the end. -/
theorem errorOf_toList {s : DeclarationStream} {e : ParseError} (h : .error e ∈ s.toList) :
    s.ErrorOf e := by
  fun_induction toList s with
  | case1 s d s' hnext ih =>
    obtain ⟨ts, hleft, -, hs⟩ := next_ok hnext
    exact errorOf_behind hleft hs (ih (by simpa using h))
  | case2 s e' s' hnext =>
    obtain rfl : e = e' := by simpa using h
    exact errorOf_next hnext
  | case3 s s' hnext => simp at h

end DeclarationStream

theorem Document.mem_of_ofList_error {items : List (Except ParseError Declaration)}
    {e : ParseError} (h : ofList items = .error e) : .error e ∈ items := by
  fun_induction ofList items with
  | case1 => cases h
  | case2 e' items =>
    cases h
    exact List.mem_cons_self
  | case3 d items ih => exact List.mem_cons_of_mem _ (ih (map_eq_error_iff.mp h))

theorem Document.mem_of_parse_error {source : String} {maxDepth : Nat} {e : ParseError}
    (h : parse source maxDepth = .error e) :
    .error e ∈ (DeclarationStream.ofSource source maxDepth).toList :=
  mem_of_ofList_error (map_eq_error_iff.mp h)

/-! ## Sources -/

/-- **An error stands between characters of its source, and only at the end of the source it
may run backwards:** that end counts from the end of the last token. -/
theorem within_iff_of_error (source : String) (maxDepth : Nat) (e : ParseError)
    (h : Document.parse source maxDepth = .error e ∨
      .error e ∈ (DeclarationStream.ofSource source maxDepth).toList) :
    IsBoundary source.toList e.span.start ∧ IsBoundary source.toList e.span.stop ∧
      (∀ place, e.cause = .unexpected none place →
        ∃ front last, (TokenRun.ofSource source).tokens = front ++ [last] ∧
          e.span = ⟨byteLength source.toList, last.span.stop⟩) ∧
      (e.span.Within source.toList ↔ ∀ place, e.cause = .unexpected none place →
        e.span.stop = byteLength source.toList) := by
  have horigin := DeclarationStream.errorOf_toList (h.elim Document.mem_of_parse_error id)
  cases horigin with
  | unrecognized hbroken =>
    have hwithin := TokenRun.within_of_broken hbroken
    exact ⟨hwithin.start, hwithin.stop, nofun, fun _ => nofun, fun _ => hwithin⟩
  | tooDeep ht =>
    have hwithin := TokenRun.within_of_mem_tokens ht
    exact ⟨hwithin.start, hwithin.stop, nofun, fun _ => nofun, fun _ => hwithin⟩
  | token ht =>
    have hwithin := TokenRun.within_of_mem_tokens ht
    exact ⟨hwithin.start, hwithin.stop, nofun, fun _ => nofun, fun _ => hwithin⟩
  | @ending front last place hbroken hlast =>
    have hlast : (TokenRun.ofSource source).tokens = front ++ [last] := hlast
    have hwithin : last.span.Within source.toList :=
      TokenRun.within_of_mem_tokens (by simp [hlast])
    have hend := isBoundary_byteLength source.toList
    have hle := le_of_isBoundary hwithin.stop
    refine ⟨hend, hwithin.stop, fun _ _ => ⟨front, last, hlast, rfl⟩, ?_, ?_⟩
    · intro hspan _ _
      exact Nat.le_antisymm hle hspan.start_le_stop
    · intro hstop
      exact ⟨Nat.le_of_eq (hstop place rfl).symm, hend, hwithin.stop⟩

/-- The source ends with its last token, and has a character of two bytes in front of it. -/
theorem within_at_open_tuple :
    let source := "a \x7b b: \"\u00e9\"; c: (1,"
    let e : ParseError := ⟨⟨19, 19⟩, .unexpected none .tupleComma⟩
    Document.parse source 1 = .error e ∧ e.span.Within source.toList := by
  intro source e
  have h : Document.parse source 1 = .error e := by cbv
  obtain ⟨-, -, -, hwithin⟩ := within_iff_of_error source 1 e (.inl h)
  refine ⟨h, hwithin.mpr ?_⟩
  intro _ _
  decide +kernel

/-- Behind the last token stands a blank, so the error starts at byte 4 and stops at byte 3. -/
theorem not_within_at_trailing_blank :
    ¬ ∀ (source : String) (maxDepth : Nat) (e : ParseError),
      Document.parse source maxDepth = .error e ∨
        .error e ∈ (DeclarationStream.ofSource source maxDepth).toList →
      e.span.Within source.toList := by
  intro hall
  have h : Document.parse "a \x7b " 64 = .error ⟨⟨4, 3⟩, .unexpected none .body⟩ := by cbv
  have hwithin := hall _ 64 _ (.inl h)
  exact absurd hwithin.start_le_stop (by decide)

end UiMarkup
