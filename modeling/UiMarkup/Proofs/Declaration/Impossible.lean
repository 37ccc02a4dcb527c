import UiMarkup.Proofs.Declaration.ErrorPlaces
import UiMarkup.Proofs.Declaration.Viable

/-!
# The first impossible token

Without unrecognized text, a syntax error stands at the first token with which
the tokens are no longer viable, and lists the marks that would be in its
place. Unrecognized text takes the blame for such a token when no root that is
closed by its braces has tokens behind it.
-/

namespace UiMarkup

open Grammar Declaration

/-- The first token with which the tokens are not viable, behind all those in front of it. -/
structure FirstImpossible (ts front : List (Placed Token)) (t : Placed Token) : Prop where
  among : ∃ back, ts = front ++ t :: back
  viable : Viable (front.map Placed.value)
  impossible : ¬ Viable (front.map Placed.value ++ [t.value])

theorem FirstImpossible.longest {ts front us : List (Placed Token)} {t : Placed Token}
    (h : FirstImpossible ts front t) (hus : us <+: ts) (hviable : Viable (us.map Placed.value)) :
    us <+: front := by
  obtain ⟨back, rfl⟩ := h.among
  have himpossible : ¬ Viable ((front ++ [t]).map Placed.value) := by
    rw [List.map_append]
    exact h.impossible
  have hfront : front ++ [t] <+: front ++ t :: back := ⟨back, by simp⟩
  rcases List.prefix_or_prefix_of_prefix hus hfront with hshort | ⟨vs, rfl⟩
  · rcases List.prefix_concat_iff.mp hshort with rfl | hshort
    · exact absurd hviable himpossible
    · exact hshort
  · rw [List.map_append] at hviable
    exact absurd (viable_of_append hviable) himpossible

/-- Of all tokens only one is the first with which they are not viable. -/
theorem FirstImpossible.unique {ts front front' : List (Placed Token)} {t t' : Placed Token}
    (h : FirstImpossible ts front t) (h' : FirstImpossible ts front' t') :
    front = front' ∧ t = t' := by
  obtain ⟨back, hts⟩ := h.among
  obtain ⟨back', hts'⟩ := h'.among
  have hle := h'.longest ⟨t :: back, hts.symm⟩ h.viable
  have hge := h.longest ⟨t' :: back', hts'.symm⟩ h'.viable
  obtain rfl : front = front' := hle.eq_of_length_le hge.length_le
  obtain ⟨rfl, -⟩ := List.cons.inj (List.append_cancel_left (hts.symm.trans hts'))
  exact ⟨rfl, rfl⟩

/-- An error lists, in order and each once, the marks that keep some tokens viable. -/
structure ListsNext (e : ParseError) (front : List (Placed Token)) : Prop where
  sorted : e.expected.Pairwise (· < ·)
  marks : ∃ marks : List Token, e.expected = marks.map Token.describe ∧
    ∀ mark, mark ∈ marks ↔ mark.IsMark ∧ Viable (front.map Placed.value ++ [mark])

/-- An error at a token, with what could stand there instead. -/
structure BlamesToken (e : ParseError) (front : List (Placed Token)) (t : Placed Token) :
    Prop where
  span : e.span = t.span
  message : e.message = "Unexpected " ++ t.value.describe
  lists : ListsNext e front

/-- An error at the end of a source of so many bytes, with what could stand there. -/
structure BlamesEnd (e : ParseError) (length : Nat) (ts : List (Placed Token)) : Prop where
  start : e.span.start = length
  message : e.message = "Unexpected end of input"
  lists : ListsNext e ts

/-- No root can be read off the tokens, however deep. -/
def NoRoot (ts : List (Placed Token)) : Prop := ∀ us rest d, ts = us ++ rest → ¬ Declares us d

/-! ## Reading stops at the first impossible token -/

namespace Declaration.Progress

theorem firstImpossible_of_pass {front : List (Placed Token)} {s : Progress} {t : Placed Token}
    (hfront : root.pass front = some s) (hstep : s.step t = .refused)
    (back : List (Placed Token)) : FirstImpossible (front ++ t :: back) front t where
  among := ⟨back, rfl⟩
  viable := viable_iff.mpr ⟨s, hfront⟩
  impossible := by
    rw [viable_concat_iff hfront, not_not]
    exact (step_refused_iff s (t := t) (u := anywhere t.value) rfl).mp hstep

theorem listsNext_of_pass {front : List (Placed Token)} {s : Progress} {e : ParseError}
    (hfront : root.pass front = some s)
    (hexpected : e.expected = s.place.expected.map Token.describe) : ListsNext e front where
  sorted := by
    rw [hexpected]
    exact s.place.pairwise_expected
  marks := by
    refine ⟨s.place.expected, hexpected, fun mark => ?_⟩
    rw [viable_concat_iff hfront]
    constructor
    · intro hmem
      have hmark := Place.isMark_of_mem_expected hmem
      exact ⟨hmark, (step_ne_refused_iff s (t := anywhere mark) hmark).mpr hmem⟩
    · rintro ⟨hmark, htaken⟩
      exact (step_ne_refused_iff s (t := anywhere mark) hmark).mp htaken

theorem pass_of_roots_advance {done front : List (Placed Token)} {ds : List Declaration}
    {s : Progress} (hdone : Roots done ds) (hfront : root.advance front = some s) :
    root.pass (done ++ front) = some s := by
  rw [pass_append, pass_of_roots hdone, Option.bind_some, pass_of_advance hfront]

end Declaration.Progress

/-! ## Streams -/

namespace DeclarationStream

/-- Where a stream stops: behind some roots, the next answer is the error. -/
theorem stops_of_ofList {s : DeclarationStream} {e : ParseError}
    (h : Document.ofList s.toList = .error e) :
    ∃ done left ds, s.left = done ++ left ∧ Roots done ds ∧
      { s with left := left }.next.1 = some (.error e) := by
  fun_induction toList s with
  | case1 s d s' hnext ih =>
    obtain ⟨ts, hleft, hdeclares, hs⟩ := next_ok hnext
    obtain ⟨done, left, ds, hdone, hroots, hstops⟩ := ih (map_eq_error_iff.mp h)
    refine ⟨ts ++ done, left, d :: ds, ?_, .cons hdeclares hroots, ?_⟩
    · rw [← hleft, hdone, List.append_assoc]
    · rwa [hs] at hstops
  | case2 s e' s' hnext =>
    cases h
    exact ⟨[], s.left, [], rfl, .nil, congrArg Prod.fst hnext⟩
  | case3 => cases h

/-- But for the nesting limit, an error is that of the reader, unless the root reaches the
end of the tokens and unrecognized text takes the blame. -/
theorem error_of_readRoot {s : DeclarationStream} {e : ParseError} (h : s.readRoot = .error e)
    (hdeep : ∀ limit, e.cause ≠ .tooDeep limit) :
    ∃ e', Progress.root.read s.length s.length s.left = .error e' ∧
      e = s.blame (cutRoot s.maxDepth s.left).2.isEmpty e' := by
  unfold readRoot at h
  unfold cutRoot
  split at h
  · cases h
    exact absurd rfl (hdeep _)
  next rest hextent =>
    obtain ⟨e', hread, rfl⟩ := mapError_eq_error_iff.mp h
    exact ⟨e', hread, by rw [hextent]⟩
  next hextent =>
    obtain ⟨e', hread, rfl⟩ := mapError_eq_error_iff.mp h
    exact ⟨e', hread, by rw [hextent]; rfl⟩

theorem error_of_cutRoot {s : DeclarationStream} {e : ParseError}
    (h : Progress.root.read s.length s.length s.left = .error e)
    (hcut : (cutRoot s.maxDepth s.left).2 ≠ []) :
    ∃ front t back s', s.left = front ++ t :: back ∧ Progress.root.advance front = some s' ∧
      s'.step t = .refused ∧ e = ⟨t.span, .unexpected (some t.value) s'.place⟩ := by
  unfold cutRoot at hcut
  split at hcut
  next rest hextent =>
    -- The braces close first, so the end of the tokens cannot be what is blamed.
    obtain ⟨u, -, place, he⟩ := Progress.error_at_token hextent h
    rcases Progress.stops_of_read h with hstops | ⟨s', -, he'⟩
    · exact hstops
    · simp [he] at he'
  · exact absurd rfl hcut
  · exact absurd rfl hcut

theorem noRoot_of_next {s : DeclarationStream} {e : ParseError}
    (h : s.next.1 = some (.error e)) (hdeep : ∀ limit, e.cause ≠ .tooDeep limit) :
    NoRoot s.left := by
  intro us rest d hleft hdeclares
  have hread := Progress.read_of_declares hdeclares s.length s.length rest
  rw [← hleft] at hread
  rcases error_of_next h with ⟨hnil, -⟩ | ⟨-, hroot⟩
  · rw [hnil] at hread
    cases hread
  · obtain ⟨e', hread', -⟩ := error_of_readRoot hroot hdeep
    rw [hread] at hread'
    cases hread'

end DeclarationStream

theorem Document.stops_of_parse {source : String} {maxDepth : Nat} {e : ParseError}
    (h : parse source maxDepth = .error e) :
    ∃ done left ds, (TokenRun.ofSource source).tokens = done ++ left ∧ Roots done ds ∧
      { DeclarationStream.ofSource source maxDepth with left := left }.next.1 =
        some (.error e) :=
  DeclarationStream.stops_of_ofList (map_eq_error_iff.mp h)

theorem blamesToken_of_stops {done front : List (Placed Token)} {ds : List Declaration}
    {t : Placed Token} {s : Progress} (hdone : Roots done ds)
    (hfront : Progress.root.advance front = some s) (hstep : s.step t = .refused)
    (back : List (Placed Token)) :
    FirstImpossible (done ++ (front ++ t :: back)) (done ++ front) t ∧
      BlamesToken ⟨t.span, .unexpected (some t.value) s.place⟩ (done ++ front) t := by
  have hpass := Progress.pass_of_roots_advance hdone hfront
  refine ⟨?_, rfl, rfl, Progress.listsNext_of_pass hpass rfl⟩
  rw [← List.append_assoc]
  exact Progress.firstImpossible_of_pass hpass hstep back

/-! ## Sources without unrecognized text -/

/-- **Syntax errors point at the first impossible token and list what could stand there.** If
there is no such token, they stand at the end of the source. -/
theorem error_at_first_impossible (source : String) (maxDepth : Nat) (ts : List (Placed Token))
    (e : ParseError) (hlex : lex source = ts.map Placed.asLexeme)
    (hparse : Document.parse source maxDepth = .error e)
    (hdeep : ∀ limit, e.cause ≠ .tooDeep limit) :
    (∃ front t, FirstImpossible ts front t ∧ BlamesToken e front t) ∨
    (Viable (ts.map Placed.value) ∧ BlamesEnd e (byteLength source.toList) ts) := by
  have hrun := ofSource_eq_iff.mpr hlex
  have hbroken : (TokenRun.ofSource source).broken = none := by rw [hrun]
  obtain ⟨done, left, ds, hleft, hdone, hnext⟩ := Document.stops_of_parse hparse
  obtain rfl : ts = done ++ left := by rw [← hleft, hrun]
  rcases DeclarationStream.error_of_next hnext with ⟨-, text, htext, -⟩ | ⟨-, hroot⟩
  · simp [DeclarationStream.ofSource, hbroken] at htext
  · obtain ⟨e', hread, he⟩ := DeclarationStream.error_of_readRoot hroot hdeep
    have hsame : e = e' := by
      simpa [DeclarationStream.blame, DeclarationStream.ofSource, hbroken] using he
    rcases Progress.stops_of_read hread with ⟨front, t, back, s, hfront, hadvance, hstep, hstop⟩ |
      ⟨s, hadvance, hstop⟩
    · obtain rfl : left = front ++ t :: back := hfront
      rw [hsame, hstop]
      exact .inl ⟨done ++ front, t, blamesToken_of_stops hdone hadvance hstep back⟩
    · have hpass := Progress.pass_of_roots_advance hdone hadvance
      rw [hsame, hstop]
      exact .inr ⟨Progress.viable_iff.mpr ⟨s, hpass⟩, rfl, rfl,
        Progress.listsNext_of_pass hpass rfl⟩

/-- A tuple may end where a value is missing, or go on with another tuple. -/
theorem error_at_first_impossible_semicolon :
    let source := "a \x7b b: (1,; \x7d"
    let e : ParseError := ⟨⟨10, 11⟩, .unexpected (some .semicolon) .tupleComma⟩
    Document.parse source 1 = .error e ∧ e.expected = ["'('", "')'"] ∧
      ∃ ts, lex source = ts.map Placed.asLexeme ∧
        ((∃ front t, FirstImpossible ts front t ∧ BlamesToken e front t) ∨
        (Viable (ts.map Placed.value) ∧ BlamesEnd e (byteLength source.toList) ts)) := by
  intro source e
  have hlex : lex source = (TokenRun.ofSource source).tokens.map Placed.asLexeme := by cbv
  have hparse : Document.parse source 1 = .error e := by cbv
  have hdeep : ∀ limit, e.cause ≠ .tooDeep limit := by
    intro limit h
    cases h
  exact ⟨hparse, by decide, _, hlex, error_at_first_impossible source 1 _ e hlex hparse hdeep⟩

/-! ## Sources with unrecognized text -/

/-- What parsing reports when some text is not recognized. -/
inductive Reports (ts : List (Placed Token)) (maxDepth : Nat) (text : Placed String) :
    ParseError → Prop
  /-- A body is too deep. -/
  | tooDeep {e : ParseError} {limit : Nat} : e.cause = .tooDeep limit → Reports ts maxDepth text e
  /-- The root with the first impossible token is closed in front of other tokens. -/
  | token {e : ParseError} {done left front : List (Placed Token)} {ds : List Declaration}
      {t : Placed Token} :
      ts = done ++ left → Roots done ds → NoRoot left → (cutRoot maxDepth left).2 ≠ [] →
      FirstImpossible ts (done ++ front) t → BlamesToken e (done ++ front) t →
      Reports ts maxDepth text e
  /-- The first root that cannot be read takes up all tokens that are left. -/
  | unrecognized {done left : List (Placed Token)} {ds : List Declaration} :
      ts = done ++ left → Roots done ds → NoRoot left → (cutRoot maxDepth left).2 = [] →
      Reports ts maxDepth text (DeclarationStream.unrecognized text)

theorem reports_of_parse {source : String} {maxDepth : Nat} {text : Placed String}
    {e : ParseError} (hbroken : (TokenRun.ofSource source).broken = some text)
    (hparse : Document.parse source maxDepth = .error e) :
    Reports (TokenRun.ofSource source).tokens maxDepth text e := by
  by_cases hdeep : ∃ limit, e.cause = .tooDeep limit
  · exact .tooDeep hdeep.choose_spec
  have hdeep := not_exists.mp hdeep
  obtain ⟨done, left, ds, hleft, hdone, hnext⟩ := Document.stops_of_parse hparse
  have hnone := DeclarationStream.noRoot_of_next hnext hdeep
  rcases DeclarationStream.error_of_next hnext with ⟨hnil, text', htext, rfl⟩ | ⟨-, hroot⟩
  · obtain rfl : text = text' := Option.some.inj (hbroken.symm.trans htext)
    obtain rfl : left = [] := hnil
    exact .unrecognized hleft hdone hnone rfl
  obtain ⟨e', hread, he⟩ := DeclarationStream.error_of_readRoot hroot hdeep
  by_cases hcut : (cutRoot maxDepth left).2 = []
  · have hblame : e = DeclarationStream.unrecognized text := by
      simpa [DeclarationStream.blame, DeclarationStream.ofSource, hbroken, hcut] using he
    rw [hblame]
    exact .unrecognized hleft hdone hnone hcut
  · have hsame : e = e' := by
      simpa [DeclarationStream.blame, DeclarationStream.ofSource, hbroken, hcut] using he
    obtain ⟨front, t, back, s, hfront, hadvance, hstep, hstop⟩ :=
      DeclarationStream.error_of_cutRoot hread hcut
    obtain rfl : left = front ++ t :: back := hfront
    obtain ⟨hfirst, hblames⟩ := blamesToken_of_stops hdone hadvance hstep back
    rw [hsame, hstop]
    exact .token hleft hdone hnone hcut (hleft ▸ hfirst) hblames

/-- **Unrecognized text takes the blame for a syntax error in front of it** when the root with
that error takes up all tokens that are left. If braces close the root in front of other
tokens, the error stands at the first impossible token. -/
theorem error_before_unrecognized (source : String) (maxDepth : Nat) (text : Placed String)
    (hbroken : (TokenRun.ofSource source).broken = some text) :
    ∃ e, Document.parse source maxDepth = .error e ∧
      Reports (TokenRun.ofSource source).tokens maxDepth text e := by
  cases hparse : Document.parse source maxDepth with
  | ok doc =>
    obtain ⟨ts, hlex, -⟩ := parse_eq_ok_iff.mp hparse
    rw [ofSource_eq_iff.mpr hlex] at hbroken
    cases hbroken
  | error e => exact ⟨e, rfl, reports_of_parse hbroken hparse⟩

/-- Here the root closes in front of a token, and the error stands at the semicolon. -/
theorem error_before_unrecognized_closed :
    let source := "a \x7b ; \x7d b @"
    (TokenRun.ofSource source).broken = some ⟨"@", ⟨10, 11⟩⟩ ∧
      ∃ e, Document.parse source 64 = .error e ∧
        Reports (TokenRun.ofSource source).tokens 64 ⟨"@", ⟨10, 11⟩⟩ e := by
  intro source
  have hbroken : (TokenRun.ofSource source).broken = some ⟨"@", ⟨10, 11⟩⟩ := by cbv
  exact ⟨hbroken, error_before_unrecognized source 64 _ hbroken⟩

/-- Without that token, the same semicolon is impossible and unrecognized text takes the blame. -/
theorem unrecognized_hides_impossible :
    ¬ ∀ (source : String) (maxDepth : Nat) (text : Placed String) (e : ParseError)
      (front : List (Placed Token)) (t : Placed Token),
      (TokenRun.ofSource source).broken = some text →
      FirstImpossible (TokenRun.ofSource source).tokens front t →
      Document.parse source maxDepth = .error e → (∀ limit, e.cause ≠ .tooDeep limit) →
      BlamesToken e front t := by
  intro hall
  have hbroken : (TokenRun.ofSource "a \x7b ; \x7d @").broken = some ⟨"@", ⟨8, 9⟩⟩ := by cbv
  have hparse : Document.parse "a \x7b ; \x7d @" 64 =
      .error ⟨⟨8, 9⟩, .unrecognized "@"⟩ := by cbv
  have htokens : (TokenRun.ofSource "a \x7b ; \x7d @").tokens =
      [⟨.ident "a", ⟨0, 1⟩⟩, ⟨.braceOpen, ⟨2, 3⟩⟩] ++ ⟨.semicolon, ⟨4, 5⟩⟩ ::
        [⟨.braceClose, ⟨6, 7⟩⟩] := by cbv
  have hfirst : FirstImpossible (TokenRun.ofSource "a \x7b ; \x7d @").tokens
      [⟨.ident "a", ⟨0, 1⟩⟩, ⟨.braceOpen, ⟨2, 3⟩⟩] ⟨.semicolon, ⟨4, 5⟩⟩ := by
    rw [htokens]
    exact Progress.firstImpossible_of_pass rfl rfl _
  have hdeep : ∀ limit, ParseError.Cause.unrecognized "@" ≠ .tooDeep limit := by
    intro limit h
    cases h
  have hspan := (hall _ 64 _ _ _ _ hbroken hfirst hparse hdeep).span
  exact absurd hspan (by decide)

end UiMarkup
