import UiMarkup.Proofs.Check.Joining
import UiMarkup.Proofs.Declaration.Excerpts
import UiMarkup.Proofs.Token.Filler

/-!
# Blanks and comments carry no meaning

A source with a blank or a comment more between its tokens has the same tree,
the same components and the same errors. What stands behind the filler stands
further on. Only an error at the end of the input does not move as a whole.
-/

namespace UiMarkup

open Declaration (preorderAll)

/-! ## Spans around a gap -/

/-- The span after a gap of `n` bytes has opened at a byte: it moves if it starts there or behind,
and is longer if the gap opens in it. -/
def Span.opened (offset n : Nat) (s : Span) : Span :=
  if offset ≤ s.start then ⟨s.start + n, s.stop + n⟩
  else ⟨s.start, if offset < s.stop then s.stop + n else s.stop⟩

theorem Relocation.opening_span_eq_iff {offset n : Nat} {s : Span} :
    (opening offset n).span s = s.opened offset n ↔
      n = 0 ∨ (offset ≤ s.start → offset < s.stop) := by
  simp only [opening, span, Span.opened]
  split
  · split
    · simp_all
    · simp only [Span.mk.injEq, true_and]
      omega
  · simp_all

theorem Relocation.opening_span {s : Span} (h : s.start < s.stop) (offset n : Nat) :
    (opening offset n).span s = s.opened offset n :=
  opening_span_eq_iff.mpr (.inr fun hstart => by omega)

namespace CheckError

/-- The same errors at other places. -/
def mapSpan (f : Span → Span) : CheckError → CheckError
  | parse e => parse ⟨f e.span, e.cause⟩
  | validation errors => validation (errors.map fun e => ⟨f e.span, e.cause⟩)

theorem mapSpan_eq_of_spans {f g : Span → Span} {errors : List ValidationError}
    (h : ∀ e ∈ errors, f e.span = g e.span) :
    (validation errors).mapSpan f = (validation errors).mapSpan g := by
  refine congrArg validation (List.map_congr_left fun e he => ?_)
  rw [h e he]

end CheckError

/-! ## Reading -/

def Relocation.document (m : Relocation) (doc : Document) : Document :=
  ⟨m.declarations doc.roots⟩

theorem Document.ofList_answer (m : Relocation) (items : List (Except ParseError Declaration)) :
    ofList (items.map m.answer) = ((ofList items).map m.declarations).mapError m.parseError := by
  fun_induction ofList items with
  | case1 | case2 => rfl
  | case3 d items ih =>
    rw [List.map_cons, Relocation.answer, ofList, ih]
    cases ofList items <;> rfl

/-- What a filler does to the tokens of a source it does to its tree and to its errors. -/
theorem parse_of_lex {source filled : String} {m : Relocation}
    (hlex : lex filled = (lex source).map m.placed)
    (hlength : byteLength filled.toList = m.start (byteLength source.toList)) (maxDepth : Nat) :
    Document.parse filled maxDepth =
      ((Document.parse source maxDepth).map m.document).mapError m.parseError := by
  have hrun : TokenRun.ofSource filled = ⟨(TokenRun.ofSource source).tokens.map m.placed,
      (TokenRun.ofSource source).broken.map m.placed⟩ := by
    rw [TokenRun.ofSource, hlex, TokenRun.ofLexemes_placed]
    rfl
  have hmoved : DeclarationStream.MovedBy m (.ofSource source maxDepth)
      (.ofSource filled maxDepth) :=
    ⟨hlength, congrArg TokenRun.broken hrun, rfl, congrArg TokenRun.tokens hrun, rfl⟩
  rw [Document.parse, DeclarationStream.toList_of_movedBy hmoved, Document.ofList_answer,
    Document.parse]
  cases Document.ofList (DeclarationStream.ofSource source maxDepth).toList <;> rfl

section error

open DeclarationStream

variable {source : String} {maxDepth : Nat} {e : ParseError}

/-- An error stands at something, unless the input ends before it should. -/
theorem solid_or_ending_of_error (h : Document.parse source maxDepth = .error e) :
    (e.span.start < e.span.stop ∧ ∀ place, e.cause ≠ .unexpected none place) ∨
      ∃ front last place, lex source = (front ++ [last]).map Placed.asLexeme ∧
        e = ⟨⟨byteLength source.toList, last.span.stop⟩, .unexpected none place⟩ := by
  have hts := TokenRun.inOrder_tokens source
  cases errorOf_toList (Document.mem_of_parse_error h) with
  | unrecognized hbroken =>
    exact .inl ⟨(inOrder_lex source).start_lt_stop _ (TokenRun.mem_of_broken hbroken), nofun⟩
  | tooDeep ht => exact .inl ⟨hts.start_lt_stop _ ht, nofun⟩
  | token ht => exact .inl ⟨hts.start_lt_stop _ ht, nofun⟩
  | @ending front last place hbroken hlast =>
    have hrun : TokenRun.ofSource source = ⟨front ++ [last], none⟩ :=
      TokenRun.mk.injEq .. ▸ ⟨hlast, hbroken⟩
    exact .inr ⟨front, last, place, ofSource_eq_iff.mp hrun, rfl⟩

theorem stop_le_of_mem_lex {front : List (Placed Token)} {last : Placed Token}
    (hlex : lex source = (front ++ [last]).map Placed.asLexeme) {t : Placed Lexeme}
    (ht : t ∈ lex source) : t.span.stop ≤ last.span.stop := by
  have horder := inOrder_lex source
  rw [hlex, List.map_append, List.map_singleton] at ht horder
  rcases List.mem_append.mp ht with hfront | hlast
  · have hapart := (List.pairwise_append.mp horder.apart).2.2 t hfront _ List.mem_cons_self
    have hsolid := horder.start_lt_stop last.asLexeme (by simp)
    exact Nat.le_trans hapart (Nat.le_of_lt hsolid)
  · rw [List.mem_singleton.mp hlast]
    exact Nat.le_refl _

/-- The end of the input moves as a whole only if the last token moves with it. -/
theorem opening_span_error_iff (h : Document.parse source maxDepth = .error e) {offset : Nat}
    (hoffset : offset ≤ byteLength source.toList) (n : Nat) :
    (Relocation.opening offset n).span e.span = e.span.opened offset n ↔
      n = 0 ∨ ((∃ place, e.cause = .unexpected none place) →
        ∃ t ∈ lex source, offset < t.span.stop) := by
  rcases solid_or_ending_of_error h with ⟨hsolid, hcause⟩ | ⟨front, last, place, hlex, rfl⟩
  · refine iff_of_true (Relocation.opening_span hsolid _ _) (.inr ?_)
    rintro ⟨place, hplace⟩
    exact absurd hplace (hcause place)
  · rw [Relocation.opening_span_eq_iff]
    refine or_congr_right ⟨fun hmoved _ => ?_, fun hbehind _ => ?_⟩
    · have hlast : last.asLexeme ∈ lex source := by simp [hlex]
      exact ⟨_, hlast, hmoved hoffset⟩
    · obtain ⟨t, ht, hstop⟩ := hbehind ⟨place, rfl⟩
      exact Nat.lt_of_lt_of_le hstop (stop_le_of_mem_lex hlex ht)

end error

/-! ## Checking -/

theorem settle_validationError {m : Relocation}
    (h : ∀ i j, m.start i ≤ m.start j ↔ i ≤ j) {α : Type} (errors : List ValidationError)
    (result : α) :
    settle (errors.map m.validationError) result =
      (settle errors result).mapError (List.map m.validationError) := by
  cases errors with
  | nil => rfl
  | cons e errors => exact congrArg Except.error (Relocation.sortByStart_validationError h _)

theorem check_of_parse_moved {source filled : String} {m : Relocation} {options : CheckOptions}
    (h : ∀ i j, m.start i ≤ m.start j ↔ i ≤ j)
    (hparse : Document.parse filled options.maxDepth =
      ((Document.parse source options.maxDepth).map m.document).mapError m.parseError)
    (r : Registry) :
    check r options filled = (check r options source).mapError (CheckError.mapSpan m.span) := by
  cases hsource : Document.parse source options.maxDepth with
  | error e =>
    rw [hsource] at hparse
    rw [check_eq_readThen, check_eq_readThen, readThen_of_error hsource, readThen_of_error hparse]
    rfl
  | ok doc =>
    rw [hsource] at hparse
    have hchecked : check r options source = _ := check_of_parse hsource
    have hfilled : check r options filled = _ := check_of_parse hparse
    rw [hchecked, hfilled, Relocation.document, m.errors_declarations, m.components_declarations,
      settle_validationError h]
    cases settle ((Validator.mk r options.stylesheet).errors doc.roots)
      (CheckedDocument.mk ((Validator.mk r options.stylesheet).components doc.roots)) <;> rfl

theorem solid_of_mem_spans {source : String} {maxDepth : Nat} {doc : Document}
    (hparse : Document.parse source maxDepth = .ok doc) {d : Declaration}
    (hd : d ∈ preorderAll doc.roots) {s : Span} (hs : s ∈ d.spans) : s.start < s.stop := by
  obtain ⟨ts, hlex, hroots, -⟩ := parse_eq_ok_iff.mp hparse
  obtain ⟨us, hus, hdeclares⟩ := Grammar.part_body (Grammar.body_of_roots hroots) d hd
  exact (solid_of_part hlex ((Grammar.hasPart_of_declares hdeclares hs).within hus)).1

/-- No error that a check finds is empty: each stands at a part of a declaration. -/
theorem solid_of_mem_errors {v : Validator} {source : String} {maxDepth : Nat}
    {doc : Document} (hparse : Document.parse source maxDepth = .ok doc) {e : ValidationError}
    (h : e ∈ v.errors doc.roots) : e.span.start < e.span.stop := by
  obtain ⟨d, hd, he⟩ := List.mem_flatMap.mp h
  refine solid_of_mem_spans hparse hd ?_
  rcases v.span_of_mem_errorsAt he with hkind | ⟨a, ha, hspan⟩
  · simp [hkind, Declaration.spans, Declaration.headingSpans]
  · refine List.mem_append_right _ (List.mem_flatMap.mpr ⟨a, ha, ?_⟩)
    rcases hspan with hspan | hspan <;> simp [hspan, Assignment.spans]

/-- Only an error at the end of the input does not move as a whole, if no token moves with it. -/
theorem mapSpan_opening_iff {r : Registry} {options : CheckOptions} {source : String}
    {e : CheckError} (h : check r options source = .error e) {offset : Nat}
    (hoffset : offset ≤ byteLength source.toList) (n : Nat) :
    e.mapSpan (Relocation.opening offset n).span = e.mapSpan (Span.opened offset n) ↔
      n = 0 ∨ ((∃ span place, e = .parse ⟨span, .unexpected none place⟩) →
        ∃ t ∈ lex source, offset < t.span.stop) := by
  cases e with
  | parse e =>
    have hparse : Document.parse source options.maxDepth = .error e := by
      rwa [check_eq_readThen, readThen_eq_parse_iff] at h
    have hiff := opening_span_error_iff hparse hoffset n
    obtain ⟨span, cause⟩ := e
    simpa [CheckError.mapSpan] using hiff
  | validation errors =>
    refine iff_of_true (CheckError.mapSpan_eq_of_spans fun e he => ?_) (.inr nofun)
    cases hparse : Document.parse source options.maxDepth with
    | error e' =>
      rw [check_eq_readThen, readThen_of_error hparse] at h
      cases h
    | ok doc =>
      have hchecked : check r options source = _ := check_of_parse hparse
      rw [hchecked, mapError_eq_error_iff] at h
      obtain ⟨report, hreport, hsame⟩ := h
      obtain rfl : report = errors := by simpa using hsame
      obtain ⟨-, rfl⟩ := settle_eq_error_iff.mp hreport
      have hfound := (ValidationError.perm_sortByStart _).mem_iff.mp he
      exact Relocation.opening_span (solid_of_mem_errors hparse hfound) _ _

/-! ## Fillers -/

/-- **Blanks and comments carry no meaning.** In front of a token or behind it they move the
tokens, the tree and the errors that stand behind them, and change nothing else. All move as a
whole but an unexpected end of input behind which no token stands: it stays where it stopped. -/
theorem fillers_mean_nothing (front w back : String) (hw : IsFiller w.toList)
    (hrecognized : ∀ l ∈ lex (front ++ back), l.value.IsRecognized)
    (hplace : ∃ t ∈ lex (front ++ back),
      byteLength front.toList = t.span.start ∨ byteLength front.toList = t.span.stop) :
    let source := front ++ back
    let filled := front ++ w ++ back
    let offset := byteLength front.toList
    let n := byteLength w.toList
    let m := Relocation.opening offset n
    (lex filled = (lex source).map m.placed ∧
      ∀ l ∈ lex source, m.span l.span = l.span.opened offset n) ∧
    (∀ maxDepth, Document.parse filled maxDepth =
        ((Document.parse source maxDepth).map m.document).mapError m.parseError ∧
      ∀ doc, Document.parse source maxDepth = .ok doc →
        ∀ d ∈ preorderAll doc.roots, ∀ s ∈ d.spans, m.span s = s.opened offset n) ∧
    ∀ (r : Registry) (options : CheckOptions),
      check r options filled = (check r options source).mapError (CheckError.mapSpan m.span) ∧
      ∀ e, check r options source = .error e →
        (e.mapSpan m.span = e.mapSpan (Span.opened offset n) ↔
          w = "" ∨ ((∃ span place, e = .parse ⟨span, .unexpected none place⟩) →
            ∃ t ∈ lex source, offset < t.span.stop)) := by
  intro source filled offset n m
  have hlexemes : ∀ l ∈ lexemes source.toList, l.IsRecognized :=
    isRecognized_of_lex hrecognized
  obtain ⟨t, ht, hedge⟩ := hplace
  have hcut := isCut_of_mem_lex hlexemes ht hedge
  have hfront : ∀ l ∈ lexemes front.toList, l.IsRecognized := by
    intro l hl
    refine hlexemes l ?_
    rw [String.toList_append, hcut.lexemes]
    exact List.mem_append_left _ hl
  have hlex : lex filled = (lex source).map m.placed := lex_filler hcut hw hfront
  have hoffset : offset ≤ byteLength source.toList := by
    rw [String.toList_append, byteLength_append]
    exact Nat.le_add_right _ _
  have hlength : byteLength filled.toList = m.start (byteLength source.toList) := by
    show _ = if offset ≤ byteLength source.toList then byteLength source.toList + n else _
    rw [if_pos hoffset]
    simp only [filled, source, n, String.toList_append, byteLength_append]
    omega
  have hparse := parse_of_lex hlex hlength
  have hempty : n = 0 ↔ w = "" := by
    constructor
    · intro hzero
      by_contra hne
      have hchars : w.toList ≠ [] := by simpa using hne
      have hpos := byteLength_pos hchars
      omega
    · rintro rfl
      rfl
  refine ⟨⟨hlex, fun l hl => ?_⟩, fun maxDepth => ⟨hparse maxDepth, ?_⟩, fun r options => ⟨?_, ?_⟩⟩
  · exact Relocation.opening_span ((inOrder_lex source).start_lt_stop l hl) _ _
  · intro doc hdoc d hd s hs
    exact Relocation.opening_span (solid_of_mem_spans hdoc hd hs) _ _
  · exact check_of_parse_moved (Relocation.opening_start_le_iff _ _) (hparse _) r
  · intro e he
    rw [← hempty]
    exact mapSpan_opening_iff he hoffset n

/-- The comments hold a semicolon, a quote and a brace. The name behind them moves by 11 bytes. -/
theorem fillers_mean_nothing_comments :
    let front := "a \x7b"
    let w := "/*;\"*/ //\x7d\n"
    let back := "b:1;\x7d"
    let schema : ComponentSchema := ⟨"a", "", [], [], by decide⟩
    let r : Registry := ⟨.empty, NameMap.empty.insert "a" schema, none⟩
    let unknown (n : Nat) : ValidationError := ⟨⟨n, n + 1⟩, .unknownAttribute "a" "b"⟩
    check r ⟨1, none⟩ (front ++ back) = .error (.validation [unknown 3]) ∧
      check r ⟨1, none⟩ (front ++ w ++ back) = .error (.validation [unknown 14]) := by
  intro front w back schema r unknown
  have hw : IsFiller w.toList := by
    refine Language.mem_kstar.mpr
      ⟨["/*;\"*/".toList, [' '], "//\x7d\n".toList], by decide +kernel, ?_⟩
    simp only [List.mem_cons, List.not_mem_nil, or_false, forall_eq_or_imp, forall_eq]
    refine ⟨.inr ?_, .inl (.inl ?_), .inl (.inr ?_)⟩
    · exact Pattern.mem_blockComment.mpr ⟨";\"*/".toList, rfl, rfl⟩
    · exact Pattern.mem_blanks.mpr ⟨by simp, by simp [isSpacing]⟩
    · exact ⟨_, Pattern.mem_lineComment.mpr ⟨['\x7d'], by simp, rfl⟩, _, rfl, rfl⟩
  let b : Assignment := ⟨⟨"b", ⟨3, 4⟩⟩, ⟨"1", ⟨5, 6⟩⟩, ⟨3, 7⟩⟩
  let a : Declaration := ⟨⟨"a", ⟨0, 1⟩⟩, none, [b], [], ⟨0, 8⟩⟩
  have hparse : Document.parse (front ++ back) 1 = .ok ⟨[a]⟩ := by cbv
  have hcheck : check r ⟨1, none⟩ (front ++ back) = .error (.validation [unknown 3]) := by
    have hsettled : check r ⟨1, none⟩ (front ++ back) = _ := check_of_parse hparse
    have hfound : (Validator.mk r none).errors [a] = [unknown 3] := by decide +kernel
    rw [hsettled, hfound]
    rfl
  obtain ⟨ts, hlex, -, -⟩ := parse_eq_ok_iff.mp hparse
  have hrecognized : ∀ l ∈ lex (front ++ back), l.value.IsRecognized := by
    intro l hl
    obtain ⟨t, -, rfl⟩ := List.mem_map.mp (hlex ▸ hl)
    intro text htext
    cases htext
  have hopen : ⟨.token .braceOpen, ⟨2, 3⟩⟩ ∈ lex (front ++ back) := by
    have hall : (lex (front ++ back)).take 2 =
        [⟨.token (.ident "a"), ⟨0, 1⟩⟩, ⟨.token .braceOpen, ⟨2, 3⟩⟩] := by cbv
    exact List.mem_of_mem_take (i := 2) (by simp [hall])
  obtain ⟨-, -, hchecks⟩ := fillers_mean_nothing front w back hw hrecognized
    ⟨_, hopen, .inr (by decide +kernel)⟩
  refine ⟨hcheck, ?_⟩
  have hoffset : byteLength front.toList = 3 := by decide +kernel
  have hlength : byteLength w.toList = 11 := by decide +kernel
  rw [(hchecks r ⟨1, none⟩).1, hcheck, hoffset, hlength]
  rfl

/-- The blank behind the brace leaves the end of the error where it was, and only its start
moves: the error runs backwards. -/
theorem end_of_input_left_behind :
    ¬ ∀ (front w back : String), IsFiller w.toList →
      (∀ l ∈ lex (front ++ back), l.value.IsRecognized) →
      (∃ t ∈ lex (front ++ back),
        byteLength front.toList = t.span.start ∨ byteLength front.toList = t.span.stop) →
      ∀ (r : Registry) (options : CheckOptions) (e : CheckError),
        check r options (front ++ back) = .error e →
          check r options (front ++ w ++ back) = .error
            (e.mapSpan (Span.opened (byteLength front.toList) (byteLength w.toList))) := by
  intro hall
  have hw : IsFiller " ".toList :=
    Language.mem_kstar.mpr ⟨[[' ']], rfl, by
      simp only [List.mem_singleton, forall_eq]
      exact .inl (.inl (Pattern.mem_blanks.mpr ⟨by simp, by simp [isSpacing]⟩))⟩
  have hlex : lex ("a \x7b" ++ "") =
      [⟨.token (.ident "a"), ⟨0, 1⟩⟩, ⟨.token .braceOpen, ⟨2, 3⟩⟩] := by cbv
  have hends (source : String) (e : ParseError) (h : Document.parse source 1 = .error e) :
      check ⟨.empty, .empty, none⟩ ⟨1, none⟩ source = .error (.parse e) := readThen_of_error h
  have hbefore := hends ("a \x7b" ++ "") ⟨⟨3, 3⟩, .unexpected none .body⟩ (by cbv)
  have hafter := hends ("a \x7b" ++ " " ++ "") ⟨⟨4, 3⟩, .unexpected none .body⟩ (by cbv)
  have hrecognized : ∀ l ∈ lex ("a \x7b" ++ ""), l.value.IsRecognized := by
    rw [hlex]
    simp [Lexeme.IsRecognized]
  have hopen : ⟨.token .braceOpen, ⟨2, 3⟩⟩ ∈ lex ("a \x7b" ++ "") := by
    rw [hlex]
    exact List.mem_cons_of_mem _ List.mem_cons_self
  have hmoved := hall "a \x7b" " " "" hw hrecognized ⟨_, hopen, .inr (by decide +kernel)⟩
    _ _ _ hbefore
  rw [hafter, Except.error.injEq] at hmoved
  revert hmoved
  decide +kernel

end UiMarkup
