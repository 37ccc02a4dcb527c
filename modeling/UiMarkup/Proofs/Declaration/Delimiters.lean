import UiMarkup.Proofs.Declaration.ErrorPlaces
import UiMarkup.Proofs.Declaration.Printing

/-!
# What the depth limit bounds

Braces are counted before a declaration is read, so that nothing that nests too
deep is read at all. Parentheses are not counted. They nest as deep in what is
read as they do in the source, whatever the limit is.
-/

namespace UiMarkup

open Declaration Grammar

/-! ## How deep delimiters nest -/

/-- Some marks that open something, and the marks that close it. -/
structure Delimiters where
  opens : Token → Bool
  closes : Token → Bool

namespace Delimiters

def braces : Delimiters := ⟨(· = .braceOpen), (· = .braceClose)⟩

def parens : Delimiters := ⟨(· = .parenOpen), (· = .parenClose)⟩

/-- Both of what the grammar is recursive in. -/
def both : Delimiters :=
  ⟨fun t => t = .braceOpen || t = .parenOpen, fun t => t = .braceClose || t = .parenClose⟩

/-- How many are open behind a token. A mark that closes nothing changes nothing. -/
def step (d : Delimiters) (depth : Nat) (t : Token) : Nat :=
  if d.opens t then depth + 1 else if d.closes t then depth - 1 else depth

/-- How many are open at most, with `depth` of them open in front of the tokens. -/
def nesting (d : Delimiters) (depth : Nat) : List Token → Nat
  | [] => depth
  | t :: ts => max depth (d.nesting (d.step depth t) ts)

theorem le_nesting (d : Delimiters) (depth : Nat) (ts : List Token) :
    depth ≤ d.nesting depth ts := by
  cases ts with
  | nil => exact Nat.le_refl _
  | cons t ts => exact Nat.le_max_left _ _

theorem step_both_le {b p n : Nat} (h : n ≤ b + p) (t : Token) :
    both.step n t ≤ braces.step b t + parens.step p t := by
  cases t <;> simp [step, both, braces, parens] <;> omega

theorem nesting_both_le {b p n : Nat} (h : n ≤ b + p) (ts : List Token) :
    both.nesting n ts ≤ braces.nesting b ts + parens.nesting p ts := by
  induction ts generalizing b p n with
  | nil => exact h
  | cons t ts ih =>
    have hrest := ih (step_both_le h t)
    simp only [nesting]
    omega

end Delimiters

/-! ## What is let through -/

/-- The range of tokens that is read next: up to the brace that closes the first body, or all
tokens if none does. Nothing is read if a brace goes too deep before that. -/
def DeclarationStream.LetsThrough (s : DeclarationStream) (range : List (Placed Token)) : Prop :=
  (∀ brace, extent s.maxDepth 0 s.left ≠ .tooDeep brace) ∧
    range = (cutRoot s.maxDepth s.left).1

section extent

open Delimiters

variable {limit depth : Nat} {ts : List (Placed Token)}

theorem nesting_cons_le {t : Placed Token} (hdepth : depth ≤ limit) {n : Nat}
    (hstep : braces.step depth t.value = n)
    (hrest : braces.nesting n (ts.map Placed.value) ≤ limit) :
    braces.nesting depth ((t :: ts).map Placed.value) ≤ limit := by
  rw [List.map_cons, nesting, hstep]
  exact Nat.max_le.mpr ⟨hdepth, hrest⟩

theorem step_braces_of_not_brace {t : Placed Token} (hopen : t.value ≠ .braceOpen)
    (hclose : t.value ≠ .braceClose) : braces.step depth t.value = depth := by
  simp [step, braces, hopen, hclose]

theorem nesting_of_closed {rest : List (Placed Token)} (hdepth : depth ≤ limit)
    (h : extent limit depth ts = .closed rest) :
    ∃ us, ts = us ++ rest ∧ braces.nesting depth (us.map Placed.value) ≤ limit := by
  fun_induction extent limit depth ts with
  | case1 | case2 => cases h
  | case3 depth t ts hopen hlt ih =>
    obtain ⟨us, rfl, hus⟩ := ih (by omega) h
    exact ⟨t :: us, rfl, nesting_cons_le hdepth (by rw [hopen]; rfl) hus⟩
  | case4 depth t ts hclose hle =>
    obtain rfl : ts = rest := by simpa using h
    refine ⟨[t], rfl, nesting_cons_le (n := depth - 1) hdepth (by rw [hclose]; rfl) ?_⟩
    show depth - 1 ≤ limit
    omega
  | case5 depth t ts hclose hlt ih =>
    obtain ⟨us, rfl, hus⟩ := ih (by omega) h
    exact ⟨t :: us, rfl, nesting_cons_le hdepth (by rw [hclose]; rfl) hus⟩
  | case6 depth t ts hopen hclose ih =>
    obtain ⟨us, rfl, hus⟩ := ih hdepth h
    exact ⟨t :: us, rfl, nesting_cons_le hdepth (step_braces_of_not_brace hopen hclose) hus⟩

theorem nesting_of_unclosed (hdepth : depth ≤ limit) (h : extent limit depth ts = .unclosed) :
    braces.nesting depth (ts.map Placed.value) ≤ limit := by
  fun_induction extent limit depth ts with
  | case1 => exact hdepth
  | case2 | case4 => cases h
  | case3 depth t ts hopen hlt ih =>
    exact nesting_cons_le hdepth (by rw [hopen]; rfl) (ih (by omega) h)
  | case5 depth t ts hclose hlt ih =>
    exact nesting_cons_le hdepth (by rw [hclose]; rfl) (ih (by omega) h)
  | case6 depth t ts hopen hclose ih =>
    exact nesting_cons_le hdepth (step_braces_of_not_brace hopen hclose) (ih hdepth h)

end extent

theorem nesting_of_letsThrough {s : DeclarationStream} {range : List (Placed Token)}
    (h : s.LetsThrough range) :
    Delimiters.braces.nesting 0 (range.map Placed.value) ≤ s.maxDepth := by
  obtain ⟨hdeep, rfl⟩ := h
  have hcut := cutRoot_append s.maxDepth s.left
  unfold cutRoot at hcut ⊢
  cases hextent : extent s.maxDepth 0 s.left with
  | tooDeep brace => exact absurd hextent (hdeep brace)
  | unclosed => exact nesting_of_unclosed (Nat.zero_le _) hextent
  | closed rest =>
    obtain ⟨us, hus, hnesting⟩ := nesting_of_closed (Nat.zero_le _) hextent
    rw [hextent] at hcut
    have hrange : s.left.take (s.left.length - rest.length) = us :=
      List.append_cancel_right (hcut.trans hus)
    rwa [← hrange] at hnesting

/-! ## Tuples in tuples -/

/-- A number in so many pairs of parentheses. -/
def tupleTokens : Nat → List Token
  | 0 => [.number "1"]
  | n + 1 => .parenOpen :: tupleTokens n ++ [.parenClose]

def tupleText : Nat → List Char
  | 0 => ['1']
  | n + 1 => '(' :: tupleText n ++ [')']

theorem spells_tuple (n : Nat) : Spells (tupleText n) (tupleTokens n) := by
  induction n with
  | zero =>
    have hone : Legible (.number "1") := @isNumber_takeNumber ['1'] rfl
    exact spells_of_legible hone
  | succ n ih =>
    have hfront : Says ['('] [.parenOpen] := says_mark rfl says_nil
    have hback : Says [')'] [.parenClose] := says_mark rfl says_nil
    have htext := says_append hfront (says_apart ih rfl hback)
    exact spells_of_says htext

theorem exists_value_tuple {n : Nat} {ts : List (Placed Token)}
    (h : ts.map Placed.value = tupleTokens n) : ∃ v, Grammar.Value ts v := by
  induction n generalizing ts with
  | zero =>
    obtain ⟨t, rest, rfl, ht, hrest⟩ := List.map_eq_cons_iff.mp h
    obtain rfl := List.map_eq_nil_iff.mp hrest
    exact ⟨_, @Grammar.Value.scalar t "1" (by rw [ht]; rfl)⟩
  | succ n ih =>
    obtain ⟨front, back, rfl, hfront, hback⟩ := List.map_eq_append_iff.mp h
    obtain ⟨open_, us, rfl, hopen, hus⟩ := List.map_eq_cons_iff.mp hfront
    obtain ⟨close, rest, rfl, hclose, hrest⟩ := List.map_eq_cons_iff.mp hback
    obtain rfl := List.map_eq_nil_iff.mp hrest
    obtain ⟨v, hv⟩ := ih hus
    have htuple := Grammar.Value.tuple hopen (.one hv) .absent hclose
    rw [List.append_nil] at htuple
    exact ⟨_, htuple⟩

/-- A tuple nests by its parentheses, if they are counted, and closes all that it opens. -/
theorem nesting_tuple {d : Delimiters} (hopen : ∀ k, d.step k .parenOpen = k + 1)
    (hclose : ∀ k, d.step (k + 1) .parenClose = k) (hnumber : ∀ k, d.step k (.number "1") = k)
    (n depth : Nat) (rest : List Token) :
    d.nesting depth (tupleTokens n ++ rest) = max (depth + n) (d.nesting depth rest) := by
  induction n generalizing depth rest with
  | zero => rw [tupleTokens, List.singleton_append, Delimiters.nesting, hnumber, Nat.add_zero]
  | succ n ih =>
    have hle := d.le_nesting depth rest
    rw [tupleTokens, List.append_assoc, List.cons_append, Delimiters.nesting, hopen, ih,
      List.singleton_append, Delimiters.nesting, hclose]
    omega

/-- A source with one declaration that assigns such a tuple. -/
def tupleSource (n : Nat) : String :=
  "a\x7bb:" ++ String.ofList (tupleText n) ++ ";\x7d"

def tupleSourceTokens (n : Nat) : List Token :=
  [.ident "a", .braceOpen, .ident "b", .colon] ++ (tupleTokens n ++ [.semicolon, .braceClose])

theorem spoken_tupleSource (n : Nat) :
    spoken (tupleSource n).toList = (tupleSourceTokens n).map Lexeme.token := by
  have hkind : Spells ['a'] [.ident "a"] := spells_of_legible (t := .ident "a") rfl
  have hname : Spells ['b'] [.ident "b"] := spells_of_legible (t := .ident "b") rfl
  have hcolon : Says [':'] [.colon] := says_mark rfl says_nil
  have hback : Says [';', '\x7d'] [.semicolon, .braceClose] := says_mark rfl (says_mark rfl says_nil)
  have hopen : Says ['\x7b'] [.braceOpen] := says_mark rfl says_nil
  have hfront := says_append (says_apart hkind rfl hopen) (says_apart hname rfl hcolon)
  have htext := says_append hfront (says_apart (spells_tuple n) rfl hback) []
  simpa [tupleSource, tupleSourceTokens] using htext

theorem exists_root_tupleSource (n : Nat) :
    ∃ ts d, lex (tupleSource n) = ts.map Placed.asLexeme ∧
      ts.map Placed.value = tupleSourceTokens n ∧ Declares ts d ∧ d.depth = 1 := by
  have hspoken := spoken_tupleSource n
  rw [← map_value_lex] at hspoken
  obtain ⟨ts, hlex, hvalues⟩ := exists_tokens hspoken
  obtain ⟨front, back, rfl, hfront, hback⟩ := List.map_eq_append_iff.mp hvalues
  obtain ⟨us, ends, rfl, hus, hends⟩ := List.map_eq_append_iff.mp hback
  simp only [List.map_eq_cons_iff, List.map_eq_nil_iff] at hfront hends
  obtain ⟨kind, _, rfl, hkind, open_, _, rfl, hopen, name, _, rfl, hname, colon, _, rfl, hcolon,
    rfl⟩ := hfront
  obtain ⟨semicolon, _, rfl, hsemicolon, close, _, rfl, hclose, rfl⟩ := hends
  obtain ⟨v, hv⟩ := exists_value_tuple hus
  have hbody := Body.assign .empty (.mk hname hcolon hv hsemicolon)
  have hdeclares := Declares.mk (.plain hkind) hopen hbody hclose
  have hsame : [kind] ++ open_ :: ([] ++ (name :: colon :: us ++ [semicolon])) ++ [close] =
      [kind, open_, name, colon] ++ (us ++ [semicolon, close]) := by simp
  rw [hsame] at hdeclares
  exact ⟨_, _, hlex, hvalues, hdeclares, rfl⟩

theorem nesting_tupleSource (n : Nat) :
    Delimiters.parens.nesting 0 (tupleSourceTokens n) = n ∧
      Delimiters.both.nesting 0 (tupleSourceTokens n) = n + 1 := by
  have hparens := @nesting_tuple .parens (fun _ => rfl) (fun _ => rfl) (fun _ => rfl) n 0
    [.semicolon, .braceClose]
  have hboth := @nesting_tuple .both (fun _ => rfl) (fun _ => rfl) (fun _ => rfl) n 1
    [.semicolon, .braceClose]
  have hclosed : Delimiters.parens.nesting 0 [.semicolon, .braceClose] = 0 := rfl
  have hclosed' : Delimiters.both.nesting 1 [.semicolon, .braceClose] = 1 := rfl
  constructor
  · show max 0 (max 0 (max 0 (max 0
      (Delimiters.parens.nesting 0 (tupleTokens n ++ [.semicolon, .braceClose]))))) = n
    omega
  · show max 0 (max 0 (max 1 (max 1
      (Delimiters.both.nesting 1 (tupleTokens n ++ [.semicolon, .braceClose]))))) = n + 1
    omega

/-- Its parentheses are let through, if only its one brace is allowed. -/
theorem exists_letsThrough_tuple {maxDepth : Nat} (hpos : 0 < maxDepth) (n : Nat) :
    ∃ source range doc, (DeclarationStream.ofSource source maxDepth).LetsThrough range ∧
      Document.parse source maxDepth = .ok doc ∧
      Delimiters.parens.nesting 0 (range.map Placed.value) = n ∧
        Delimiters.both.nesting 0 (range.map Placed.value) = n + 1 := by
  obtain ⟨ts, d, hlex, hvalues, hdeclares, hdepth⟩ := exists_root_tupleSource n
  have hle : d.depth ≤ maxDepth := by omega
  have hroots : Roots ts [d] := by simpa using Roots.cons hdeclares .nil
  have hleft : (DeclarationStream.ofSource (tupleSource n) maxDepth).left = ts ++ [] := by
    rw [List.append_nil]
    exact congrArg TokenRun.tokens (ofSource_eq_iff.mpr hlex)
  refine ⟨tupleSource n, ts, ⟨[d]⟩, ⟨fun brace => ?_, ?_⟩,
    parse_eq_ok_iff.mpr ⟨ts, hlex, hroots, by simpa using hle⟩, ?_⟩
  · rw [hleft]
    exact fun hdeep => nomatch (extent_of_depth_le hdeclares hle []).symm.trans hdeep
  · rw [hleft]
    exact (congrArg Prod.fst (cutRoot_of_declares hdeclares hle [])).symm
  · rw [hvalues]
    exact nesting_tupleSource n

/-- **The depth limit bounds braces and nothing else.** In what is let through, braces nest no
deeper than it, and with the parentheses no deeper than these nest in addition. Under the same
limit parentheses nest as deep as they like in a source that is read, as soon as one brace is
allowed. -/
theorem limit_bounds_braces (s : DeclarationStream) (range : List (Placed Token))
    (h : s.LetsThrough range) :
    let tokens := range.map Placed.value
    (Delimiters.braces.nesting 0 tokens ≤ s.maxDepth ∧
      Delimiters.both.nesting 0 tokens ≤ s.maxDepth + Delimiters.parens.nesting 0 tokens) ∧
    (0 < s.maxDepth → ∀ n, ∃ source range doc,
      (DeclarationStream.ofSource source s.maxDepth).LetsThrough range ∧
        Document.parse source s.maxDepth = .ok doc ∧
        let tokens := range.map Placed.value
        Delimiters.parens.nesting 0 tokens = n ∧ Delimiters.both.nesting 0 tokens = n + 1) := by
  intro tokens
  constructor
  · have hbraces : Delimiters.braces.nesting 0 tokens ≤ s.maxDepth := nesting_of_letsThrough h
    have hboth := @Delimiters.nesting_both_le 0 0 0 (Nat.le_refl _) tokens
    exact ⟨hbraces, by omega⟩
  · intro hpos n
    exact exists_letsThrough_tuple hpos n

/-- One brace is allowed and there is one. The two parentheses in it are not counted. -/
theorem limit_bounds_braces_pair :
    let s := DeclarationStream.ofSource "a\x7bb:((1));\x7d" 1
    s.LetsThrough s.left ∧ Delimiters.braces.nesting 0 (s.left.map Placed.value) ≤ 1 ∧
      Delimiters.both.nesting 0 (s.left.map Placed.value) = 3 := by
  intro s
  have hextent : extent 1 0 s.left = .closed [] := by cbv
  have hlets : s.LetsThrough s.left := by
    refine ⟨fun brace hdeep => ?_, ?_⟩
    · have hclosed := hextent.symm.trans hdeep
      cases hclosed
    · show _ = (cutRoot 1 s.left).1
      rw [cutRoot, hextent]
      simp
  exact ⟨hlets, (limit_bounds_braces s s.left hlets).1.1, by cbv⟩

/-- So no function of the limit bounds the two together. -/
theorem no_bound_on_nesting :
    ¬ ∃ bound : Nat → Nat, ∀ (source : String) (maxDepth : Nat) (range : List (Placed Token)),
      (DeclarationStream.ofSource source maxDepth).LetsThrough range →
        Delimiters.both.nesting 0 (range.map Placed.value) ≤ bound maxDepth := by
  rintro ⟨bound, hbound⟩
  obtain ⟨source, range, doc, hlets, -, -, hboth⟩ :=
    exists_letsThrough_tuple Nat.one_pos (bound 1)
  have hle := hbound source 1 range hlets
  omega

end UiMarkup
