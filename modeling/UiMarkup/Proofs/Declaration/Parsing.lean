import Mathlib.Data.List.Forall2
import UiMarkup.Declaration.Stream
import UiMarkup.Proofs.Declaration.Advance
import UiMarkup.Proofs.Declaration.Extent
import UiMarkup.Proofs.Declaration.Reached

/-!
# The parser accepts its grammar

A source is read exactly when its tokens derive a document that is not too deep,
and the document read is the one derived.
-/

namespace UiMarkup

open Grammar Declaration

/-! ## Documents of the grammar -/

theorem roots_nil {ds : List Declaration} (h : Roots [] ds) : ds = [] := by
  generalize hts : ([] : List (Placed Token)) = ts at h
  cases h with
  | nil => rfl
  | @cons us _ d ds hdeclares _ =>
    obtain ⟨rfl, -⟩ : us = [] ∧ _ := by simpa using hts.symm
    have hread := Progress.read_of_declares hdeclares 0 0 []
    simp [Progress.read] at hread

/-- The first root is the one that is read, and the others derive from what is left. -/
theorem roots_of_read {ts rest : List (Placed Token)} {d : Declaration} {ds : List Declaration}
    {length stop : Nat} (hread : Progress.root.read length stop ts = .ok (d, rest))
    (h : Roots ts ds) : ∃ es, ds = d :: es ∧ Roots rest es := by
  cases h with
  | nil => simp [Progress.read] at hread
  | @cons us vs e es hdeclares hroots =>
    rw [Progress.read_of_declares hdeclares] at hread
    obtain ⟨rfl, rfl⟩ : e = d ∧ vs = rest := by simpa using hread
    exact ⟨es, rfl, hroots⟩

theorem roots_unique {ts : List (Placed Token)} {ds es : List Declaration} (hds : Roots ts ds)
    (hes : Roots ts es) : ds = es := by
  induction hds generalizing es with
  | nil => exact (roots_nil hes).symm
  | @cons ts us d ds hdeclares _ ih =>
    obtain ⟨fs, rfl, hfs⟩ := roots_of_read (Progress.read_of_declares hdeclares 0 0 us) hes
    rw [ih hfs]

/-! ## Cutting first -/

theorem cutRoots_of_declares {ts : List (Placed Token)} {d : Declaration} {limit : Nat}
    (h : Declares ts d) (hle : d.depth ≤ limit) (rest : List (Placed Token)) :
    cutRoots limit (ts ++ rest) = ts :: cutRoots limit rest := by
  cases ts with
  | nil =>
    have hread := Progress.read_of_declares h 0 0 []
    simp [Progress.read] at hread
  | cons t ts =>
    have hcut := cutRoot_of_declares h hle rest
    rw [List.cons_append] at hcut ⊢
    rw [cutRoots, hcut]

theorem flatten_cutRoots (limit : Nat) (ts : List (Placed Token)) :
    (cutRoots limit ts).flatten = ts := by
  fun_induction cutRoots limit ts with
  | case1 => rfl
  | case2 t ts ih => rw [List.flatten_cons, ih, cutRoot_append]

theorem roots_of_forall₂ {tss : List (List (Placed Token))} {ds : List Declaration}
    (h : List.Forall₂ Declares tss ds) : Roots tss.flatten ds := by
  induction h with
  | nil => exact .nil
  | cons hdeclares _ ih => exact .cons hdeclares ih

/-- Cutting the tokens into roots by their braces alone loses no document and makes none. -/
theorem forall₂_cutRoots_iff {ts : List (Placed Token)} {ds : List Declaration} {limit : Nat}
    (h : ∀ d ∈ ds, d.depth ≤ limit) :
    List.Forall₂ Declares (cutRoots limit ts) ds ↔ Roots ts ds := by
  constructor
  · intro hcut
    have := roots_of_forall₂ hcut
    rwa [flatten_cutRoots] at this
  · intro hroots
    induction hroots with
    | nil => simp [cutRoots]
    | @cons ts us d ds hdeclares _ ih =>
      rw [cutRoots_of_declares hdeclares (h d List.mem_cons_self)]
      exact .cons hdeclares (ih fun e he => h e (List.mem_cons_of_mem _ he))

/-! ## Streams -/

namespace DeclarationStream

theorem readRoot_eq_ok_iff {s : DeclarationStream} {d : Declaration}
    {rest : List (Placed Token)} :
    s.readRoot = .ok (d, rest) ↔
      ∃ ts, s.left = ts ++ rest ∧ Declares ts d ∧ d.depth ≤ s.maxDepth := by
  constructor
  · intro h
    have hread : Progress.root.read s.length s.length s.left = .ok (d, rest) := by
      unfold readRoot at h
      split at h
      · simp at h
      · exact mapError_eq_ok_iff.mp h
      · exact mapError_eq_ok_iff.mp h
    obtain ⟨ts, hleft, hdeclares⟩ := Progress.declares_of_read hread
    refine ⟨ts, hleft, hdeclares, ?_⟩
    by_contra hdeep
    obtain ⟨brace, hextent⟩ := extent_of_lt_depth hdeclares (Nat.lt_of_not_le hdeep) rest
    rw [readRoot, hleft, hextent] at h
    simp at h
  · rintro ⟨ts, hleft, hdeclares, hle⟩
    rw [readRoot, hleft, extent_of_depth_le hdeclares hle]
    exact mapError_eq_ok_iff.mpr (Progress.read_of_declares hdeclares _ _ rest)

theorem toList_of_ok {s s' : DeclarationStream} {d : Declaration}
    (h : s.next = (some (.ok d), s')) : s.toList = .ok d :: s'.toList := by
  rw [toList]
  split <;> simp_all

theorem toList_of_error {s s' : DeclarationStream} {e : ParseError}
    (h : s.next = (some (.error e), s')) : s.toList = [.error e] := by
  rw [toList]
  split <;> simp_all

theorem toList_of_none {s s' : DeclarationStream} (h : s.next = (none, s')) : s.toList = [] := by
  rw [toList]
  split <;> simp_all

theorem next_of_ok {s : DeclarationStream} {d : Declaration} {rest : List (Placed Token)}
    (hopen : s.finished = false) (h : s.readRoot = .ok (d, rest)) :
    s.next = (some (.ok d), { s with left := rest }) := by
  have hleft : s.left ≠ [] := List.ne_nil_of_length_pos (Nat.zero_lt_of_lt (length_readRoot_lt h))
  simp [next, hopen, hleft, h]

theorem next_of_error {s : DeclarationStream} {e : ParseError} (hopen : s.finished = false)
    (hleft : s.left ≠ []) (h : s.readRoot = .error e) :
    s.next = (some (.error e), { s with finished := true }) := by
  simp [next, hopen, hleft, h]

theorem next_of_nil {s : DeclarationStream} (hopen : s.finished = false) (hleft : s.left = []) :
    s.next = (s.run.broken.map fun text => .error (unrecognized text),
      { s with finished := true }) := by
  simp [next, hopen, hleft]

theorem ofList_toList_of_nil {s : DeclarationStream} (hopen : s.finished = false)
    (hleft : s.left = []) {ds : List Declaration} :
    Document.ofList s.toList = .ok ds ↔ s.run.broken = none ∧ ds = [] := by
  have hnext := next_of_nil hopen hleft
  cases hbroken : s.run.broken with
  | none =>
    rw [hbroken] at hnext
    rw [toList_of_none hnext]
    simp [Document.ofList, eq_comm]
  | some text =>
    rw [hbroken] at hnext
    rw [toList_of_error hnext]
    simp [Document.ofList]

/-- With tokens left, the first root derived is the one that is read next. -/
theorem roots_left_iff {s : DeclarationStream} (hleft : s.left ≠ []) {ds : List Declaration} :
    (Roots s.left ds ∧ ∀ d ∈ ds, d.depth ≤ s.maxDepth) ↔
      ∃ d rest es, s.readRoot = .ok (d, rest) ∧ ds = d :: es ∧ Roots rest es ∧
        ∀ e ∈ es, e.depth ≤ s.maxDepth := by
  constructor
  · rintro ⟨hroots, hdepth⟩
    generalize hts : s.left = ts at hroots
    cases hroots with
    | nil => exact absurd hts hleft
    | @cons us rest d es hdeclares hroots =>
      have hd := hdepth d List.mem_cons_self
      exact ⟨d, rest, es, readRoot_eq_ok_iff.mpr ⟨us, hts, hdeclares, hd⟩, rfl, hroots,
        fun e he => hdepth e (List.mem_cons_of_mem _ he)⟩
  · rintro ⟨d, rest, es, hread, rfl, hroots, hdepth⟩
    obtain ⟨us, hus, hdeclares, hd⟩ := readRoot_eq_ok_iff.mp hread
    rw [hus]
    exact ⟨.cons hdeclares hroots, List.forall_mem_cons.mpr ⟨hd, hdepth⟩⟩

/-- What a stream hands out without an error is derived from the tokens that are left. -/
theorem ofList_toList_eq_ok_iff {s : DeclarationStream} (hopen : s.finished = false)
    {ds : List Declaration} :
    Document.ofList s.toList = .ok ds ↔
      s.run.broken = none ∧ Roots s.left ds ∧ ∀ d ∈ ds, d.depth ≤ s.maxDepth := by
  induction hn : s.left.length using Nat.strongRecOn generalizing s ds with
  | ind n ih =>
    by_cases hleft : s.left = []
    · rw [ofList_toList_of_nil hopen hleft, hleft]
      constructor
      · rintro ⟨hbroken, rfl⟩
        exact ⟨hbroken, .nil, by simp⟩
      · rintro ⟨hbroken, hroots, -⟩
        exact ⟨hbroken, roots_nil hroots⟩
    · rw [roots_left_iff hleft]
      cases hread : s.readRoot with
      | error e =>
        rw [toList_of_error (next_of_error hopen hleft hread)]
        simp [Document.ofList]
      | ok answer =>
        obtain ⟨d, rest⟩ := answer
        have hrest (es : List Declaration) :=
          @ih rest.length (hn ▸ length_readRoot_lt hread) { s with left := rest } hopen es rfl
        rw [toList_of_ok (next_of_ok hopen hread), Document.ofList, map_eq_ok_iff]
        simp only [hrest, Except.ok.injEq, Prod.mk.injEq]
        constructor
        · rintro ⟨es, ⟨hbroken, hroots, hdepth⟩, rfl⟩
          exact ⟨hbroken, d, rest, es, ⟨rfl, rfl⟩, rfl, hroots, hdepth⟩
        · rintro ⟨hbroken, _, _, es, ⟨rfl, rfl⟩, rfl, hroots, hdepth⟩
          exact ⟨es, ⟨hbroken, hroots, hdepth⟩, rfl⟩

end DeclarationStream

/-! ## Sources -/

/-- The lexeme that a token is. -/
def Placed.asLexeme (t : Placed Token) : Placed Lexeme := ⟨.token t.value, t.span⟩

theorem ofLexemes_eq_iff {ls : List (Placed Lexeme)} (h : ∀ l ∈ ls, l.value.isSkipped = false)
    {ts : List (Placed Token)} :
    TokenRun.ofLexemes ls = ⟨ts, none⟩ ↔ ls = ts.map Placed.asLexeme := by
  constructor
  · intro hrun
    induction ls generalizing ts with
    | nil =>
      obtain rfl : [] = ts := by simpa [TokenRun.ofLexemes] using hrun
      rfl
    | cons l ls ih =>
      obtain ⟨lexeme, span⟩ := l
      have hl := h _ List.mem_cons_self
      cases lexeme with
      | token t =>
        obtain ⟨htokens, hbroken⟩ : _ = ts ∧ _ = none := by
          simpa [TokenRun.ofLexemes] using hrun
        rw [← htokens, List.map_cons, ← ih (fun l hl => h l (List.mem_cons_of_mem _ hl))
          (TokenRun.mk.injEq .. ▸ ⟨rfl, hbroken⟩)]
        rfl
      | unrecognized text => simp [TokenRun.ofLexemes] at hrun
      | blank text => simp [Lexeme.isSkipped] at hl
      | comment text => simp [Lexeme.isSkipped] at hl
  · rintro rfl
    clear h
    induction ts with
    | nil => rfl
    | cons t ts ih => simp [Placed.asLexeme, TokenRun.ofLexemes, ih]

theorem not_isSkipped_of_mem_lex {source : String} {l : Placed Lexeme} (h : l ∈ lex source) :
    l.value.isSkipped = false := by
  simpa using (List.mem_filter.mp h).2

theorem ofSource_eq_iff {source : String} {ts : List (Placed Token)} :
    TokenRun.ofSource source = ⟨ts, none⟩ ↔ lex source = ts.map Placed.asLexeme :=
  ofLexemes_eq_iff fun _ => not_isSkipped_of_mem_lex

/-- A document is read exactly when it is not too deep and the tokens derive it. -/
theorem parse_eq_ok_iff {source : String} {maxDepth : Nat} {doc : Document} :
    Document.parse source maxDepth = .ok doc ↔ ∃ ts, lex source = ts.map Placed.asLexeme ∧
      Roots ts doc.roots ∧ ∀ d ∈ doc.roots, d.depth ≤ maxDepth := by
  obtain ⟨ds⟩ := doc
  rw [Document.parse, map_eq_ok_iff]
  simp only [← ofSource_eq_iff, Document.mk.injEq, exists_eq_right]
  rw [DeclarationStream.ofList_toList_eq_ok_iff rfl]
  constructor
  · rintro ⟨hbroken, hroots, hdepth⟩
    exact ⟨_, TokenRun.mk.injEq .. ▸ ⟨rfl, hbroken⟩, hroots, hdepth⟩
  · rintro ⟨ts, hrun, hroots, hdepth⟩
    simp only [DeclarationStream.ofSource, hrun]
    exact ⟨trivial, hroots, hdepth⟩

/-- **A source is read exactly when its grammar derives it.** Without unrecognized text, the
tokens derive one document at most, the one that is read. Cutting the tokens into roots by
their braces, each to be derived by itself, comes to the same. -/
theorem parse_iff_grammar (source : String) (maxDepth : Nat) :
    (∀ doc, Document.parse source maxDepth = .ok doc ↔
      ∃ ts, lex source = ts.map Placed.asLexeme ∧ Roots ts doc.roots ∧
        ∀ d ∈ doc.roots, d.depth ≤ maxDepth) ∧
    (∀ doc, Document.parse source maxDepth = .ok doc ↔
      ∃ ts, lex source = ts.map Placed.asLexeme ∧
        List.Forall₂ Declares (cutRoots maxDepth ts) doc.roots ∧
        ∀ d ∈ doc.roots, d.depth ≤ maxDepth) ∧
    (∀ ts ds es, Roots ts ds → Roots ts es → ds = es) := by
  refine ⟨fun doc => parse_eq_ok_iff, fun doc => ?_, fun ts ds es => roots_unique⟩
  rw [parse_eq_ok_iff]
  constructor
  · rintro ⟨ts, hlex, hroots, hdepth⟩
    exact ⟨ts, hlex, (forall₂_cutRoots_iff hdepth).mpr hroots, hdepth⟩
  · rintro ⟨ts, hlex, hcut, hdepth⟩
    exact ⟨ts, hlex, (forall₂_cutRoots_iff hdepth).mp hcut, hdepth⟩

end UiMarkup
