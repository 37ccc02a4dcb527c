import UiMarkup.Proofs.Declaration.Relocation
import UiMarkup.Proofs.Token.Joining

/-!
# Documents put behind one another

A source that is read to its end leaves nothing open. What stands on the lines
behind it is read as it is by itself, at its later place.
-/

namespace UiMarkup

open Grammar Declaration

/-! ## Runs of tokens -/

namespace TokenRun

theorem ofLexemes_append (ts : List (Placed Token)) (ls : List (Placed Lexeme)) :
    ofLexemes (ts.map Placed.asLexeme ++ ls) =
      ⟨ts ++ (ofLexemes ls).tokens, (ofLexemes ls).broken⟩ := by
  induction ts with
  | nil => rfl
  | cons t ts ih =>
    rw [List.map_cons, List.cons_append, Placed.asLexeme, ofLexemes, ih]
    rfl

theorem ofLexemes_placed (m : Relocation) (ls : List (Placed Lexeme)) :
    ofLexemes (ls.map m.placed) =
      ⟨(ofLexemes ls).tokens.map m.placed, (ofLexemes ls).broken.map m.placed⟩ := by
  fun_induction ofLexemes ls with
  | case1 | case3 => rfl
  | case2 t span ls ih =>
    rw [List.map_cons, Relocation.placed, ofLexemes, ih]
    rfl
  | case4 text span ls ih | case5 text span ls ih =>
    rw [List.map_cons, Relocation.placed, ofLexemes, ih]

end TokenRun

theorem isRecognized_of_tokens {source : String} {ts : List (Placed Token)}
    (h : lex source = ts.map Placed.asLexeme) : ∀ l ∈ lexemes source.toList, l.IsRecognized := by
  refine isRecognized_of_lex fun p hp => ?_
  obtain ⟨t, -, rfl⟩ := List.mem_map.mp (h ▸ hp)
  exact nofun

/-! ## Streams -/

namespace DeclarationStream

theorem toList_of_roots {s : DeclarationStream} {ts rest : List (Placed Token)}
    {ds : List Declaration} (h : Roots ts ds) (hopen : s.finished = false)
    (hleft : s.left = ts ++ rest) (hdepth : ∀ d ∈ ds, d.depth ≤ s.maxDepth) :
    s.toList = ds.map .ok ++ { s with left := rest }.toList := by
  induction h generalizing s with
  | nil =>
    rw [List.nil_append] at hleft
    rw [← hleft]
    rfl
  | @cons ts us d ds hdeclares _ ih =>
    obtain ⟨hd, hds⟩ := List.forall_mem_cons.mp hdepth
    rw [List.append_assoc] at hleft
    have hread := readRoot_eq_ok_iff.mpr ⟨ts, hleft, hdeclares, hd⟩
    have hrest := @ih { s with left := us ++ rest } hopen rfl hds
    rw [toList_of_ok (next_of_ok hopen hread), hrest]
    rfl

end DeclarationStream

theorem Document.ofList_eq_ok_iff {items : List (Except ParseError Declaration)}
    {ds : List Declaration} : ofList items = .ok ds ↔ items = ds.map .ok := by
  induction items generalizing ds with
  | nil => simp [ofList, eq_comm]
  | cons item items ih =>
    cases item with
    | error e => cases ds <;> simp [ofList]
    | ok d =>
      rw [ofList, map_eq_ok_iff]
      cases ds <;> simp [ih, and_comm]

theorem Document.parse_eq_ok_iff_toList {source : String} {maxDepth : Nat} {doc : Document} :
    parse source maxDepth = .ok doc ↔
      (DeclarationStream.ofSource source maxDepth).toList = doc.roots.map .ok := by
  obtain ⟨ds⟩ := doc
  rw [parse, map_eq_ok_iff, ← ofList_eq_ok_iff]
  simp

/-! ## Sources -/

/-- The way to the place of what stands behind a source and a newline. -/
def Relocation.behind (source : String) : Relocation := .shift (byteLength source.toList + 1)

/-- Reading two sources, one line behind the other, hands out what reading each hands out. -/
theorem toList_joined {a : String} {maxDepth : Nat} {doc : Document}
    (h : Document.parse a maxDepth = .ok doc) (b : String) :
    (DeclarationStream.ofSource (a ++ "\n" ++ b) maxDepth).toList =
      doc.roots.map .ok ++
        (DeclarationStream.ofSource b maxDepth).toList.map (Relocation.behind a).answer := by
  obtain ⟨ts, hlex, hroots, hdepth⟩ := parse_eq_ok_iff.mp h
  have hrun : TokenRun.ofSource (a ++ "\n" ++ b) =
      ⟨ts ++ (TokenRun.ofSource b).tokens.map (Relocation.behind a).placed,
        (TokenRun.ofSource b).broken.map (Relocation.behind a).placed⟩ := by
    rw [TokenRun.ofSource, lex_newline b (isRecognized_of_tokens hlex), hlex,
      TokenRun.ofLexemes_append, TokenRun.ofLexemes_placed]
    rfl
  have hleft : (DeclarationStream.ofSource (a ++ "\n" ++ b) maxDepth).left =
      ts ++ (TokenRun.ofSource b).tokens.map (Relocation.behind a).placed :=
    congrArg TokenRun.tokens hrun
  rw [DeclarationStream.toList_of_roots hroots rfl hleft hdepth]
  congr 1
  refine DeclarationStream.toList_of_movedBy ⟨?_, ?_, rfl, rfl, rfl⟩
  · simp only [DeclarationStream.ofSource, String.toList_append, byteLength_append]
    show byteLength a.toList + 1 + byteLength b.toList =
      byteLength b.toList + (byteLength a.toList + 1)
    omega
  · exact congrArg TokenRun.broken hrun

end UiMarkup
