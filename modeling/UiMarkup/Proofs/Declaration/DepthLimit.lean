import Mathlib
import UiMarkup.Proofs.Declaration.Places

/-!
# The limit on depth

A source is read under a limit exactly when it is read at all and no root goes
deeper. Under a limit that is too small the error stands at the brace of the
first declaration that is one level too deep, and the roots in front of it are
handed out as ever.
-/

namespace UiMarkup

open Grammar

/-! ## Levels of a tree -/

namespace Declaration

/-- The declarations that stand `n` levels below, in the order of the source. -/
def level : Nat → Declaration → List Declaration
  | 0, d => [d]
  | n + 1, d => d.children.flatMap (level n)

theorem depth_eq (d : Declaration) : d.depth = 1 + deepest d.children := by
  cases d
  rfl

theorem level_eq_nil_iff {n : Nat} {d : Declaration} : d.level n = [] ↔ d.depth ≤ n := by
  induction n generalizing d with
  | zero =>
    rw [level, depth_eq]
    simp
  | succ n ih =>
    rw [level, List.flatMap_eq_nil_iff, depth_eq]
    simp only [ih, ← deepest_le_iff]
    omega

theorem levels_eq_nil_iff {n : Nat} {ds : List Declaration} :
    ds.flatMap (level n) = [] ↔ deepest ds ≤ n := by
  rw [List.flatMap_eq_nil_iff, deepest_le_iff]
  simp only [level_eq_nil_iff]

/-- A level holds the declarations that so many steps down lead to. -/
theorem mem_level_iff {n : Nat} {d e : Declaration} :
    e ∈ d.level n ↔ ∃ path : List Nat, path.length = n ∧ d.descend? path = some e := by
  induction n generalizing d with
  | zero => simp [level, descend?, eq_comm]
  | succ n ih =>
    simp only [level, List.mem_flatMap, ih]
    constructor
    · rintro ⟨child, hchild, path, hlength, hpath⟩
      obtain ⟨i, hi⟩ := List.mem_iff_getElem?.mp hchild
      exact ⟨i :: path, by simpa using hlength, by rw [descend?, hi]; exact hpath⟩
    · rintro ⟨path, hlength, hpath⟩
      cases path with
      | nil => simp at hlength
      | cons i path =>
        rw [descend?] at hpath
        split at hpath
        · cases hpath
        next child hchild =>
          exact ⟨child, List.mem_of_getElem? hchild, path, by simpa using hlength, hpath⟩

theorem mem_levels_iff {n : Nat} {ds : List Declaration} {e : Declaration} :
    e ∈ ds.flatMap (level n) ↔
      ∃ path : List Nat, path.length = n + 1 ∧ Document.descend? ⟨ds⟩ path = some e := by
  simp only [List.mem_flatMap, mem_level_iff]
  constructor
  · rintro ⟨root, hroot, path, hlength, hpath⟩
    obtain ⟨i, hi⟩ := List.mem_iff_getElem?.mp hroot
    exact ⟨i :: path, by simpa using hlength, by rw [Document.descend?, hi]; exact hpath⟩
  · rintro ⟨path, hlength, hpath⟩
    cases path with
    | nil => simp at hlength
    | cons i path =>
      rw [Document.descend?] at hpath
      split at hpath
      · cases hpath
      next root hroot =>
        exact ⟨root, List.mem_of_getElem? hroot, path, by simpa using hlength, hpath⟩

mutual

theorem level_sublist : ∀ (n : Nat) (d : Declaration), (d.level n).Sublist d.preorder
  | 0, d => by
    cases d
    rw [level, preorder]
    exact List.singleton_sublist.mpr List.mem_cons_self
  | n + 1, d => by
    cases d
    rw [level, preorder]
    exact (levels_sublist n _).cons _

theorem levels_sublist : ∀ (n : Nat) (ds : List Declaration),
    (ds.flatMap (level n)).Sublist (preorderAll ds)
  | _, [] => .slnil
  | n, d :: ds => by
    rw [List.flatMap_cons, preorderAll]
    exact (level_sublist n d).append (levels_sublist n ds)

end

end Declaration

/-! ## The brace that goes too deep -/

namespace Grammar

open Declaration

/-- The brace that opens the body of a declaration, right behind its heading. -/
def OpenedBy (ts : List (Placed Token)) (d : Declaration) (brace : Placed Token) : Prop :=
  ∃ front hs back, ts = front ++ hs ++ brace :: back ∧ Heading hs d.kind d.styleClass ∧
    brace.value = .braceOpen

theorem OpenedBy.of_part {ts us : List (Placed Token)} {d : Declaration} {brace : Placed Token}
    (h : OpenedBy us d brace) (hus : us <:+: ts) : OpenedBy ts d brace := by
  obtain ⟨front, hs, back, rfl, hheading, hopen⟩ := h
  obtain ⟨before, after, rfl⟩ := hus
  exact ⟨before ++ front, hs, back ++ after, by simp, hheading, hopen⟩

mutual

/-- Counting stops at the first declaration that stands one level deeper than the limit. -/
theorem tooDeep_declares {ts : List (Placed Token)} {d : Declaration} :
    Declares ts d → ∀ {limit depth : Nat}, depth ≤ limit → limit < depth + d.depth →
      ∀ rest, ∃ e brace, (d.level (limit - depth)).head? = some e ∧ OpenedBy ts e brace ∧
        extent limit depth (ts ++ rest) = .tooDeep brace.span
  | @Declares.mk hs us open_ close _ _ _ children hheading hopen hbody _,
      limit, depth, hle, hdeep, rest => by
    have hdeep : limit < depth + (1 + deepest children) := hdeep
    rw [show hs ++ open_ :: us ++ [close] ++ rest = hs ++ open_ :: (us ++ close :: rest) by simp,
      extent_heading hheading hopen]
    by_cases hlt : depth < limit
    · obtain ⟨e, brace, hfirst, hopened, hextent⟩ :=
        tooDeep_body hbody (Nat.succ_pos depth) hlt (by omega) (close :: rest)
      refine ⟨e, brace, ?_, hopened.of_part (infix_braces _ _ _ _), ?_⟩
      · rwa [show limit - depth = limit - (depth + 1) + 1 by omega, level]
      · rwa [if_neg (by omega)]
    · obtain rfl : depth = limit := by omega
      refine ⟨_, open_, by rw [Nat.sub_self]; rfl, ?_, if_pos (Nat.le_refl _)⟩
      exact ⟨[], hs, us ++ [close], by simp, hheading, hopen⟩

theorem tooDeep_body {ts : List (Placed Token)} {as : List Assignment} {ds : List Declaration} :
    Body ts as ds → ∀ {limit depth : Nat}, 0 < depth → depth ≤ limit →
      limit < depth + deepest ds →
      ∀ rest, ∃ e brace, (ds.flatMap (level (limit - depth))).head? = some e ∧
        OpenedBy ts e brace ∧ extent limit depth (ts ++ rest) = .tooDeep brace.span
  | .empty, limit, depth, _, hle, hdeep, _ => by
    rw [deepest] at hdeep
    omega
  | @Body.assign ts us _ _ _ hbody _, limit, depth, hpos, hle, hdeep, rest => by
    obtain ⟨e, brace, hfirst, hopened, hextent⟩ := tooDeep_body hbody hpos hle hdeep (us ++ rest)
    rw [List.append_assoc]
    exact ⟨e, brace, hfirst, hopened.of_part List.infix_append_left, hextent⟩
  | @Body.child ts us _ ds d hbody hdeclares, limit, depth, hpos, hle, hdeep, rest => by
    rw [List.append_assoc, List.flatMap_append]
    by_cases hfront : limit < depth + deepest ds
    · obtain ⟨e, brace, hfirst, hopened, hextent⟩ :=
        tooDeep_body hbody hpos hle hfront (us ++ rest)
      refine ⟨e, brace, ?_, hopened.of_part List.infix_append_left, hextent⟩
      rw [List.head?_append, hfirst, Option.some_or]
    · -- Nothing in front is too deep, so counting comes to the child as it began.
      rw [deepest_append, deepest, deepest, Nat.max_zero] at hdeep
      obtain ⟨e, brace, hfirst, hopened, hextent⟩ :=
        tooDeep_declares hdeclares hle (by omega) rest
      refine ⟨e, brace, ?_, hopened.of_part List.infix_append_right, ?_⟩
      · rw [levels_eq_nil_iff.mpr (by omega), List.nil_append, List.flatMap_singleton, hfirst]
      · rw [(balanced_body hbody hpos hle (us ++ rest)).1 (by omega), hextent]

end

theorem start_le_of_holdsOrPrecedes {ts : List (Placed Token)} {d e : Declaration}
    (h : Declares ts d) (hts : InOrder ts) (horder : HoldsOrPrecedes d e) :
    d.span.start ≤ e.span.start := by
  rcases horder with hbelow | hbehind
  · refine (declaration_inside h hts ?_).1
    cases d
    exact List.mem_cons_of_mem _ hbelow
  · have hlt := (spans_declares h).start_lt_stop hts
    omega

/-- The first declaration of a level is the first of them in the source. -/
theorem start_le_of_head?_levels {ts : List (Placed Token)} {ds : List Declaration} {n : Nat}
    {d e : Declaration} (h : Roots ts ds) (hts : InOrder ts)
    (hd : (ds.flatMap (level n)).head? = some d) (he : e ∈ ds.flatMap (level n)) :
    d.span.start ≤ e.span.start := by
  have hbody := body_of_roots h
  have hsub := levels_sublist n ds
  have horder := (walk_body hbody hts).sublist hsub
  obtain ⟨us, hus, hdeclares⟩ := part_body hbody d (hsub.subset (List.mem_of_mem_head? hd))
  cases hlevel : ds.flatMap (level n) with
  | nil => simp [hlevel] at hd
  | cons first others =>
    rw [hlevel] at hd he horder
    obtain rfl : first = d := by simpa using hd
    rcases List.mem_cons.mp he with rfl | he
    · exact Nat.le_refl _
    · have hfirst := (List.pairwise_cons.mp horder).1 e he
      exact start_le_of_holdsOrPrecedes hdeclares (hts.sublist hus.sublist) hfirst

end Grammar

/-! ## Streams -/

namespace DeclarationStream

open Declaration

theorem toList_of_tooDeep {s : DeclarationStream} {ts : List (Placed Token)}
    {ds : List Declaration} {limit : Nat} (h : Roots ts ds) (hopen : s.finished = false)
    (hleft : s.left = ts) (hlimit : s.maxDepth = limit) (hdeep : limit < deepest ds) :
    ∃ before root after e brace, ds = before ++ root :: after ∧ deepest before ≤ limit ∧
      (root.level limit).head? = some e ∧ OpenedBy ts e brace ∧
      s.toList = before.map .ok ++ [.error ⟨brace.span, .tooDeep limit⟩] := by
  subst hlimit
  induction h generalizing s with
  | nil => simp [deepest] at hdeep
  | @cons us vs d ds hdeclares hroots ih =>
    by_cases hd : d.depth ≤ s.maxDepth
    · have hread : s.readRoot = .ok (d, vs) := readRoot_eq_ok_iff.mpr ⟨us, hleft, hdeclares, hd⟩
      have hlater : s.maxDepth < deepest ds := by
        rw [deepest] at hdeep
        omega
      obtain ⟨before, root, after, e, brace, rfl, hbefore, hfirst, hopened, hlist⟩ :=
        @ih { s with left := vs } hopen rfl hlater
      refine ⟨d :: before, root, after, e, brace, rfl, ?_, hfirst,
        hopened.of_part List.infix_append_right, ?_⟩
      · rw [deepest]
        exact Nat.max_le.mpr ⟨hd, hbefore⟩
      · rw [toList_of_ok (next_of_ok hopen hread), hlist]
        rfl
    · obtain ⟨e, brace, hfirst, hopened, hextent⟩ :=
        tooDeep_declares hdeclares (Nat.zero_le s.maxDepth) (by omega) vs
      have hread : s.readRoot = .error ⟨brace.span, .tooDeep s.maxDepth⟩ := by
        rw [readRoot, hleft, hextent]
      have hsome : s.left ≠ [] := by
        obtain ⟨front, hs, back, hus, -⟩ := hopened
        simp [hleft, hus]
      refine ⟨[], d, ds, e, brace, rfl, Nat.zero_le _, hfirst,
        hopened.of_part List.infix_append_left, ?_⟩
      exact toList_of_error (next_of_error hopen hsome hread)

end DeclarationStream

theorem Document.ofList_append_error (ds : List Declaration) (e : ParseError) :
    ofList (ds.map .ok ++ [.error e]) = .error e := by
  induction ds with
  | nil => rfl
  | cons d ds ih => exact map_eq_error_iff.mpr ih

/-! ## Sources -/

/-- **A limit on depth only refuses.** What is read under it is what is read under a larger one,
if no root goes deeper. If one does, the first declaration that stands too deep is refused at
its brace, behind the roots in front of its own. -/
theorem parse_under_limit (source : String) {limit larger : Nat} (hle : limit ≤ larger) :
    (∀ doc, Document.parse source limit = .ok doc ↔
      Document.parse source larger = .ok doc ∧ ∀ root ∈ doc.roots, root.depth ≤ limit) ∧
    ∀ doc, Document.parse source larger = .ok doc →
      (∃ path d, doc.descend? path = some d ∧ limit < path.length) →
      ∃ before root after path first brace, ∃ e : ParseError,
        doc.roots = before ++ root :: after ∧
        root.descend? path = some first ∧ path.length = limit ∧
        (∀ other d, doc.descend? other = some d → other.length = limit + 1 →
          first.span.start ≤ d.span.start) ∧
        OpenedBy (TokenRun.ofSource source).tokens first brace ∧
        e.span = brace.span ∧
        e.message = "Declarations nested deeper than the maximum of " ++ toString limit ∧
        Document.parse source limit = .error e ∧
        (DeclarationStream.ofSource source limit).toList = before.map .ok ++ [.error e] := by
  constructor
  · intro doc
    rw [parse_eq_ok_iff, parse_eq_ok_iff]
    constructor
    · rintro ⟨ts, hlex, hroots, hdepth⟩
      exact ⟨⟨ts, hlex, hroots, fun d hd => Nat.le_trans (hdepth d hd) hle⟩, hdepth⟩
    · rintro ⟨⟨ts, hlex, hroots, -⟩, hdepth⟩
      exact ⟨ts, hlex, hroots, hdepth⟩
  · rintro doc hparse ⟨path, d, hpath, hdeep⟩
    obtain ⟨ts, hlex, hroots, -⟩ := parse_eq_ok_iff.mp hparse
    have hrun : (TokenRun.ofSource source).tokens = ts := by rw [ofSource_eq_iff.mpr hlex]
    have hts := TokenRun.inOrder_of_lex hlex
    -- A path that is too long leads to a level that is not empty.
    have hlimit : limit < Declaration.deepest doc.roots := by
      have hd := Declaration.mem_levels_iff.mpr ⟨path, (Nat.sub_add_cancel (by omega)).symm, hpath⟩
      by_contra hle
      rw [Declaration.levels_eq_nil_iff.mpr (by omega)] at hd
      simp at hd
    have hmax : (DeclarationStream.ofSource source limit).maxDepth = limit := rfl
    obtain ⟨before, root, after, first, brace, hdoc, hbefore, hfirst, hopened, hlist⟩ :=
      DeclarationStream.toList_of_tooDeep hroots rfl hrun hmax hlimit
    have hmem : first ∈ root.level limit := List.mem_of_mem_head? hfirst
    have hhead : (doc.roots.flatMap (Declaration.level limit)).head? = some first := by
      rw [hdoc, List.flatMap_append, Declaration.levels_eq_nil_iff.mpr hbefore, List.nil_append,
        List.flatMap_cons, List.head?_append, hfirst, Option.some_or]
    obtain ⟨steps, hsteps, hdescend⟩ := Declaration.mem_level_iff.mp hmem
    refine ⟨before, root, after, steps, first, brace, ⟨brace.span, .tooDeep limit⟩, hdoc, hdescend,
      hsteps, ?_, hrun ▸ hopened, rfl, rfl, ?_, hlist⟩
    · intro other d hother hlength
      have hd := Declaration.mem_levels_iff.mpr ⟨other, hlength, hother⟩
      exact start_le_of_head?_levels hroots hts hhead hd
    · rw [Document.parse, hlist, map_eq_error_iff]
      exact Document.ofList_append_error before _

/-- Under the limit 1 the second root is refused at its first child, behind an assignment. -/
theorem parse_under_limit_one :
    let source := "a \x7b\x7d b \x7b x: 1; c \x7b d \x7b\x7d \x7d e \x7b\x7d \x7d"
    let a : Declaration := ⟨⟨"a", ⟨0, 1⟩⟩, none, [], [], ⟨0, 4⟩⟩
    let x : Assignment := ⟨⟨"x", ⟨9, 10⟩⟩, ⟨"1", ⟨12, 13⟩⟩, ⟨9, 14⟩⟩
    let d : Declaration := ⟨⟨"d", ⟨19, 20⟩⟩, none, [], [], ⟨19, 23⟩⟩
    let c : Declaration := ⟨⟨"c", ⟨15, 16⟩⟩, none, [], [d], ⟨15, 25⟩⟩
    let e : Declaration := ⟨⟨"e", ⟨26, 27⟩⟩, none, [], [], ⟨26, 30⟩⟩
    let b : Declaration := ⟨⟨"b", ⟨5, 6⟩⟩, none, [x], [c, e], ⟨5, 32⟩⟩
    1 ≤ 3 ∧ Document.parse source 3 = .ok ⟨[a, b]⟩ ∧
      Document.descend? ⟨[a, b]⟩ [1, 0] = some c ∧
      ∃ refused : ParseError,
        refused.message = "Declarations nested deeper than the maximum of 1" ∧
        Document.parse source 1 = .error refused := by
  intro source a x d c e b
  have hle : 1 ≤ 3 := by decide
  have hparse : Document.parse source 3 = .ok ⟨[a, b]⟩ := by cbv
  have hdeep : Document.descend? ⟨[a, b]⟩ [1, 0] = some c := rfl
  obtain ⟨-, -, -, -, -, -, refused, -, -, -, -, -, -, hmessage, hrefused, -⟩ :=
    (parse_under_limit source hle).2 ⟨[a, b]⟩ hparse ⟨[1, 0], c, hdeep, by decide⟩
  exact ⟨hle, hparse, hdeep, refused, hmessage, hrefused⟩

end UiMarkup
