import UiMarkup.Proofs.Declaration.DepthLimit

/-!
# Streams are cursors

A declaration stream is a place in a list that never changes: the roots of its
source, and behind them the error if there is one. Whatever is done to a stream
and its copies, in whatever order, nobody can tell them from such places.
-/

namespace UiMarkup

/-! ## Families of iterators -/

/-- What can be done to an iterator. Counting tells how many items of each of
two kinds are left, and uses them up. -/
structure Iter (σ α : Type) where
  next : σ → Option α × σ
  restart : σ → σ
  count : σ → (Nat × Nat) × σ

/-- A step with the iterator at an index of a family. -/
inductive Act
  | next (i : Nat)
  | restart (i : Nat)
  /-- The copy joins the family at its end. -/
  | clone (i : Nat)
  | count (i : Nat)
deriving DecidableEq, Repr

inductive Reply (α : Type)
  | item (item : Option α)
  | restarted
  | cloned (index : Nat)
  | counted (count : Nat × Nat)
  /-- The family has no iterator at the index. -/
  | absent

namespace Iter

variable {σ τ α : Type}

def act (m : Iter σ α) (family : List σ) : Act → Reply α × List σ
  | .next i =>
    match family[i]? with
    | some s => (.item (m.next s).1, family.set i (m.next s).2)
    | none => (.absent, family)
  | .restart i =>
    match family[i]? with
    | some s => (.restarted, family.set i (m.restart s))
    | none => (.absent, family)
  | .clone i =>
    match family[i]? with
    | some s => (.cloned family.length, family ++ [s])
    | none => (.absent, family)
  | .count i =>
    match family[i]? with
    | some s => (.counted (m.count s).1, family.set i (m.count s).2)
    | none => (.absent, family)

/-- The replies to a list of steps, and the family behind them. -/
def run (m : Iter σ α) (family : List σ) : List Act → List (Reply α) × List σ
  | [] => ([], family)
  | a :: as =>
    let (reply, family) := m.act family a
    let (replies, family) := m.run family as
    (reply :: replies, family)

/-- Related iterators answer alike and stay related. -/
structure Simulates (R : σ → τ → Prop) (m : Iter σ α) (n : Iter τ α) : Prop where
  next : ∀ {s t}, R s t → (m.next s).1 = (n.next t).1 ∧ R (m.next s).2 (n.next t).2
  restart : ∀ {s t}, R s t → R (m.restart s) (n.restart t)
  count : ∀ {s t}, R s t → (m.count s).1 = (n.count t).1 ∧ R (m.count s).2 (n.count t).2

theorem forall₂_getElem? {R : σ → τ → Prop} {ss : List σ} {ts : List τ}
    (h : List.Forall₂ R ss ts) (i : Nat) :
    (ss[i]? = none ∧ ts[i]? = none) ∨ ∃ s t, ss[i]? = some s ∧ ts[i]? = some t ∧ R s t := by
  induction h generalizing i with
  | nil => exact .inl ⟨rfl, rfl⟩
  | cons hR _ ih =>
    cases i with
    | zero => exact .inr ⟨_, _, rfl, rfl, hR⟩
    | succ i => exact ih i

theorem forall₂_set {R : σ → τ → Prop} {ss : List σ} {ts : List τ} (h : List.Forall₂ R ss ts)
    {s : σ} {t : τ} (hR : R s t) (i : Nat) : List.Forall₂ R (ss.set i s) (ts.set i t) := by
  induction h generalizing i with
  | nil => exact .nil
  | cons hfirst hrest ih =>
    cases i with
    | zero => exact .cons hR hrest
    | succ i => exact .cons hfirst (ih i)

variable {R : σ → τ → Prop} {m : Iter σ α} {n : Iter τ α} {ss : List σ} {ts : List τ}

theorem Simulates.act (h : Simulates R m n) (hR : List.Forall₂ R ss ts) (a : Act) :
    (m.act ss a).1 = (n.act ts a).1 ∧ List.Forall₂ R (m.act ss a).2 (n.act ts a).2 := by
  cases a with
  | next i =>
    rcases forall₂_getElem? hR i with ⟨hs, ht⟩ | ⟨s, t, hs, ht, hst⟩
    · simpa [Iter.act, hs, ht] using hR
    · obtain ⟨hitem, hnext⟩ := h.next hst
      simpa [Iter.act, hs, ht, hitem] using forall₂_set hR hnext i
  | restart i =>
    rcases forall₂_getElem? hR i with ⟨hs, ht⟩ | ⟨s, t, hs, ht, hst⟩
    · simpa [Iter.act, hs, ht] using hR
    · simpa [Iter.act, hs, ht] using forall₂_set hR (h.restart hst) i
  | clone i =>
    rcases forall₂_getElem? hR i with ⟨hs, ht⟩ | ⟨s, t, hs, ht, hst⟩
    · simpa [Iter.act, hs, ht] using hR
    · have happend := List.rel_append hR (List.Forall₂.cons hst .nil)
      simpa [Iter.act, hs, ht, hR.length_eq] using happend
  | count i =>
    rcases forall₂_getElem? hR i with ⟨hs, ht⟩ | ⟨s, t, hs, ht, hst⟩
    · simpa [Iter.act, hs, ht] using hR
    · obtain ⟨hcount, hrest⟩ := h.count hst
      simpa [Iter.act, hs, ht, hcount] using forall₂_set hR hrest i

theorem Simulates.run (h : Simulates R m n) (hR : List.Forall₂ R ss ts) (acts : List Act) :
    (m.run ss acts).1 = (n.run ts acts).1 ∧ List.Forall₂ R (m.run ss acts).2 (n.run ts acts).2 := by
  induction acts generalizing ss ts with
  | nil => exact ⟨rfl, hR⟩
  | cons a acts ih =>
    obtain ⟨hreply, hfamily⟩ := h.act hR a
    obtain ⟨hreplies, hfamilies⟩ := ih hfamily
    exact ⟨congrArg₂ List.cons hreply hreplies, hfamilies⟩

end Iter

/-! ## Two kinds of iterators -/

/-- How many declarations and how many errors there are. -/
def counts (items : List (Except ParseError Declaration)) : Nat × Nat :=
  (items.countP (·.isOk), items.countP (!·.isOk))

def DeclarationStream.iter : Iter DeclarationStream (Except ParseError Declaration) where
  next := next
  restart := restart
  count s := (counts s.toList, s.drained)

/-- A place in a list of items, counted from its start. -/
def cursor (items : List (Except ParseError Declaration)) :
    Iter Nat (Except ParseError Declaration) where
  next n := (items[n]?, n + 1)
  restart _ := 0
  count n := (counts (items.drop n), items.length)

namespace DeclarationStream

/-! ## What a stream still hands out -/

theorem toList_of_finished {s : DeclarationStream} (h : s.finished = true) : s.toList = [] :=
  @toList_of_none s s (by simp [next, h])

/-- Behind an error and at the end the stream is finished. -/
theorem finished_next {s : DeclarationStream} (h : ∀ d, s.next.1 ≠ some (.ok d)) :
    s.next.2.finished = true := by
  unfold next at h ⊢
  split
  · next hfinished => exact hfinished
  · split
    · rfl
    · split
      next hread => simp_all
      next => rfl

theorem next_toList (s : DeclarationStream) :
    s.next.1 = s.toList.head? ∧ s.next.2.toList = s.toList.tail := by
  have hfinished := @finished_next s
  cases hnext : s.next with
  | mk item s' =>
    rw [hnext] at hfinished
    match item with
    | some (.ok d) => simp [toList_of_ok hnext]
    | some (.error e) => simp [toList_of_error hnext, toList_of_finished (hfinished (by simp))]
    | none => simp [toList_of_none hnext, toList_of_finished (hfinished (by simp))]

/-- Roots, and at most one error behind them. -/
theorem toList_shape (s : DeclarationStream) : ∃ (roots : List Declaration)
    (error : Option ParseError), s.toList = roots.map .ok ++ (error.map .error).toList := by
  induction hn : s.left.length using Nat.strongRecOn generalizing s with
  | ind n ih =>
    cases hnext : s.next with
    | mk item s' =>
      match item with
      | some (.ok d) =>
        obtain ⟨roots, error, hlist⟩ := ih _ (hn ▸ length_next_lt hnext) s' rfl
        exact ⟨d :: roots, error, by simp [toList_of_ok hnext, hlist]⟩
      | some (.error e) => exact ⟨[], some e, toList_of_error hnext⟩
      | none => exact ⟨[], none, toList_of_none hnext⟩

/-! ## Where a stream stands -/

theorem restart_next (s : DeclarationStream) : s.next.2.restart = s.restart := by
  unfold next
  split
  · rfl
  · split
    · rfl
    · split <;> rfl

theorem left_next (s : DeclarationStream) : s.next.2.left <:+ s.left := by
  unfold next
  split
  · exact List.suffix_rfl
  · split
    · exact List.suffix_rfl
    · split
      next d rest hread =>
        obtain ⟨ts, hleft, -, -⟩ := readRoot_eq_ok_iff.mp hread
        exact ⟨ts, hleft.symm⟩
      next => exact List.suffix_rfl

/-- The stream of a source, at one of the items that a fresh one hands out. -/
structure At (source : String) (maxDepth : Nat) (s : DeclarationStream) (n : Nat) : Prop where
  fixed : s.restart = ofSource source maxDepth
  left : s.left <:+ (TokenRun.ofSource source).tokens
  rest : s.toList = (ofSource source maxDepth).toList.drop n

variable {source : String} {maxDepth : Nat} {s : DeclarationStream}

theorem at_zero : At source maxDepth (ofSource source maxDepth) 0 :=
  ⟨rfl, List.suffix_rfl, List.drop_zero.symm⟩

theorem simulates_cursor (source : String) (maxDepth : Nat) :
    Iter.Simulates (At source maxDepth) iter (cursor (ofSource source maxDepth).toList) where
  next := by
    rintro s n ⟨hfixed, hleft, hrest⟩
    obtain ⟨hitem, hbehind⟩ := next_toList s
    rw [hrest] at hitem hbehind
    have hmoved : At source maxDepth s.next.2 (n + 1) :=
      ⟨(restart_next s).trans hfixed, (left_next s).trans hleft, hbehind.trans List.tail_drop⟩
    exact ⟨hitem.trans List.head?_drop, hmoved⟩
  restart := by
    rintro s n ⟨hfixed, -, -⟩
    show At source maxDepth s.restart 0
    rw [hfixed]
    exact at_zero
  count := by
    rintro s n ⟨hfixed, hleft, hrest⟩
    refine ⟨congrArg counts hrest, hfixed, List.nil_suffix, ?_⟩
    exact (toList_of_finished rfl).trans List.drop_length.symm

/-- The tokens between the cursor and the end that the braces tell are a slice. If the next
declaration is handed out, it is derived from that slice, and the cursor moves to its end. -/
def Advances (tokens : List (Placed Token)) (s : DeclarationStream) : Prop :=
  ∃ cursor ≤ tokens.length, s.left = tokens.drop cursor ∧
    (s.left ≠ [] → ∃ stop, cursor < stop ∧ stop ≤ tokens.length ∧
      Declaration.cutRoot s.maxDepth s.left = (tokens.extract cursor stop, tokens.drop stop) ∧
      ∀ d s', s.next = (some (.ok d), s') →
        s'.left = tokens.drop stop ∧ Grammar.Declares (tokens.extract cursor stop) d)

theorem cutRoot_of_next {s' : DeclarationStream} {d : Declaration}
    (h : s.next = (some (.ok d), s')) :
    ∃ ts, Grammar.Declares ts d ∧ Declaration.cutRoot s.maxDepth s.left = (ts, s'.left) := by
  unfold next at h
  split at h
  · simp at h
  · split at h
    · cases hbroken : s.run.broken <;> simp [hbroken] at h
    · split at h
      next hread =>
        obtain ⟨rfl, rfl⟩ := by simpa using h
        obtain ⟨ts, hleft, hdeclares, hle⟩ := readRoot_eq_ok_iff.mp hread
        rw [hleft]
        exact ⟨ts, hdeclares, Declaration.cutRoot_of_declares hdeclares hle _⟩
      next => simp at h

theorem advances_of_suffix {tokens : List (Placed Token)} (h : s.left <:+ tokens) :
    s.Advances tokens := by
  obtain ⟨front, rfl⟩ := h
  refine ⟨front.length, by simp, by simp, fun hleft => ?_⟩
  have hcut := Declaration.cutRoot_append s.maxDepth s.left
  have hlt : (Declaration.cutRoot s.maxDepth s.left).2.length < s.left.length := by
    obtain ⟨t, ts, hts⟩ := List.exists_cons_of_ne_nil hleft
    rw [hts]
    exact Declaration.length_cutRoot_lt s.maxDepth t ts
  have hnext := @cutRoot_of_next s
  generalize Declaration.cutRoot s.maxDepth s.left = cut at hcut hlt hnext ⊢
  obtain ⟨root, back⟩ := cut
  rw [← hcut] at hlt ⊢
  have hroot :
      (front ++ (root ++ back)).extract front.length (front.length + root.length) = root := by
    simp [List.extract]
  have hback : (front ++ (root ++ back)).drop (front.length + root.length) = back := by
    rw [← List.append_assoc, ← List.length_append, List.drop_left]
  simp only [List.length_append] at hlt
  refine ⟨front.length + root.length, by omega, by simp, by rw [hroot, hback], ?_⟩
  intro d s' h
  obtain ⟨ts, hdeclares, hts⟩ := hnext h
  obtain ⟨rfl, rfl⟩ := Prod.mk.inj hts
  exact ⟨hback.symm, hroot.symm ▸ hdeclares⟩

end DeclarationStream

theorem Document.ofList_shape (roots : List Declaration) (error : Option ParseError) :
    ofList (roots.map .ok ++ (error.map .error).toList) = error.elim (.ok roots) .error := by
  cases error with
  | some e => exact ofList_append_error roots e
  | none =>
    induction roots with
    | nil => rfl
    | cons d roots ih =>
      rw [List.map_cons, List.cons_append, ofList, ih]
      rfl

/-- **A stream is a cursor.** One list of roots and at most one error behind them answers every
run of steps on the stream of a source and its copies. It is the document if it has no error. -/
theorem stream_is_cursor (source : String) (maxDepth : Nat) :
    ∃ (roots : List Declaration) (error : Option ParseError),
      (∀ acts, (DeclarationStream.iter.run [.ofSource source maxDepth] acts).1 =
        ((cursor (roots.map .ok ++ (error.map .error).toList)).run [0] acts).1) ∧
      Document.parse source maxDepth = error.elim (.ok ⟨roots⟩) .error ∧
      ∀ acts, ∀ s ∈ (DeclarationStream.iter.run [.ofSource source maxDepth] acts).2,
        s.Advances (TokenRun.ofSource source).tokens := by
  obtain ⟨roots, error, hlist⟩ := (DeclarationStream.ofSource source maxDepth).toList_shape
  have hsimulates := DeclarationStream.simulates_cursor source maxDepth
  have hstart :
      List.Forall₂ (DeclarationStream.At source maxDepth) [.ofSource source maxDepth] [0] :=
    .cons DeclarationStream.at_zero .nil
  refine ⟨roots, error, fun acts => ?_, ?_, fun acts s hs => ?_⟩
  · rw [← hlist]
    exact (hsimulates.run hstart acts).1
  · rw [Document.parse, hlist, Document.ofList_shape]
    cases error <;> rfl
  · obtain ⟨i, hi⟩ := List.mem_iff_getElem?.mp hs
    rcases Iter.forall₂_getElem? (hsimulates.run hstart acts).2 i with
      ⟨hnone, -⟩ | ⟨_, n, hsome, -, hat⟩
    · simp [hnone] at hi
    · obtain rfl : _ = s := Option.some.inj (hsome.symm.trans hi)
      exact DeclarationStream.advances_of_suffix hat.left

end UiMarkup
