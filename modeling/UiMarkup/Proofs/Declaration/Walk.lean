import UiMarkup.Check.Assignment

/-!
# Walking over declarations

The walk over a tree meets every declaration once, a declaration in front of
those below it, and earlier children in front of later ones. A path says which
one is meant, and the walk goes in the order of the paths.
-/

namespace UiMarkup.Declaration

mutual

/-- The walk, with the path to each declaration. -/
def walk : Declaration → List (List Nat × Declaration)
  | ⟨kind, styleClass, assignments, children, span⟩ =>
    ([], ⟨kind, styleClass, assignments, children, span⟩) :: walkAll 0 children

/-- The walk over declarations that are numbered from `n` on. -/
def walkAll (n : Nat) : List Declaration → List (List Nat × Declaration)
  | [] => []
  | d :: ds => d.walk.map (fun met => (n :: met.1, met.2)) ++ walkAll (n + 1) ds

end

/-! ## What is met -/

mutual

theorem map_snd_walk : ∀ d : Declaration, d.walk.map Prod.snd = d.preorder
  | ⟨kind, styleClass, assignments, children, span⟩ => by
    rw [walk, preorder, List.map_cons, map_snd_walkAll 0 children]

theorem map_snd_walkAll :
    ∀ (n : Nat) (ds : List Declaration), (walkAll n ds).map Prod.snd = preorderAll ds
  | _, [] => rfl
  | n, d :: ds => by
    rw [walkAll, preorderAll, List.map_append, List.map_map, map_snd_walkAll (n + 1) ds,
      ← map_snd_walk d]
    rfl

end

theorem descend?_cons (d : Declaration) (n : Nat) (path : List Nat) :
    d.descend? (n :: path) = Document.descend? ⟨d.children⟩ (n :: path) := by
  rw [descend?, Document.descend?]

theorem exists_rest_iff {ds : List Declaration} {path : List Nat} {e : Declaration} :
    (∃ m rest, path = (0 + m) :: rest ∧ Document.descend? ⟨ds⟩ (m :: rest) = some e) ↔
      Document.descend? ⟨ds⟩ path = some e := by
  constructor
  · rintro ⟨m, rest, rfl, h⟩
    rwa [Nat.zero_add]
  · intro h
    cases path with
    | nil => simp [Document.descend?] at h
    | cons n path => exact ⟨n, path, by rw [Nat.zero_add], h⟩

mutual

theorem mem_walk : ∀ (d : Declaration) (path : List Nat) (e : Declaration),
    (path, e) ∈ d.walk ↔ d.descend? path = some e
  | ⟨kind, styleClass, assignments, children, span⟩, path, e => by
    rw [walk, List.mem_cons, mem_walkAll 0 children, exists_rest_iff]
    cases path with
    | nil => simp [descend?, Document.descend?, eq_comm]
    | cons n path => simp [descend?_cons]

/-- Paths of a list begin with a number of one of its declarations. -/
theorem mem_walkAll : ∀ (n : Nat) (ds : List Declaration) (path : List Nat) (e : Declaration),
    (path, e) ∈ walkAll n ds ↔
      ∃ m rest, path = (n + m) :: rest ∧ Document.descend? ⟨ds⟩ (m :: rest) = some e
  | n, [], path, e => by simp [walkAll, Document.descend?]
  | n, d :: ds, path, e => by
    rw [walkAll, List.mem_append, mem_walkAll (n + 1) ds]
    constructor
    · rintro (h | ⟨m, rest, rfl, h⟩)
      · obtain ⟨⟨rest, e'⟩, hmet, heq⟩ := List.mem_map.mp h
        obtain ⟨rfl, rfl⟩ := Prod.mk.inj heq
        exact ⟨0, rest, rfl, (mem_walk d rest e').mp hmet⟩
      · exact ⟨m + 1, rest, by rw [Nat.add_assoc, Nat.add_comm 1 m], h⟩
    · rintro ⟨m, rest, rfl, h⟩
      cases m with
      | zero => exact .inl (List.mem_map.mpr ⟨(rest, e), (mem_walk d rest e).mpr h, rfl⟩)
      | succ m => exact .inr ⟨m, rest, by rw [Nat.add_assoc, Nat.add_comm 1 m], h⟩

end

theorem mem_walkAll_zero (ds : List Declaration) (path : List Nat) (e : Declaration) :
    (path, e) ∈ walkAll 0 ds ↔ Document.descend? ⟨ds⟩ path = some e :=
  (mem_walkAll 0 ds path e).trans exists_rest_iff

/-! ## The order of the walk -/

mutual

theorem pairwise_walk : ∀ d : Declaration, d.walk.Pairwise fun met next => met.1 < next.1
  | ⟨kind, styleClass, assignments, children, span⟩ => by
    rw [walk, List.pairwise_cons]
    refine ⟨?_, pairwise_walkAll 0 children⟩
    rintro ⟨path, e⟩ hmem
    obtain ⟨m, rest, rfl, -⟩ := (mem_walkAll 0 children path e).mp hmem
    exact List.nil_lt_cons _ _

theorem pairwise_walkAll :
    ∀ (n : Nat) (ds : List Declaration), (walkAll n ds).Pairwise fun met next => met.1 < next.1
  | _, [] => .nil
  | n, d :: ds => by
    rw [walkAll, List.pairwise_append]
    refine ⟨?_, pairwise_walkAll (n + 1) ds, ?_⟩
    · rw [List.pairwise_map]
      refine (pairwise_walk d).imp ?_
      intro met next hlt
      exact List.cons_lt_cons_iff.mpr (.inr ⟨rfl, hlt⟩)
    · intro met hmet next hnext
      obtain ⟨inner, -, rfl⟩ := List.mem_map.mp hmet
      obtain ⟨m, rest, hpath, -⟩ := (mem_walkAll (n + 1) ds next.1 next.2).mp hnext
      rw [hpath]
      exact List.cons_lt_cons_iff.mpr (.inl (by omega))

end

end UiMarkup.Declaration
