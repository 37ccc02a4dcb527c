import UiMarkup.Schema.Attribute
import UiMarkup.NameMap

/-!
# What maps from names hold

A map answers for a name with the one entry that it has. Entries that are put
in win over older ones, the last of them first.
-/

namespace UiMarkup.NameMap

variable {α : Type}

theorem lookup_of_mem {name : String} {value : α} {entries : List (String × α)}
    (hnodup : (entries.map Prod.fst).Nodup) (hmem : (name, value) ∈ entries) :
    entries.lookup name = some value := by
  induction entries with
  | nil => simp at hmem
  | cons entry rest ih =>
    obtain ⟨hfirst, hrest⟩ := List.nodup_cons.mp hnodup
    rcases List.mem_cons.mp hmem with rfl | hmem
    · simp
    · have hother : (name == entry.1) = false := by
        rw [beq_eq_false_iff_ne]
        rintro rfl
        exact hfirst (List.mem_map.mpr ⟨_, hmem, rfl⟩)
      rw [List.lookup_cons, hother]
      exact ih hrest hmem

theorem nodup_names {entries : List (String × α)} (h : SortedNames entries) :
    (entries.map Prod.fst).Nodup := by
  rw [List.Nodup, List.pairwise_map]
  refine h.imp fun {a b} hlt heq => ?_
  rw [heq] at hlt
  exact String.lt_irrefl _ hlt

theorem mem_of_lookup {name : String} {value : α} {entries : List (String × α)}
    (h : entries.lookup name = some value) : (name, value) ∈ entries := by
  induction entries with
  | nil => simp at h
  | cons entry rest ih =>
    rw [List.lookup_cons] at h
    split at h
    next hname =>
      obtain rfl : name = entry.1 := by simpa using hname
      obtain rfl : entry.2 = value := by simpa using h
      exact List.mem_cons_self
    next => exact List.mem_cons_of_mem _ (ih h)

theorem get?_eq_some_iff {m : NameMap α} {name : String} {value : α} :
    m.get? name = some value ↔ (name, value) ∈ m.entries :=
  ⟨mem_of_lookup, lookup_of_mem (nodup_names m.sorted)⟩

theorem contains_iff {m : NameMap α} {name : String} :
    m.contains name ↔ ∃ value, m.get? name = some value := by
  rw [contains, Option.isSome_iff_exists]

theorem lookup_singleton (name n : String) (value : α) :
    [(n, value)].lookup name = if name = n then some value else none := by
  rw [List.lookup_cons, List.lookup_nil]
  by_cases hname : name = n
  · simp [hname]
  · have hother : (name == n) = false := by simpa using hname
    rw [hother, if_neg hname]

/-- A new name was free, so it takes the place of nothing. -/
theorem get?_insert_of_new {m : NameMap α} {new name : String} {value old : α}
    (hnew : m.get? new = none) (h : m.get? name = some old) :
    (m.insert new value).get? name = some old := by
  rw [get?_insert, if_neg]
  · exact h
  · rintro rfl
    rw [hnew] at h
    cases h

/-- The last of the entries that are put in wins. -/
theorem get?_insertAll (m : NameMap α) (entries : List (String × α)) (name : String) :
    (m.insertAll entries).get? name = (entries.reverse.lookup name).or (m.get? name) := by
  induction entries generalizing m with
  | nil => rfl
  | cons entry rest ih =>
    have hstep : m.insertAll (entry :: rest) = (m.insert entry.1 entry.2).insertAll rest := rfl
    have hlast : ([entry].lookup name).or (m.get? name) = (m.insert entry.1 entry.2).get? name := by
      rw [get?_insert, lookup_singleton]
      split <;> rfl
    rw [hstep, ih, List.reverse_cons, List.lookup_append, Option.or_assoc, hlast]

theorem insertAll_append (m : NameMap α) (entries more : List (String × α)) :
    m.insertAll (entries ++ more) = (m.insertAll entries).insertAll more :=
  List.foldl_append

theorem lookup_reverse {entries : List (String × α)} (hsorted : SortedNames entries)
    (name : String) : entries.reverse.lookup name = entries.lookup name := by
  cases hlookup : entries.reverse.lookup name with
  | none =>
    rw [lookup_eq_none_iff, List.map_reverse, List.mem_reverse] at hlookup
    exact (lookup_eq_none_iff.mpr hlookup).symm
  | some value =>
    have hmem := List.mem_reverse.mp (mem_of_lookup hlookup)
    exact (lookup_of_mem (nodup_names hsorted) hmem).symm

theorem get?_insertAll_entries (m n : NameMap α) (name : String) :
    (m.insertAll n.entries).get? name = (n.get? name).or (m.get? name) := by
  rw [get?_insertAll, lookup_reverse n.sorted]
  rfl

theorem mem_of_get?_insertAll {m : NameMap α} {entries : List (String × α)} {name : String}
    {value : α} (h : (m.insertAll entries).get? name = some value) :
    (name, value) ∈ entries ∨ m.get? name = some value := by
  rw [get?_insertAll, Option.or_eq_some_iff] at h
  rcases h with h | ⟨-, h⟩
  · exact .inl (List.mem_reverse.mp (mem_of_lookup h))
  · exact .inr h

theorem contains_insertAll {m : NameMap α} {entries : List (String × α)} {name : String} :
    (m.insertAll entries).contains name ↔ name ∈ entries.map Prod.fst ∨ m.contains name := by
  rw [contains, get?_insertAll, Option.isSome_or, Bool.or_eq_true, ← contains]
  apply or_congr_left
  rw [Option.isSome_iff_ne_none, ne_eq, lookup_eq_none_iff, Decidable.not_not, List.map_reverse,
    List.mem_reverse]

theorem get?_insertAll_empty {entries : List (String × α)}
    (hnodup : (entries.map Prod.fst).Nodup) {name : String} {value : α} :
    (empty.insertAll entries).get? name = some value ↔ (name, value) ∈ entries := by
  rw [get?_insertAll, get?_empty, Option.or_none]
  constructor
  · intro h
    exact List.mem_reverse.mp (mem_of_lookup h)
  · intro h
    apply lookup_of_mem
    · rw [List.map_reverse]
      exact List.pairwise_reverse.mpr (hnodup.imp Ne.symm)
    · exact List.mem_reverse.mpr h

theorem length_insertEntry {name : String} {value : α} {entries : List (String × α)}
    (h : name ∉ entries.map Prod.fst) :
    (insertEntry name value entries).length = entries.length + 1 := by
  induction entries with
  | nil => rfl
  | cons entry rest ih =>
    rw [List.map_cons, List.mem_cons, not_or] at h
    obtain ⟨hother, hrest⟩ := h
    rw [insertEntry, if_neg hother]
    split
    · rfl
    · rw [List.length_cons, ih hrest, List.length_cons]

theorem size_insertAll {m : NameMap α} {entries : List (String × α)}
    (hnodup : (entries.map Prod.fst).Nodup) (hnew : ∀ n ∈ entries.map Prod.fst, ¬ m.contains n) :
    (m.insertAll entries).size = m.size + entries.length := by
  induction entries generalizing m with
  | nil => rfl
  | cons entry rest ih =>
    obtain ⟨hfirst, hrest⟩ := List.nodup_cons.mp hnodup
    have hfree : m.get? entry.1 = none := by
      have := hnew entry.1 List.mem_cons_self
      rwa [contains_iff, ← Option.isSome_iff_exists, Option.not_isSome_iff_eq_none] at this
    have hsize : (m.insert entry.1 entry.2).size = m.size + 1 :=
      length_insertEntry (lookup_eq_none_iff.mp hfree)
    have hlater : ∀ n ∈ rest.map Prod.fst, ¬ (m.insert entry.1 entry.2).contains n := by
      intro n hn
      have hother : n ≠ entry.1 := by
        rintro rfl
        exact hfirst hn
      rw [contains, get?_insert, if_neg hother]
      exact hnew n (List.mem_cons_of_mem _ hn)
    have hstep : m.insertAll (entry :: rest) = (m.insert entry.1 entry.2).insertAll rest := rfl
    rw [hstep, ih hrest hlater, hsize, List.length_cons]
    omega

/-! ## Entries in order -/

theorem insertEntry_last {name : String} {value : α} {entries : List (String × α)}
    (h : ∀ e ∈ entries, e.1 < name) :
    insertEntry name value entries = entries ++ [(name, value)] := by
  induction entries with
  | nil => rfl
  | cons entry rest ih =>
    have hlt := h entry List.mem_cons_self
    rw [insertEntry, if_neg (String.lt_asymm hlt), if_neg fun heq => String.lt_irrefl _ (heq ▸ hlt),
      ih fun e he => h e (List.mem_cons_of_mem entry he), List.cons_append]

theorem entries_insertAll {m : NameMap α} {entries : List (String × α)}
    (h : SortedNames (m.entries ++ entries)) :
    (m.insertAll entries).entries = m.entries ++ entries := by
  induction entries generalizing m with
  | nil => simp [insertAll]
  | cons entry rest ih =>
    have hlast : (m.insert entry.1 entry.2).entries = m.entries ++ [entry] :=
      insertEntry_last fun e he => (List.pairwise_append.mp h).2.2 e he entry List.mem_cons_self
    have hrest := @ih (m.insert entry.1 entry.2)
    rw [hlast, List.append_assoc] at hrest
    exact hrest h

/-- The entries of a map make the map again. -/
theorem insertAll_entries (m : NameMap α) : empty.insertAll m.entries = m := by
  have hentries := entries_insertAll (m := empty) m.sorted
  cases hmap : empty.insertAll m.entries
  cases m
  simp_all [empty]

/-- Maps that give the same answers are the same map. -/
theorem eq_of_get? {m n : NameMap α} (h : ∀ name, m.get? name = n.get? name) : m = n := by
  have hnodup {entries : List (String × α)} (hsorted : SortedNames entries) : entries.Nodup :=
    List.Pairwise.of_map Prod.fst (fun _ _ hne heq => hne (congrArg Prod.fst heq))
      (nodup_names hsorted)
  have hmem (e : String × α) : e ∈ m.entries ↔ e ∈ n.entries := by
    obtain ⟨name, value⟩ := e
    rw [← get?_eq_some_iff, ← get?_eq_some_iff, h]
  have hperm := (List.perm_ext_iff_of_nodup (hnodup m.sorted) (hnodup n.sorted)).mpr hmem
  have hentries := hperm.eq_of_pairwise
    (fun _ _ _ _ hlt hgt => absurd hgt (String.lt_asymm hlt)) m.sorted n.sorted
  cases m
  cases n
  cases hentries
  rfl

/-! ## Changes in a row -/

section changes

variable {m : NameMap α} {name other : String} {fallback : α} {f g : α → α}

theorem update_update : (m.update name fallback f).update name fallback g =
    m.update name fallback (fun a => g (f a)) := by
  apply eq_of_get?
  intro n
  simp only [update, get?_insert, if_true, Option.getD_some]
  split <;> rfl

/-- Changes under different names may be made in either order. -/
theorem update_comm (h : name ≠ other) :
    (m.update name fallback f).update other fallback g =
      (m.update other fallback g).update name fallback f := by
  apply eq_of_get?
  intro n
  simp only [update, get?_insert, if_neg h, if_neg (Ne.symm h)]
  by_cases hname : n = name
  · subst hname
    simp only [if_neg h, if_true]
  · simp only [if_neg hname]

end changes

/-! ## Maps of what is described -/

section described

variable {ε : Type} {name : ε → String} {describes : ε → α → Prop} {entries : List ε}
  {m : NameMap α}

/-- The map has what the entries describe, each under its name, and nothing else. -/
structure Collects (name : ε → String) (describes : ε → α → Prop) (entries : List ε)
    (m : NameMap α) : Prop where
  get? : ∀ n a, m.get? n = some a ↔ ∃ e ∈ entries, name e = n ∧ describes e a
  described : ∀ e ∈ entries, ∃ a, describes e a

namespace Collects

theorem empty : Collects name describes [] (empty : NameMap α) where
  get? := by simp
  described := by simp

theorem contains_iff (h : Collects name describes entries m) {n : String} :
    m.contains n ↔ n ∈ entries.map name := by
  simp only [NameMap.contains_iff, h.get?, List.mem_map]
  constructor
  · rintro ⟨a, e, he, hname, -⟩
    exact ⟨e, he, hname⟩
  · rintro ⟨e, he, hname⟩
    obtain ⟨a, ha⟩ := h.described e he
    exact ⟨a, e, he, hname, ha⟩

theorem get?_eq_none_iff (h : Collects name describes entries m) {n : String} :
    m.get? n = none ↔ n ∉ entries.map name := by
  rw [← h.contains_iff, contains, Option.not_isSome_iff_eq_none]

/-- One more entry with a new name, which describes one thing. -/
theorem insert (h : Collects name describes entries m) {e : ε} {a : α} (ha : describes e a)
    (hunique : ∀ a', describes e a' → a = a') (hnew : name e ∉ entries.map name) :
    Collects name describes (entries ++ [e]) (m.insert (name e) a) where
  get? n a' := by
    rw [get?_insert]
    constructor
    · intro hget
      split at hget
      next hn =>
        cases hget
        exact ⟨e, by simp, hn.symm, ha⟩
      next hn =>
        obtain ⟨e', he', hname, ha'⟩ := (h.get? n a').mp hget
        exact ⟨e', List.mem_append_left _ he', hname, ha'⟩
    · rintro ⟨e', he', rfl, ha'⟩
      rcases List.mem_append.mp he' with he' | he'
      · have hother : name e' ≠ name e := by
          intro hsame
          exact hnew (hsame ▸ List.mem_map_of_mem he')
        rw [if_neg hother]
        exact (h.get? _ _).mpr ⟨e', he', rfl, ha'⟩
      · obtain rfl := List.mem_singleton.mp he'
        rw [if_pos rfl, hunique a' ha']
  described e' he' := by
    rcases List.mem_append.mp he' with he' | he'
    · exact h.described e' he'
    · obtain rfl := List.mem_singleton.mp he'
      exact ⟨a, ha⟩

end Collects

end described

end UiMarkup.NameMap
