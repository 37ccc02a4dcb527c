/-!
# Maps from names

A map keeps its entries in the order of their names, each name once. So two
maps that give the same answers are the same map.
-/

namespace UiMarkup

/-- Entries in strictly increasing order of their names. -/
def SortedNames {α : Type} (entries : List (String × α)) : Prop :=
  entries.Pairwise fun a b => a.1 < b.1

structure NameMap (α : Type) where
  entries : List (String × α)
  sorted : SortedNames entries

namespace NameMap

variable {α : Type}

instance [DecidableEq α] : DecidableEq (NameMap α) := fun m n =>
  decidable_of_iff (m.entries = n.entries) <| by cases m; cases n; simp

def empty : NameMap α := ⟨[], .nil⟩

instance : Inhabited (NameMap α) := ⟨empty⟩

/-- Puts an entry in its place, instead of one with the same name. -/
def insertEntry (name : String) (value : α) : List (String × α) → List (String × α)
  | [] => [(name, value)]
  | (n, v) :: rest =>
    if name < n then (name, value) :: (n, v) :: rest
    else if name = n then (name, value) :: rest
    else (n, v) :: insertEntry name value rest

theorem mem_insertEntry {name : String} {value : α} {entries : List (String × α)}
    {e : String × α} (h : e ∈ insertEntry name value entries) :
    e = (name, value) ∨ e ∈ entries := by
  induction entries with
  | nil => simpa [insertEntry] using h
  | cons entry rest ih =>
    rw [insertEntry] at h
    split at h
    · simpa using h
    · split at h
      · rcases List.mem_cons.1 h with rfl | h
        · exact .inl rfl
        · exact .inr (.tail _ h)
      · rcases List.mem_cons.1 h with rfl | h
        · exact .inr (.head _)
        · exact (ih h).imp id (.tail _)

theorem sorted_insertEntry (name : String) (value : α) {entries : List (String × α)}
    (h : SortedNames entries) : SortedNames (insertEntry name value entries) := by
  induction entries with
  | nil => simp [insertEntry, SortedNames]
  | cons entry rest ih =>
    obtain ⟨first, rest_sorted⟩ := List.pairwise_cons.1 h
    rw [insertEntry]
    split
    next before =>
      refine List.pairwise_cons.2 ⟨fun e he => ?_, h⟩
      rcases List.mem_cons.1 he with rfl | he
      · exact before
      · exact String.lt_trans before (first e he)
    next notBefore =>
      split
      next same =>
        subst same
        exact List.pairwise_cons.2 ⟨first, rest_sorted⟩
      next other =>
        refine List.pairwise_cons.2 ⟨fun e he => ?_, ih rest_sorted⟩
        rcases mem_insertEntry he with rfl | he
        · refine Decidable.byContradiction fun no => other ?_
          exact String.le_antisymm (String.not_lt.1 no) (String.not_lt.1 notBefore)
        · exact first e he

def insert (m : NameMap α) (name : String) (value : α) : NameMap α :=
  ⟨insertEntry name value m.entries, sorted_insertEntry name value m.sorted⟩

def get? (m : NameMap α) (name : String) : Option α := m.entries.lookup name

def contains (m : NameMap α) (name : String) : Bool := (m.get? name).isSome

def names (m : NameMap α) : List String := m.entries.map Prod.fst

def values (m : NameMap α) : List α := m.entries.map Prod.snd

def size (m : NameMap α) : Nat := m.entries.length

def isEmpty (m : NameMap α) : Bool := m.entries.isEmpty

/-- Takes entries in one after the other, so that the last one of a name stays. -/
def insertAll (m : NameMap α) (entries : List (String × α)) : NameMap α :=
  entries.foldl (fun m e => m.insert e.1 e.2) m

/-- Changes what is stored under a name, `fallback` if nothing is. -/
def update (m : NameMap α) (name : String) (fallback : α) (f : α → α) : NameMap α :=
  m.insert name (f ((m.get? name).getD fallback))

/-- Whether two maps have the same names, with values that `same` accepts. -/
def sameBy (same : α → α → Bool) (m n : NameMap α) : Bool :=
  m.names = n.names && (m.values.zip n.values).all fun (v, w) => same v w

/-! ## Looking up -/

theorem lookup_insertEntry (name other : String) (value : α) (entries : List (String × α)) :
    (insertEntry name value entries).lookup other =
      if other = name then some value else entries.lookup other := by
  have differ : ∀ n : String, other ≠ n → (other == n) = false := fun n h => by simpa using h
  induction entries with
  | nil => by_cases h : other = name <;> simp [insertEntry, List.lookup_cons, h, differ name]
  | cons entry rest ih =>
    obtain ⟨n, v⟩ := entry
    rw [insertEntry]
    split
    · by_cases h : other = name <;> simp [List.lookup_cons, h, differ name]
    · split
      next same =>
        subst same
        by_cases h : other = name <;> simp [List.lookup_cons, h, differ name]
      next other_name =>
        by_cases h : other = n
        · subst h
          simp [Ne.symm other_name]
        · simp [List.lookup_cons, differ n h, ih]

@[simp] theorem get?_empty (name : String) : (empty : NameMap α).get? name = none := rfl

@[simp] theorem get?_insert (m : NameMap α) (name other : String) (value : α) :
    (m.insert name value).get? other = if other = name then some value else m.get? other :=
  lookup_insertEntry name other value m.entries

end NameMap

end UiMarkup
