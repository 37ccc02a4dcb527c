import UiMarkup.Declaration.Reading
import UiMarkup.Proofs.Declaration.Grammar

/-!
# Counting braces

`extent` knows nothing of the grammar. In front of a declaration it still ends
where the declaration ends, or stops at a brace that nests too deep exactly when
the declaration is too deep.
-/

namespace UiMarkup.Declaration

open Grammar

/-! ## Tokens that are no braces -/

def IsBrace (t : Placed Token) : Prop := t.value = .braceOpen ∨ t.value = .braceClose

def NoBraces (ts : List (Placed Token)) : Prop := ∀ t ∈ ts, ¬ IsBrace t

theorem noBraces_append {ts us : List (Placed Token)} (hts : NoBraces ts) (hus : NoBraces us) :
    NoBraces (ts ++ us) := by
  intro t ht
  rcases List.mem_append.mp ht with ht | ht
  · exact hts t ht
  · exact hus t ht

theorem noBraces_cons {t : Placed Token} {ts : List (Placed Token)} (ht : ¬ IsBrace t)
    (hts : NoBraces ts) : NoBraces (t :: ts) := by
  intro u hu
  rcases List.mem_cons.mp hu with rfl | hu
  · exact ht
  · exact hts u hu

theorem noBraces_nil : NoBraces [] := by simp [NoBraces]

theorem noBraces_commas {ts : List (Placed Token)} (h : OptionalComma ts) : NoBraces ts := by
  cases h with
  | absent => exact noBraces_nil
  | present hcomma => exact noBraces_cons (by simp [IsBrace, hcomma]) noBraces_nil

mutual

theorem noBraces_value {ts : List (Placed Token)} {v : Placed String} : Value ts v → NoBraces ts
  | .scalar hscalar => by
    refine noBraces_cons ?_ noBraces_nil
    rintro (hbrace | hbrace) <;> simp [hbrace, Token.scalar?] at hscalar
  | .tuple hopen hitems hcommas hclose =>
    noBraces_append
      (noBraces_append (noBraces_cons (by simp [IsBrace, hopen]) (noBraces_items hitems))
        (noBraces_commas hcommas))
      (noBraces_cons (by simp [IsBrace, hclose]) noBraces_nil)

theorem noBraces_items {ts : List (Placed Token)} {items : List String} :
    Items ts items → NoBraces ts
  | .one hvalue => noBraces_value hvalue
  | .more hitems hcomma hvalue =>
    noBraces_append (noBraces_items hitems)
      (noBraces_cons (by simp [IsBrace, hcomma]) (noBraces_value hvalue))

end

theorem noBraces_assigns {ts : List (Placed Token)} {a : Assignment} (h : Assigns ts a) :
    NoBraces ts := by
  cases h with
  | mk hname hcolon hvalue hsemicolon =>
    refine noBraces_append (noBraces_cons (by simp [IsBrace, hname]) (noBraces_cons ?_ ?_))
      (noBraces_cons (by simp [IsBrace, hsemicolon]) noBraces_nil)
    · simp [IsBrace, hcolon]
    · exact noBraces_value hvalue

theorem noBraces_heading {ts : List (Placed Token)} {kind : Placed String}
    {cls : Option (Placed String)} (h : Heading ts kind cls) : NoBraces ts := by
  cases h with
  | plain hkind => exact noBraces_cons (by simp [IsBrace, hkind]) noBraces_nil
  | styled hkind hdot hcls =>
    refine noBraces_cons (by simp [IsBrace, hkind]) (noBraces_cons ?_ (noBraces_cons ?_ ?_))
    · simp [IsBrace, hdot]
    · simp [IsBrace, hcls]
    · exact noBraces_nil

theorem extent_of_noBraces {ts : List (Placed Token)} (h : NoBraces ts) (limit depth : Nat)
    (rest : List (Placed Token)) : extent limit depth (ts ++ rest) = extent limit depth rest := by
  induction ts with
  | nil => rfl
  | cons t ts ih =>
    have ht : ¬ IsBrace t := h t List.mem_cons_self
    rw [List.cons_append, extent]
    split
    · next hopen => exact absurd (.inl hopen) ht
    · next hclose => exact absurd (.inr hclose) ht
    · exact ih fun u hu => h u (List.mem_cons_of_mem _ hu)

/-! ## Braces of declarations -/

theorem deepest_append (ds es : List Declaration) :
    deepest (ds ++ es) = max (deepest ds) (deepest es) := by
  induction ds with
  | nil => simp [deepest]
  | cons d ds ih => simp [deepest, ih, Nat.max_assoc]

theorem deepest_le_iff {ds : List Declaration} {n : Nat} :
    deepest ds ≤ n ↔ ∀ d ∈ ds, d.depth ≤ n := by
  induction ds with
  | nil => simp [deepest]
  | cons d ds ih => rw [deepest, Nat.max_le, ih, List.forall_mem_cons]

/-- `ts` nests `n` deep, and is left with as many bodies open as before. -/
def Balanced (limit depth n : Nat) (ts : List (Placed Token)) : Prop :=
  ∀ rest, (depth + n ≤ limit → extent limit depth (ts ++ rest) = extent limit depth rest) ∧
    (limit < depth + n → ∃ brace, extent limit depth (ts ++ rest) = .tooDeep brace)

theorem balanced_append {limit depth m n : Nat} {ts us : List (Placed Token)}
    (hts : Balanced limit depth m ts) (hus : Balanced limit depth n us) :
    Balanced limit depth (max m n) (ts ++ us) := by
  intro rest
  obtain ⟨hfit, hdeep⟩ := hts (us ++ rest)
  obtain ⟨hfit', hdeep'⟩ := hus rest
  rw [List.append_assoc]
  constructor
  · intro h
    rw [hfit (by omega), hfit' (by omega)]
  · intro h
    by_cases hm : depth + m ≤ limit
    · rw [hfit hm]
      exact hdeep' (by omega)
    · exact hdeep (by omega)

theorem balanced_of_noBraces {ts : List (Placed Token)} (h : NoBraces ts) {limit depth : Nat}
    (hdepth : depth ≤ limit) : Balanced limit depth 0 ts := by
  intro rest
  refine ⟨fun _ => extent_of_noBraces h limit depth rest, fun hlt => ?_⟩
  omega

theorem extent_heading {hs : List (Placed Token)} {kind : Placed String}
    {cls : Option (Placed String)} {open_ : Placed Token} (h : Heading hs kind cls)
    (hopen : open_.value = .braceOpen) (limit depth : Nat) (rest : List (Placed Token)) :
    extent limit depth (hs ++ open_ :: rest) =
      if limit ≤ depth then .tooDeep open_.span else extent limit (depth + 1) rest := by
  rw [extent_of_noBraces (noBraces_heading h), extent, hopen]

theorem extent_close {close : Placed Token} (hclose : close.value = .braceClose)
    (limit depth : Nat) (rest : List (Placed Token)) :
    extent limit (depth + 1) (close :: rest) =
      if depth = 0 then .closed rest else extent limit depth rest := by
  rw [extent, hclose]
  simp

/-- A body in its braces: the count is over, or goes on as in front of it. -/
theorem extent_braces {hs ts : List (Placed Token)} {kind : Placed String}
    {cls : Option (Placed String)} {open_ close : Placed Token} {n : Nat} (limit depth : Nat)
    (h : Heading hs kind cls) (hopen : open_.value = .braceOpen)
    (hclose : close.value = .braceClose)
    (hbody : depth < limit → Balanced limit (depth + 1) n ts) (rest : List (Placed Token)) :
    (depth + (1 + n) ≤ limit → extent limit depth (hs ++ open_ :: ts ++ [close] ++ rest) =
      if depth = 0 then .closed rest else extent limit depth rest) ∧
    (limit < depth + (1 + n) → ∃ brace,
      extent limit depth (hs ++ open_ :: ts ++ [close] ++ rest) = .tooDeep brace) := by
  rw [show hs ++ open_ :: ts ++ [close] ++ rest = hs ++ open_ :: (ts ++ close :: rest) by simp,
    extent_heading h hopen]
  by_cases hlt : depth < limit
  · obtain ⟨hfit, hdeep⟩ := hbody hlt (close :: rest)
    rw [if_neg (by omega)]
    constructor
    · intro hle
      rw [hfit (by omega), extent_close hclose]
    · intro hgt
      exact hdeep (by omega)
  · rw [if_pos (by omega)]
    exact ⟨fun hle => by omega, fun _ => ⟨_, rfl⟩⟩

mutual

theorem balanced_declares {ts : List (Placed Token)} {d : Declaration} :
    Declares ts d → ∀ {limit depth : Nat}, 0 < depth → Balanced limit depth d.depth ts
  | .mk hheading hopen hbody hclose, limit, depth, hpos => by
    intro rest
    have hbraces := extent_braces limit depth hheading hopen hclose
      (fun hlt => balanced_body hbody (Nat.succ_pos _) hlt) rest
    rwa [if_neg (by omega)] at hbraces

theorem balanced_body {ts : List (Placed Token)} {as : List Assignment} {ds : List Declaration} :
    Body ts as ds → ∀ {limit depth : Nat}, 0 < depth → depth ≤ limit →
      Balanced limit depth (deepest ds) ts
  | .empty, limit, depth, _, hle => balanced_of_noBraces noBraces_nil hle
  | .assign hbody hassigns, limit, depth, hpos, hle => by
    have := balanced_append (balanced_body hbody hpos hle)
      (balanced_of_noBraces (noBraces_assigns hassigns) hle)
    rwa [Nat.max_zero] at this
  | .child hbody hdeclares, limit, depth, hpos, hle => by
    have := balanced_append (balanced_body hbody hpos hle) (balanced_declares hdeclares hpos)
    rw [deepest_append]
    simpa [deepest] using this

end

theorem extent_of_depth_le {ts : List (Placed Token)} {d : Declaration} {limit : Nat}
    (h : Declares ts d) (hle : d.depth ≤ limit) (rest : List (Placed Token)) :
    extent limit 0 (ts ++ rest) = .closed rest := by
  cases h with
  | mk hheading hopen hbody hclose =>
    have hbraces := extent_braces limit 0 hheading hopen hclose
      (fun hlt => balanced_body hbody (Nat.succ_pos _) hlt) rest
    rw [hbraces.1 (by simpa [depth] using hle), if_pos rfl]

theorem extent_of_lt_depth {ts : List (Placed Token)} {d : Declaration} {limit : Nat}
    (h : Declares ts d) (hlt : limit < d.depth) (rest : List (Placed Token)) :
    ∃ brace, extent limit 0 (ts ++ rest) = .tooDeep brace := by
  cases h with
  | mk hheading hopen hbody hclose =>
    have hbraces := extent_braces limit 0 hheading hopen hclose
      (fun hlt => balanced_body hbody (Nat.succ_pos _) hlt) rest
    exact hbraces.2 (by simpa [depth] using hlt)

/-! ## Roots cut off by braces alone -/

/-- The tokens of the next root as far as braces tell, and the tokens behind them. -/
def cutRoot (limit : Nat) (ts : List (Placed Token)) :
    List (Placed Token) × List (Placed Token) :=
  match extent limit 0 ts with
  | .closed rest => (ts.take (ts.length - rest.length), rest)
  | .unclosed | .tooDeep _ => (ts, [])

theorem extent_suffix {limit depth : Nat} {ts rest : List (Placed Token)}
    (h : extent limit depth ts = .closed rest) : ∃ us, ts = us ++ rest ∧ us ≠ [] := by
  induction ts generalizing depth with
  | nil => simp [extent] at h
  | cons t ts ih =>
    rw [extent] at h
    split at h
    · split at h
      · simp at h
      · obtain ⟨us, rfl, -⟩ := ih h
        exact ⟨t :: us, rfl, by simp⟩
    · split at h
      · obtain rfl : ts = rest := by simpa using h
        exact ⟨[t], rfl, by simp⟩
      · obtain ⟨us, rfl, -⟩ := ih h
        exact ⟨t :: us, rfl, by simp⟩
    · obtain ⟨us, rfl, -⟩ := ih h
      exact ⟨t :: us, rfl, by simp⟩

theorem cutRoot_append (limit : Nat) (ts : List (Placed Token)) :
    (cutRoot limit ts).1 ++ (cutRoot limit ts).2 = ts := by
  unfold cutRoot
  split
  · next rest hextent =>
    obtain ⟨us, rfl, -⟩ := extent_suffix hextent
    simp
  · simp
  · simp

theorem length_cutRoot_lt (limit : Nat) (t : Placed Token) (ts : List (Placed Token)) :
    (cutRoot limit (t :: ts)).2.length < (t :: ts).length := by
  unfold cutRoot
  split
  · next rest hextent =>
    obtain ⟨us, hus, hne⟩ := extent_suffix hextent
    have := List.length_pos_iff.mpr hne
    rw [hus, List.length_append]
    exact Nat.lt_add_of_pos_left this
  · simp
  · simp

theorem cutRoot_of_declares {ts : List (Placed Token)} {d : Declaration} {limit : Nat}
    (h : Declares ts d) (hle : d.depth ≤ limit) (rest : List (Placed Token)) :
    cutRoot limit (ts ++ rest) = (ts, rest) := by
  simp [cutRoot, extent_of_depth_le h hle]

/-- All tokens, cut into roots. -/
def cutRoots (limit : Nat) : List (Placed Token) → List (List (Placed Token))
  | [] => []
  | t :: ts => (cutRoot limit (t :: ts)).1 :: cutRoots limit (cutRoot limit (t :: ts)).2
termination_by ts => ts.length
decreasing_by exact length_cutRoot_lt limit t ts

end UiMarkup.Declaration
