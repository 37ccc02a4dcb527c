import UiMarkup.Proofs.Declaration.ErrorPlaces

/-!
# Cutting a root off before it is read

A root can be cut off by its braces first and then be read by itself, up to the
end of that slice. The stream does not cut: it reads on in all tokens that are
left. Both give the same, because a reader is done, or has failed, where the
braces close.
-/

namespace UiMarkup

namespace Declaration

/-- Reads a declaration off a slice. The input ends behind it, at the byte `stop`, so a token that
the declaration leaves over is refused. -/
def readSlice (stop : Nat) (slice : List (Placed Token)) : Except ParseError Declaration :=
  match Progress.root.read stop stop slice with
  | .ok (d, []) => .ok d
  | .ok (_, t :: _) => .error ⟨t.span, .unexpected (some t.value) .root⟩
  | .error e => .error e

namespace Progress

theorem stepValue_ne_done (p : Pending) (tuples : List OpenTuple) (t : Placed Token)
    (d : Declaration) : stepValue p tuples t ≠ .done d := by
  unfold stepValue
  split
  · simp
  · split <;> simp

/-- The token that ends a declaration closes the last open body. -/
theorem extent_of_done {s : Progress} {t : Placed Token} {d : Declaration} (h : s.step t = .done d)
    (limit : Nat) (ts : List (Placed Token)) :
    extent limit s.openBodies (t :: ts) = .closed ts := by
  unfold step at h
  split at h
  case h_7 b outer hclose =>
    cases outer with
    | nil => simp [extent, hclose, openBodies]
    | cons b' outer => simp [closeBody] at h
  case h_11 | h_15 => exact absurd h (stepValue_ne_done _ _ _ _)
  all_goals simp at h

/-- **Reading stays in the slice that the braces cut off.** It is done at the end of the slice or
fails at a token in it, whatever stands behind the slice and wherever the input ends. -/
theorem read_append_of_closed {s : Progress} {slice rest : List (Placed Token)} {limit : Nat}
    (h : extent limit s.openBodies (slice ++ rest) = .closed rest) (length stop eoi stop' : Nat) :
    (∃ d, s.read length stop (slice ++ rest) = .ok (d, rest) ∧
      s.read eoi stop' slice = .ok (d, [])) ∨
    (∃ e, s.read length stop (slice ++ rest) = .error e ∧ s.read eoi stop' slice = .error e) := by
  induction slice generalizing s stop stop' with
  | nil =>
    -- Something is in front of what is left behind a closing brace.
    obtain ⟨us, hus, hne⟩ := extent_suffix h
    exact absurd (List.self_eq_append_left.mp hus) hne
  | cons t ts ih =>
    rw [List.cons_append] at h ⊢
    rw [read, read]
    cases hstep : s.step t with
    | refused => exact .inr ⟨_, rfl, rfl⟩
    | more s' => exact ih (extent_of_step hstep h) t.span.stop t.span.stop
    | done d =>
      rw [extent_of_done hstep] at h
      obtain rfl : ts = [] := by simpa using h
      exact .inl ⟨d, rfl, rfl⟩

/-- Where the braces do not close, no declaration is done. -/
theorem error_of_unclosed {ts : List (Placed Token)} {limit : Nat}
    (h : extent limit 0 ts = .unclosed) (length stop : Nat) :
    ∃ e, root.read length stop ts = .error e := by
  cases hread : root.read length stop ts with
  | error e => exact ⟨e, rfl⟩
  | ok answer =>
    obtain ⟨d, rest⟩ := answer
    obtain ⟨us, rfl, hdeclares⟩ := declares_of_read hread
    by_cases hle : d.depth ≤ limit
    · simp [extent_of_depth_le hdeclares hle] at h
    · obtain ⟨brace, hbrace⟩ := extent_of_lt_depth hdeclares (Nat.lt_of_not_le hle) rest
      simp [hbrace] at h

end Progress

theorem readSlice_of_closed {slice rest : List (Placed Token)} {limit : Nat}
    (h : extent limit 0 (slice ++ rest) = .closed rest) (length stop eoi : Nat) :
    (readSlice eoi slice).map (·, rest) = Progress.root.read length stop (slice ++ rest) := by
  unfold readSlice
  rcases Progress.read_append_of_closed (s := .root) h length stop eoi eoi with
    ⟨d, hread, hslice⟩ | ⟨e, hread, hslice⟩
  · rw [hread, hslice]
    rfl
  · rw [hread, hslice]
    rfl

theorem readSlice_of_unclosed {ts : List (Placed Token)} {limit : Nat}
    (h : extent limit 0 ts = .unclosed) (eoi : Nat) :
    (readSlice eoi ts).map (·, []) = Progress.root.read eoi eoi ts := by
  obtain ⟨e, hread⟩ := Progress.error_of_unclosed h eoi eoi
  unfold readSlice
  rw [hread]
  rfl

end Declaration

/-! ## Streams -/

namespace DeclarationStream

open Declaration

/-- Where the input of a slice ends: with its last token if there are tokens behind it, else at
the unrecognized text or at the end of the source. -/
def sliceEnd (s : DeclarationStream) (slice rest : List (Placed Token)) : Nat :=
  match rest, s.run.broken with
  | [], some text => text.span.start
  | [], none => s.length
  | _ :: _, _ => (slice.getLast?.map (·.span.stop)).getD s.length

/-- Cuts the next root off, and reads that slice by itself. -/
def readCutRoot (s : DeclarationStream) :
    Except ParseError (Declaration × List (Placed Token)) :=
  match extent s.maxDepth 0 s.left with
  | .tooDeep brace => .error ⟨brace, .tooDeep s.maxDepth⟩
  | .closed _ | .unclosed =>
    let (slice, rest) := cutRoot s.maxDepth s.left
    ((readSlice (s.sliceEnd slice rest) slice).map (·, rest)).mapError (s.blame rest.isEmpty)

/-- **Cutting first makes no difference:** the next root and what is left behind it, or the
error with its place, are those of the slice read by itself. -/
theorem readRoot_eq_readCutRoot (s : DeclarationStream) : s.readRoot = s.readCutRoot := by
  unfold readRoot readCutRoot cutRoot
  cases hextent : extent s.maxDepth 0 s.left with
  | tooDeep brace => rfl
  | closed rest =>
    obtain ⟨slice, hleft, -⟩ := extent_suffix hextent
    have hslice : s.left.take (s.left.length - rest.length) = slice := by simp [hleft]
    simp only [hslice]
    rw [hleft] at hextent ⊢
    rw [readSlice_of_closed hextent s.length s.length]
  | unclosed =>
    simp only
    rw [readSlice_of_unclosed hextent]
    cases hbroken : s.run.broken with
    | none =>
      have heoi : s.sliceEnd s.left [] = s.length := by simp [sliceEnd, hbroken]
      rw [heoi]
      rfl
    | some text =>
      -- The ends differ, but each reader fails and the unrecognized text takes the blame.
      obtain ⟨e, hread⟩ := Progress.error_of_unclosed hextent s.length s.length
      obtain ⟨e', hslice⟩ := Progress.error_of_unclosed hextent (s.sliceEnd s.left [])
        (s.sliceEnd s.left [])
      simp [hread, hslice, Except.mapError, blame, hbroken]

end DeclarationStream

end UiMarkup
