import UiMarkup.Report.Lines
import UiMarkup.Source

/-!
# Places as reports count them

A report looks up the line that a character is on. That is the same as a walk
over the characters in front of it that counts the lines as they begin.
-/

namespace UiMarkup

/-! ## Walks -/

/-- A line begins behind `c`, with `cs` behind it. A carriage return and a newline end a line
together, and behind the end of the last line no other one begins. -/
def startsLine (c : Char) (cs : List Char) : Bool :=
  isLineEnd c && !(c = '\r' && cs.head? = some '\n') && !cs.isEmpty

theorem startsLine_nil (c : Char) : startsLine c [] = false := by
  simp [startsLine]

namespace Position

/-- The place behind `c` as reports count it, with `cs` behind it. -/
def stepReport (p : Position) (c : Char) (cs : List Char) : Position :=
  if startsLine c cs then ⟨p.line + 1, 1⟩ else ⟨p.line, p.column + 1⟩

/-- The place behind `n` characters, or behind all of them if there are fewer. -/
def walk (p : Position) : Nat → List Char → Position
  | n + 1, c :: cs => (p.stepReport c cs).walk n cs
  | _, _ => p

variable {p : Position}

@[simp] theorem walk_zero (cs : List Char) : p.walk 0 cs = p := by
  cases cs <;> rfl

theorem walk_cons (n : Nat) (c : Char) (cs : List Char) :
    p.walk (n + 1) (c :: cs) = (p.stepReport c cs).walk n cs :=
  rfl

theorem stepReport_of_startsLine {c : Char} {cs : List Char} (h : startsLine c cs) :
    p.stepReport c cs = ⟨p.line + 1, 1⟩ :=
  if_pos h

theorem stepReport_of_not_startsLine {c : Char} {cs : List Char} (h : startsLine c cs = false) :
    p.stepReport c cs = ⟨p.line, p.column + 1⟩ :=
  if_neg (Bool.eq_false_iff.mp h)

end Position

/-! ## Lines of a text -/

theorem flatten_splitLines (cs : List Char) : (splitLines cs).flatten = cs := by
  fun_induction splitLines cs <;> simp_all

theorem splitLines_eq_nil_iff {cs : List Char} : splitLines cs = [] ↔ cs = [] := by
  constructor
  · intro h
    have hflatten := flatten_splitLines cs
    rw [h] at hflatten
    exact hflatten.symm
  · rintro rfl
    rfl

namespace SourceLine

/-- The place of a character, counted in characters, as reports show it. -/
def place? (lines : List SourceLine) (offset : Nat) : Option Position :=
  (at? lines offset).map fun l => ⟨l.number, offset - l.start + 1⟩

/-! ## Looking up lines -/

section lookup

variable {number start offset : Nat} {text : List Char} {texts : List (List Char)}

theorem le_start_of_mem {l : SourceLine} (h : l ∈ numberFrom number start texts) :
    start ≤ l.start := by
  induction texts generalizing number start with
  | nil => cases h
  | cons text texts ih =>
    rcases List.mem_cons.mp h with rfl | h
    · exact Nat.le_refl _
    · exact Nat.le_trans (Nat.le_add_right _ _) (ih h)

theorem stop_le_of_mem {l : SourceLine} (h : l ∈ numberFrom number start texts) :
    l.stop ≤ start + texts.flatten.length := by
  induction texts generalizing number start with
  | nil => cases h
  | cons text texts ih =>
    rw [List.flatten_cons, List.length_append]
    rcases List.mem_cons.mp h with rfl | h
    · simp only [stop]
      omega
    · have hrest := ih h
      omega

/-- Before the next line begins, the first line is found. -/
theorem place?_first (hstart : start ≤ offset) (hstop : offset ≤ start + text.length)
    (hrest : offset < start + text.length ∨ texts = []) :
    place? (numberFrom number start (text :: texts)) offset =
      some ⟨number, offset - start + 1⟩ := by
  have hfilter : (numberFrom (number + 1) (start + text.length) texts).filter
      (·.start ≤ offset) = [] := by
    refine List.filter_eq_nil_iff.mpr fun l hl => ?_
    rcases hrest with hlt | rfl
    · have hle := le_start_of_mem hl
      rw [decide_eq_true_eq]
      omega
    · cases hl
  have hfound : at? (numberFrom number start (text :: texts)) offset =
      some ⟨number, start, text⟩ := by
    simp [at?, numberFrom, hfilter, hstart, stop, hstop]
  rw [place?, hfound]
  rfl

/-- From where the next line begins, the first line does not matter. -/
theorem place?_rest (hstop : start + text.length ≤ offset) (hrest : texts ≠ []) :
    place? (numberFrom number start (text :: texts)) offset =
      place? (numberFrom (number + 1) (start + text.length) texts) offset := by
  obtain ⟨next, texts, rfl⟩ := List.exists_cons_of_ne_nil hrest
  have hstart : start ≤ offset := by omega
  simp [place?, at?, numberFrom, hstart, hstop]

end lookup

/-! ## Looking up is walking -/

section walking

variable {number start n : Nat} {front text line cs : List Char} {rest : List (List Char)}

/-- The lookup finds what a walk over the text finds. The walk has already come as far as `front`
on its first line. -/
def Agree (cs : List Char) : Prop :=
  ∀ front line rest number start n, splitLines cs = line :: rest → n ≤ cs.length →
    place? (numberFrom number start ((front ++ line) :: rest)) (start + front.length + n) =
      some ((Position.mk number (front.length + 1)).walk n cs)

theorem place?_within (hn : n < text.length) :
    place? (numberFrom number start ((front ++ text) :: rest)) (start + front.length + n) =
      some ⟨number, front.length + 1 + n⟩ := by
  have hstop : start + front.length + n < start + (front ++ text).length := by
    rw [List.length_append]
    omega
  rw [place?_first (by omega) (Nat.le_of_lt hstop) (.inl hstop)]
  congr 2
  omega

theorem place?_behind {c : Char} (hagree : Agree cs) (hends : isLineEnd c)
    (hsingle : ¬ (c = '\r' ∧ cs.head? = some '\n')) (hn : n ≤ cs.length) :
    place? (numberFrom number start ((text ++ [c]) :: splitLines cs))
        (start + text.length + (n + 1)) =
      some (((Position.mk number (text.length + 1)).stepReport c cs).walk n cs) := by
  cases hlines : splitLines cs with
  | nil =>
    obtain rfl := splitLines_eq_nil_iff.mp hlines
    obtain rfl : n = 0 := Nat.le_zero.mp hn
    have hlength : (text ++ [c]).length = text.length + 1 := by simp
    rw [place?_first (by omega) (by omega) (.inr rfl),
      Position.stepReport_of_not_startsLine (startsLine_nil c), Position.walk_zero]
    congr 2
    show start + text.length + (0 + 1) - start + 1 = text.length + 1 + 1
    omega
  | cons line rest =>
    have hcs : cs ≠ [] := fun h => by simp [splitLines_eq_nil_iff.mpr h] at hlines
    have hstarts : startsLine c cs := by
      simpa [startsLine, hends, hcs] using Decidable.not_and_iff_not_or_not.mp hsingle
    rw [place?_rest (by simp; omega) (List.cons_ne_nil _ _),
      Position.stepReport_of_startsLine hstarts]
    have hline := hagree [] line rest (number + 1) (start + (text ++ [c]).length) n hlines hn
    simpa [Nat.add_assoc, Nat.add_comm 1 n] using hline

theorem agree (cs : List Char) : Agree cs := by
  intro front line rest number start n hlines hn
  fun_induction splitLines cs generalizing front line rest number start n with
  | case1 => cases hlines
  | case2 cs ih =>
    -- Two characters end the line, and the walk begins the next one behind the second.
    obtain ⟨rfl, rfl⟩ := List.cons.inj hlines
    have hfirst (p : Position) : p.stepReport '\r' ('\n' :: cs) = ⟨p.line, p.column + 1⟩ :=
      Position.stepReport_of_not_startsLine (by simp [startsLine])
    match n with
    | 0 => exact place?_within (by simp)
    | 1 =>
      rw [place?_within (by simp), Position.walk_cons, hfirst, Position.walk_zero]
    | n + 2 =>
      have hbehind := @place?_behind number start n (front ++ ['\r']) cs '\n' ih (by decide)
        (by simp) (by simpa using hn)
      have hoffset : start + front.length + (n + 2) =
          start + (front ++ ['\r']).length + (n + 1) := by
        simp
        omega
      rw [hoffset, Position.walk_cons, hfirst, Position.walk_cons]
      simpa using hbehind
  | case3 c cs hpair hends ih =>
    obtain ⟨rfl, rfl⟩ := List.cons.inj hlines
    match n with
    | 0 => exact place?_within (by simp)
    | n + 1 =>
      refine place?_behind ih hends ?_ (Nat.le_of_succ_le_succ hn)
      rintro ⟨rfl, hhead⟩
      obtain ⟨cs, rfl⟩ := List.head?_eq_some_iff.mp hhead
      exact hpair cs rfl rfl
  | case4 c cs hpair hends hnil ih =>
    obtain ⟨rfl, rfl⟩ := List.cons.inj hlines
    obtain rfl := splitLines_eq_nil_iff.mp hnil
    match n with
    | 0 => exact place?_within (by simp)
    | 1 =>
      have hlength : (front ++ [c]).length = front.length + 1 := by simp
      rw [place?_first (by omega) (by omega) (.inr rfl), Position.walk_cons,
        Position.stepReport_of_not_startsLine (startsLine_nil c), Position.walk_zero]
      simp only [Option.some.injEq, Position.mk.injEq, true_and]
      omega
  | case5 c cs hpair hends line' rest' hcons ih =>
    obtain ⟨rfl, rfl⟩ := List.cons.inj hlines
    match n with
    | 0 => exact place?_within (by simp)
    | n + 1 =>
      -- One more character of the first line is read.
      have hnext := ih (front ++ [c]) line' rest' number start n hcons (Nat.le_of_succ_le_succ hn)
      have hmiddle : startsLine c cs = false := by simp [startsLine, hends]
      rw [Position.walk_cons, Position.stepReport_of_not_startsLine hmiddle]
      have hoffset : start + front.length + (n + 1) = start + (front ++ [c]).length + n := by
        simp
        omega
      rw [hoffset]
      simpa using hnext

end walking

/-- A report shows the place that a walk over the text comes to, and none behind the text. -/
theorem place?_ofSource (source : List Char) (offset : Nat) :
    place? (ofSource source) offset =
      if offset ≤ source.length then some (Position.start.walk offset source) else none := by
  cases hlines : splitLines source with
  | nil =>
    obtain rfl := splitLines_eq_nil_iff.mp hlines
    cases offset <;> rfl
  | cons line rest =>
    have hlist : ofSource source = numberFrom 1 0 (line :: rest) := by rw [ofSource, hlines]
    rw [hlist]
    by_cases hle : offset ≤ source.length
    · rw [if_pos hle]
      have hagree := agree source [] line rest 1 0 offset hlines hle
      simpa [Position.start] using hagree
    · rw [if_neg hle]
      refine Option.map_eq_none_iff.mpr (Option.filter_eq_none_iff.mpr fun l hl => ?_)
      have hmem := (List.mem_filter.mp (List.mem_of_getLast? hl)).1
      have hstop := stop_le_of_mem hmem
      rw [← hlines, flatten_splitLines] at hstop
      rw [decide_eq_true_eq]
      omega

end SourceLine

end UiMarkup
