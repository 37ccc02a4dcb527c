import UiMarkup.Proofs.Token.Joining
import UiMarkup.Proofs.Token.Patterns

/-!
# The longest match

A lexeme is the longest text of a pattern that begins where it stands. Where no
text of a pattern begins, it is the longest beginning of such a text. The rule
leaves no choice, so it gives the lexemes of every source.
-/

namespace UiMarkup

open Pattern (told? ofStart? language_disjoint Closes closes_mark closes_cons)

/-! ## The rule -/

/-- A text of some pattern. -/
def Matches (w : List Char) : Prop := ∃ p : Pattern, w ∈ p.language

/-- The beginning of a text of some pattern. -/
def Begins (w : List Char) : Prop := ∃ v, Matches (w ++ v)

/-- The longest front of a text that has a property. -/
structure LongestFront (P : List Char → Prop) (cs w : List Char) : Prop where
  front : w <+: cs
  holds : P w
  longest : ∀ v, v <+: cs → P v → v.length ≤ w.length

/-- The lexeme at the front of a text. -/
inductive Munch (cs : List Char) : Lexeme → Prop
  /-- The longest text that matches, which matches one pattern only. -/
  | matched {p : Pattern} {w : List Char} :
      LongestFront Matches cs w → w ∈ p.language → (∀ q : Pattern, w ∈ q.language → q = p) →
      Munch cs (p.lexeme w)
  /-- Nothing matches. One character at least is left over. -/
  | unmatched {w : List Char} :
      cs ≠ [] → (∀ v, v <+: cs → ¬ Matches v) → LongestFront Begins cs w →
      Munch cs (.unrecognized (cs.take (max 1 w.length)))

/-! ## It leaves no choice -/

theorem LongestFront.unique {P : List Char → Prop} {cs v w : List Char}
    (hv : LongestFront P cs v) (hw : LongestFront P cs w) : v = w := by
  have hlength := Nat.le_antisymm (hw.longest v hv.front hv.holds) (hv.longest w hw.front hw.holds)
  exact (List.prefix_of_prefix_length_le hv.front hw.front (Nat.le_of_eq hlength)).eq_of_length
    hlength

theorem Munch.unique {cs : List Char} {l l' : Lexeme} (h : Munch cs l) (h' : Munch cs l') :
    l = l' := by
  cases h with
  | matched hw _ honly =>
    cases h' with
    | matched hv hq _ =>
      obtain rfl := hw.unique hv
      rw [honly _ hq]
    | unmatched _ hnone _ => exact absurd hw.holds (hnone _ hw.front)
  | unmatched _ hnone hw =>
    cases h' with
    | matched hv _ _ => exact absurd hv.holds (hnone _ hv.front)
    | unmatched _ _ hv => rw [hw.unique hv]

/-! ## What can match -/

theorem told?_of_front {cs v : List Char} {p : Pattern} (hfront : v <+: cs)
    (hv : v ∈ p.language) : told? cs = some p := by
  obtain ⟨rest, rfl⟩ := hfront
  exact Pattern.told?_append hv rest

theorem Matches.of_told {cs v : List Char} {p : Pattern} (h : Matches v) (hfront : v <+: cs)
    (htold : told? cs = some p) : v ∈ p.language := by
  obtain ⟨q, hq⟩ := h
  obtain rfl : q = p := Option.some.inj ((told?_of_front hfront hq).symm.trans htold)
  exact hq

/-- With its pattern told, the longest text of that pattern is the lexeme. -/
theorem munch_of_told {cs w : List Char} {p : Pattern} (htold : told? cs = some p)
    (hw : w ∈ p.language) (hfront : w <+: cs)
    (hlongest : ∀ v, v <+: cs → v ∈ p.language → v.length ≤ w.length) :
    Munch cs (p.lexeme w) := by
  refine .matched ⟨hfront, ⟨p, hw⟩, fun v hv h => ?_⟩ hw fun q hq => language_disjoint hq hw
  exact hlongest v hv (h.of_told hv htold)

/-- What begins a text of a pattern tells the pattern already, unless it is a slash alone. -/
theorem told?_of_begins {v : List Char} (hne : v ≠ []) (hslash : v ≠ ['/']) (h : Begins v) :
    ∃ p rest, told? v = some p ∧ v ++ rest ∈ p.language := by
  obtain ⟨rest, p, hp⟩ := h
  refine ⟨p, rest, ?_, hp⟩
  rw [← Pattern.told?_front hne hslash rest, ← List.append_nil (v ++ rest)]
  exact Pattern.told?_append hp []

theorem munch_unrecognized {cs w : List Char} (hw : w ≠ [])
    (hnone : ∀ v, v <+: cs → ¬ Matches v) (hlongest : LongestFront Begins cs w) :
    Munch cs (.unrecognized w) := by
  obtain ⟨rest, rfl⟩ := hlongest.front
  have hpos := List.length_pos_iff.mpr hw
  have hmunch := Munch.unmatched (by simp [hw]) hnone hlongest
  rwa [Nat.max_eq_right hpos, List.take_left] at hmunch

/-- A scanner of one pattern is right if it finds every match and, where there is none, gives up
no earlier than it must. -/
theorem munch_ofTaken {p : Pattern} (front : List Char) {cs : List Char} {t : Taken}
    (htold : told? (front ++ cs) = some p) (hsplit : t.text ++ t.rest = cs)
    (hne : front ++ t.text ≠ []) (hmatch : t.whole → front ++ t.text ∈ p.language)
    (hfind : ∀ v, v <+: front ++ cs → v ∈ p.language →
      t.whole ∧ v.length ≤ (front ++ t.text).length)
    (hbroken : t.whole = false → Begins (front ++ t.text) ∧
      ∀ v, v <+: front ++ cs → Begins v → v.length ≤ (front ++ t.text).length) :
    Munch (front ++ cs) (Lexeme.ofTaken front t p.lexeme).1 := by
  have hfront : front ++ t.text <+: front ++ cs := ⟨t.rest, by rw [List.append_assoc, hsplit]⟩
  rw [Lexeme.ofTaken]
  cases hwhole : t.whole with
  | true => exact munch_of_told htold (hmatch hwhole) hfront fun v hv hp => (hfind v hv hp).2
  | false =>
    obtain ⟨hbegins, hlongest⟩ := hbroken hwhole
    refine munch_unrecognized hne (fun v hv h => ?_) ⟨hfront, hbegins, hlongest⟩
    simpa [hwhole] using (hfind v hv (h.of_told hv htold)).1

/-! ## Characters of one class -/

theorem front_takeWhile {p : Char → Bool} {v cs : List Char} (hfront : v <+: cs)
    (hv : ∀ c ∈ v, p c) : v <+: cs.takeWhile p := by
  obtain ⟨rest, rfl⟩ := hfront
  rw [List.takeWhile_append_of_pos hv]
  exact List.prefix_append v _

theorem all_takeWhile {p : Char → Bool} {cs : List Char} : ∀ c ∈ cs.takeWhile p, p c :=
  List.all_eq_true.mp List.all_takeWhile

theorem front_of_ne_nil {c : Char} {cs v : List Char} (hfront : v <+: c :: cs) (hv : v ≠ []) :
    [c] <+: v := by
  obtain ⟨d, v, rfl⟩ := List.exists_cons_of_ne_nil hv
  obtain ⟨rfl, -⟩ := List.cons_prefix_cons.mp hfront
  exact ⟨v, rfl⟩

/-- A pattern that goes on with the characters of a class. -/
theorem munch_takeWhile {p : Pattern} (front : List Char) {cs : List Char} {q : Char → Bool}
    (htold : told? (front ++ cs) = some p)
    (hmem : ∀ v, front ++ v ∈ p.language ↔ ∀ c ∈ v, q c)
    (hfront : ∀ v, v <+: front ++ cs → v ∈ p.language → front <+: v) :
    Munch (front ++ cs) (p.lexeme (front ++ cs.takeWhile q)) := by
  refine munch_of_told htold ((hmem _).mpr all_takeWhile)
    ((List.prefix_append_right_inj front).mpr (List.takeWhile_prefix q)) ?_
  intro v hv hmatch
  obtain ⟨v, rfl⟩ := hfront v hv hmatch
  have htaken := front_takeWhile ((List.prefix_append_right_inj front).mp hv)
    ((hmem v).mp hmatch)
  rw [List.length_append, List.length_append]
  exact Nat.add_le_add_left htaken.length_le _

/-- A pattern that starts with any character of one class and goes on with those of another. -/
theorem munch_class {p : Pattern} {c : Char} {q : Char → Bool} (hslash : c ≠ '/')
    (htold : ofStart? c = some p) (hmem : ∀ v, c :: v ∈ p.language ↔ ∀ d ∈ v, q d)
    (cs : List Char) : Munch (c :: cs) (p.lexeme (c :: cs.takeWhile q)) :=
  munch_takeWhile [c] ((Pattern.told?_cons hslash cs).trans htold) hmem
    fun _ hv hmatch => front_of_ne_nil hv (Pattern.ne_nil_of_mem_language hmatch)

/-! ## Strings -/

theorem Taken.cons_eq_iff {t : Taken} {c : Char} {whole : Bool} {text rest : List Char} :
    t.cons c = ⟨whole, c :: text, rest⟩ ↔ t = ⟨whole, text, rest⟩ := by
  obtain ⟨whole', text', rest'⟩ := t
  simp [Taken.cons]

/-- No further than the string, or its broken beginning, goes what may still become a string. -/
theorem length_le_takeString {cs v r : List Char} (hfront : v <+: cs)
    (h : takeString (v ++ r) = ⟨true, v ++ r, []⟩) : v.length ≤ (takeString cs).text.length := by
  fun_induction takeString cs generalizing v with
  | case1 => simp [List.prefix_nil.mp hfront]
  | case2 cs =>
    cases v with
    | nil => simp
    | cons c v =>
      obtain ⟨rfl, -⟩ := List.cons_prefix_cons.mp hfront
      simp only [List.cons_append, takeString, Taken.mk.injEq] at h
      simp_all
  | case3 => simpa using hfront.length_le
  | case4 cs =>
    rcases v with _ | ⟨c, _ | ⟨d, v⟩⟩
    · simp
    · simp
    · obtain ⟨rfl, hback⟩ := List.cons_prefix_cons.mp hfront
      obtain ⟨rfl, -⟩ := List.cons_prefix_cons.mp hback
      simp [takeString] at h
  | case5 c cs hnewline ih =>
    rcases v with _ | ⟨c, _ | ⟨d, v⟩⟩
    · simp
    · simp [Taken.cons]
    · obtain ⟨rfl, hback⟩ := List.cons_prefix_cons.mp hfront
      obtain ⟨rfl, hrest⟩ := List.cons_prefix_cons.mp hback
      rw [List.cons_append, List.cons_append, Pattern.takeString_escape hnewline,
        Taken.cons_eq_iff, Taken.cons_eq_iff] at h
      simpa [Taken.cons] using ih hrest h
  | case6 c cs hquote hend hnewline hescape ih =>
    cases v with
    | nil => simp
    | cons d v =>
      obtain ⟨rfl, hrest⟩ := List.cons_prefix_cons.mp hfront
      have hd := Pattern.ne_escape hend hescape
      rw [List.cons_append, Pattern.takeString_cons hquote hd, Taken.cons_eq_iff] at h
      simpa [Taken.cons] using ih hrest h

/-- A string that is broken off can still be closed. -/
theorem exists_takeString_closed (cs : List Char) : ∃ r,
    takeString ((takeString cs).text ++ r) = ⟨true, (takeString cs).text ++ r, []⟩ := by
  fun_induction takeString cs with
  | case1 => exact ⟨['"'], rfl⟩
  | case2 => exact ⟨[], rfl⟩
  | case3 | case4 => exact ⟨['\\', '"'], rfl⟩
  | case5 c cs hnewline ih =>
    obtain ⟨r, hr⟩ := ih
    refine ⟨r, (Pattern.takeString_escape hnewline _).trans ?_⟩
    exact Taken.cons_eq_iff.mpr (Taken.cons_eq_iff.mpr hr)
  | case6 c cs hquote hend hnewline hescape ih =>
    obtain ⟨r, hr⟩ := ih
    have hc := Pattern.ne_escape hend hescape
    refine ⟨r, (Pattern.takeString_cons hquote hc _).trans ?_⟩
    exact Taken.cons_eq_iff.mpr hr

theorem isString_of_begins {v : List Char} (h : Begins ('"' :: v)) :
    ∃ r, takeString (v ++ r) = ⟨true, v ++ r, []⟩ := by
  obtain ⟨p, r, htold, hp⟩ := told?_of_begins (by simp) (by simp) h
  obtain rfl : Pattern.string = p := Option.some.inj htold
  obtain ⟨body, hbody, hclosed⟩ := Pattern.mem_string.mp hp
  obtain rfl : v ++ r = body := List.cons_inj_right _ |>.mp hbody
  exact ⟨r, hclosed⟩

theorem munch_string (cs : List Char) :
    Munch ('"' :: cs) (Lexeme.ofTaken ['"'] (takeString cs)
      fun text => .token (.string (String.ofList text))).1 := by
  have hlongest {v : List Char} (hv : v <+: '"' :: cs) (hbegins : Begins v) :
      v.length ≤ ('"' :: (takeString cs).text).length := by
    cases v with
    | nil => simp
    | cons c v =>
      obtain ⟨rfl, hback⟩ := List.cons_prefix_cons.mp hv
      obtain ⟨r, hr⟩ := isString_of_begins hbegins
      exact Nat.succ_le_succ (length_le_takeString hback hr)
  refine munch_ofTaken (p := .string) ['"'] rfl (takeString_append cs) (by simp) ?_ ?_ ?_
  · exact fun hwhole => Pattern.mem_string.mpr (isString_takeString hwhole)
  · intro v hv hmatch
    refine ⟨?_, hlongest hv ⟨[], .string, by rwa [List.append_nil]⟩⟩
    obtain ⟨body, rfl, hbody⟩ := Pattern.mem_string.mp hmatch
    obtain ⟨-, rest, rfl⟩ := List.cons_prefix_cons.mp hv
    have hstop := @takeString_stop body (by rw [hbody]) rest
    simp [hbody] at hstop
    simp [hstop]
  · intro _
    obtain ⟨r, hr⟩ := exists_takeString_closed cs
    exact ⟨⟨r, .string, Pattern.mem_string.mpr ⟨_, rfl, hr⟩⟩, fun v => hlongest⟩

/-! ## Numbers -/

theorem front_takeExponent {exponent : List Char} (h : IsExponent exponent) (rest : List Char) :
    exponent <+: (takeExponent (exponent ++ rest)).1 := by
  rcases h with rfl | ⟨e, sign, ds, he, hsign, hds, rfl⟩
  · exact List.nil_prefix
  · have htext : e :: sign ++ ds ++ rest = e :: (sign ++ (ds ++ rest)) := by simp
    rw [htext, takeExponent, if_pos (by simpa using he), takeSign_stop hsign hds,
      List.takeWhile_append_of_pos hds.2]
    split
    · next hnone => exact absurd (List.append_eq_nil_iff.mp hnone).1 hds.1
    · simp

theorem front_takeFraction {fraction : List Char} (h : IsFraction fraction) (rest : List Char) :
    fraction <+: (takeFraction (fraction ++ rest)).1 := by
  rcases h with rfl | ⟨ds, hds, rfl⟩
  · exact List.nil_prefix
  · rw [List.cons_append, takeFraction, List.takeWhile_append_of_pos hds.2]
    split
    · next hnone => exact absurd (List.append_eq_nil_iff.mp hnone).1 hds.1
    · simp

/-- An exponent goes on with neither digits nor a fraction in front of it. -/
theorem stops_of_exponent {exponent : List Char} (h : IsExponent exponent) (hne : exponent ≠ [])
    (rest : List Char) : Stops (fun c => c.isDigit || c = '.') (exponent ++ rest) := by
  obtain ⟨e, sign, ds, he, -, -, rfl⟩ := h.resolve_left hne
  intro c hc
  obtain rfl : e = c := by simpa using hc
  rcases he with rfl | rfl <;> rfl

theorem front_fraction_exponent {fraction exponent : List Char} (hfraction : IsFraction fraction)
    (hexponent : IsExponent exponent) (rest : List Char) :
    let taken := takeFraction (fraction ++ (exponent ++ rest))
    fraction ++ exponent <+: taken.1 ++ (takeExponent taken.2).1 := by
  by_cases hne : exponent = []
  · subst hne
    rw [List.append_nil, List.nil_append]
    exact (front_takeFraction hfraction rest).trans (List.prefix_append _ _)
  · rw [takeFraction_stop hfraction (stops_of_exponent hexponent hne rest)]
    exact (List.prefix_append_right_inj fraction).mpr (front_takeExponent hexponent rest)

/-- Behind its digits a number that goes on stops the digits. -/
theorem stops_digits {fraction exponent : List Char} (hfraction : IsFraction fraction)
    (hexponent : IsExponent exponent) (hne : fraction ++ exponent ≠ []) (rest : List Char) :
    Stops Char.isDigit (fraction ++ (exponent ++ rest)) := by
  rcases hfraction with rfl | ⟨ds, -, rfl⟩
  · exact stops_mono (stops_of_exponent hexponent hne rest) fun c hc => by simp [hc]
  · intro c hc
    obtain rfl : '.' = c := by simpa using hc
    rfl

/-- A number at the front is taken, and perhaps more. -/
theorem front_takeNumber {v : List Char} (h : IsNumber v) (rest : List Char) :
    (takeNumber (v ++ rest)).whole ∧ v <+: (takeNumber (v ++ rest)).text := by
  obtain ⟨sign, ds, fraction, exponent, hsign, hds, hfraction, hexponent, rfl⟩ := h
  rw [show sign ++ (ds ++ (fraction ++ exponent)) ++ rest =
      sign ++ (ds ++ (fraction ++ (exponent ++ rest))) by simp only [List.append_assoc], takeNumber,
    takeSign_stop hsign hds]
  by_cases hne : fraction ++ exponent = []
  · -- The digits may go on behind those of the number.
    obtain ⟨rfl, rfl⟩ := List.append_eq_nil_iff.mp hne
    simp only [List.nil_append, List.takeWhile_append_of_pos hds.2]
    split
    · next hnone => exact absurd (List.append_eq_nil_iff.mp hnone).1 hds.1
    · simp
  · have hstop := stops_digits hfraction hexponent hne rest
    simp only [takeWhile_stop hds.2 hstop, dropWhile_stop hds.2 hstop]
    split
    · exact absurd rfl hds.1
    · refine ⟨rfl, ?_⟩
      have hback := front_fraction_exponent hfraction hexponent rest
      simpa only [List.append_assoc, List.prefix_append_right_inj] using hback

theorem isDigit_of_sign {c d : Char} {w : List Char} (hc : c = '+' ∨ c = '-')
    (h : IsNumber (c :: d :: w)) : d.isDigit := by
  obtain ⟨sign, ds, fraction, exponent, hsign, ⟨hne, hdigits⟩, -, -, htext⟩ := h
  obtain ⟨first, ds, rfl⟩ := List.exists_cons_of_ne_nil hne
  have hfirst := hdigits first List.mem_cons_self
  obtain ⟨hplus, hminus⟩ := isDigit_ne_sign hfirst
  rcases hsign with rfl | rfl | rfl <;> simp_all

/-- Without digits only the sign is taken. -/
theorem takeNumber_of_not_whole {cs : List Char} (h : (takeNumber cs).whole = false) :
    (takeNumber cs).text = (takeSign cs).1 := by
  rw [takeNumber] at h ⊢
  split at h
  · rfl
  · simp at h

theorem takeSign_cons {c : Char} {cs : List Char} (h : (takeSign (c :: cs)).1 ≠ []) :
    (c = '+' ∨ c = '-') ∧ (takeSign (c :: cs)).1 = [c] := by
  unfold takeSign at h ⊢
  split <;> simp_all

/-- A sign and a digit begin a number. -/
theorem mem_number_of_sign {c d : Char} (hc : c = '+' ∨ c = '-') (hd : d.isDigit) :
    [c, d] ∈ Pattern.number.language := by
  refine Pattern.mem_number.mpr ⟨[c], [d], [], [], ?_, ⟨by simp, by simpa using hd⟩, .inl rfl,
    .inl rfl, rfl⟩
  simpa [IsSign] using hc

theorem munch_number {c : Char} (cs : List Char) (h : c.isDigit || c = '+' || c = '-') :
    Munch (c :: cs) (Lexeme.ofTaken [] (takeNumber (c :: cs))
      fun text => .token (.number (String.ofList text))).1 := by
  have hc : c.isDigit ∨ c = '+' ∨ c = '-' := by simpa [or_assoc] using h
  obtain ⟨hspacing, hstart, hhash, hquote, hslash⟩ := begins_number_only hc
  have htold : ofStart? c = some .number := by
    rw [ofStart?, if_neg hspacing, if_neg hstart, if_neg hhash, if_neg hquote, if_pos h]
  have hne := Lexeme.takeNumber_text_ne_nil cs h
  have hfind {v : List Char} (hv : v <+: c :: cs) (hmatch : v ∈ Pattern.number.language) :
      (takeNumber (c :: cs)).whole ∧ v.length ≤ (takeNumber (c :: cs)).text.length := by
    obtain ⟨rest, hrest⟩ := hv
    rw [← hrest]
    exact (front_takeNumber (Pattern.mem_number.mp hmatch) rest).imp_right List.IsPrefix.length_le
  refine munch_ofTaken (p := .number) [] ((Pattern.told?_cons hslash cs).trans htold)
    (takeNumber_append (c :: cs)) hne ?_ (fun v => hfind) ?_
  · exact fun hwhole => Pattern.mem_number.mpr (isNumber_takeNumber hwhole)
  · intro hwhole
    have htext := takeNumber_of_not_whole hwhole
    rw [htext] at hne
    obtain ⟨hsign, hsingle⟩ := takeSign_cons hne
    rw [List.nil_append, List.nil_append, htext, hsingle]
    refine ⟨⟨['0'], .number, mem_number_of_sign hsign rfl⟩, ?_⟩
    rintro (_ | ⟨a, _ | ⟨d, v⟩⟩) hv hbegins
    · simp
    · simp
    · -- A digit behind the sign would make a number.
      obtain ⟨rfl, -⟩ := List.cons_prefix_cons.mp hv
      obtain ⟨p, rest, hp, hmatch⟩ := told?_of_begins (by simp) (by simp) hbegins
      rw [Pattern.told?_cons hslash, htold] at hp
      obtain rfl := Option.some.inj hp
      have hdigit := isDigit_of_sign hsign (Pattern.mem_number.mp hmatch)
      have hshort := (List.prefix_append [a, d] v).trans hv
      have hfound := (hfind hshort (mem_number_of_sign hsign hdigit)).1
      simp [hwhole] at hfound

/-! ## Comments -/

/-- A comment that is not closed can still be closed at the end. -/
theorem closes_of_not_whole {cs : List Char} (h : (takeComment cs).whole = false) :
    (takeComment cs).text = cs ∧ Closes (cs ++ ['*', '/']) := by
  fun_induction takeComment cs with
  | case1 => exact ⟨rfl, closes_mark⟩
  | case2 => simp at h
  | case3 c cs hend ih =>
    obtain ⟨htext, hcloses⟩ := ih h
    refine ⟨congrArg (c :: ·) htext, closes_cons ?_ hcloses⟩
    cases cs with
    | nil => simp
    | cons d ds => simp_all

theorem munch_blockComment (cs : List Char) :
    Munch ('/' :: '*' :: cs) (Lexeme.ofTaken ['/', '*'] (takeComment cs) .comment).1 := by
  refine munch_ofTaken (p := .blockComment) ['/', '*'] rfl (takeComment_append cs) (by simp)
    ?_ ?_ ?_
  · intro hwhole
    have hbody := Pattern.closes_commentBody (Pattern.text_takeComment_mem hwhole)
    exact Pattern.mem_blockComment.mpr ⟨_, hbody, rfl⟩
  · intro v hv hmatch
    obtain ⟨body, hbody, rfl⟩ := Pattern.mem_blockComment.mp hmatch
    obtain ⟨-, hv⟩ := List.cons_prefix_cons.mp hv
    obtain ⟨-, rest, rfl⟩ := List.cons_prefix_cons.mp hv
    simp [hbody.append rest]
  · intro hwhole
    obtain ⟨htext, hcloses⟩ := closes_of_not_whole hwhole
    rw [htext]
    refine ⟨⟨['*', '/'], .blockComment, Pattern.mem_blockComment.mpr ⟨_, hcloses, rfl⟩⟩, ?_⟩
    exact fun v hv _ => hv.length_le

/-- Where no pattern is told, only a slash goes on. -/
theorem front_slash_of_told {cs v : List Char} (htold : told? cs = none) (hv : v <+: cs)
    (h : Begins v) : v = [] ∨ v = ['/'] := by
  by_contra hneither
  rw [not_or] at hneither
  obtain ⟨p, -, htold', -⟩ := told?_of_begins hneither.1 hneither.2 h
  obtain ⟨rest, rfl⟩ := hv
  rw [Pattern.told?_front hneither.1 hneither.2, htold'] at htold
  simp at htold

theorem not_matches_of_told_none {cs : List Char} (htold : told? cs = none) :
    ∀ v, v <+: cs → ¬ Matches v := by
  rintro v hv ⟨p, hp⟩
  simp [told?_of_front hv hp] at htold

theorem munch_slash (cs : List Char) : Munch ('/' :: cs) (Lexeme.ofSlash cs).1 := by
  fun_cases Lexeme.ofSlash cs with
  | case1 cs =>
    refine munch_takeWhile (p := .lineComment) ['/', '/'] rfl ?_ ?_
    · intro v
      rw [Pattern.mem_lineComment]
      simp
    · intro v hv hmatch
      obtain ⟨body, -, rfl⟩ := Pattern.mem_lineComment.mp hmatch
      exact List.prefix_append ['/', '/'] body
  | case2 cs => exact munch_blockComment cs
  | case3 cs hline hblock =>
    have htold : told? ('/' :: cs) = none := by
      rw [told?]
      · rfl
      · exact fun tail _ => hline tail
      · exact fun tail _ => hblock tail
    have hbegins : Begins ['/'] := ⟨['/'], .lineComment, Pattern.mem_lineComment.mpr ⟨[], by simp⟩⟩
    refine munch_unrecognized (by simp) (not_matches_of_told_none htold) ⟨⟨cs, rfl⟩, hbegins, ?_⟩
    intro v hv hv'
    rcases front_slash_of_told htold hv hv' with rfl | rfl <;> simp

/-! ## Delimiters, and what begins nothing -/

theorem ofMark?_of_pattern {c : Char} {p : Pattern} (h : Pattern.ofMark? c = some p) :
    ∃ t, Token.ofMark? c = some t ∧ p.lexeme [c] = .token t ∧ ∀ v, v ∈ p.language ↔ v = [c] := by
  unfold Pattern.ofMark? at h
  split at h <;> cases h <;> exact ⟨_, rfl, rfl, fun _ => Iff.rfl⟩

theorem ofMark?_of_no_pattern {c : Char} (h : Pattern.ofMark? c = none) :
    Token.ofMark? c = none := by
  unfold Pattern.ofMark? at h
  split at h <;> simp_all [Token.ofMark?]

theorem munch_mark {c : Char} (hslash : c ≠ '/') (htold : ofStart? c = Pattern.ofMark? c)
    (cs : List Char) : Munch (c :: cs) (match Token.ofMark? c with
      | some mark => (.token mark, cs)
      | none => (.unrecognized [c], cs) : Lexeme × List Char).1 := by
  rw [← Pattern.told?_cons hslash cs] at htold
  cases hmark : Pattern.ofMark? c with
  | some p =>
    obtain ⟨t, ht, hlexeme, hp⟩ := ofMark?_of_pattern hmark
    rw [ht]
    show Munch (c :: cs) (.token t)
    rw [← hlexeme]
    refine munch_of_told (htold.trans hmark) ((hp _).mpr rfl) ⟨cs, rfl⟩ ?_
    rintro v - hv
    rw [(hp v).mp hv]
  | none =>
    rw [ofMark?_of_no_pattern hmark]
    have htold := htold.trans hmark
    -- Nothing begins with the character, so it is left over by itself.
    have hlongest : LongestFront Begins (c :: cs) [] := by
      refine ⟨⟨c :: cs, rfl⟩, ⟨_, .comma, rfl⟩, ?_⟩
      intro v hv hbegins
      rcases front_slash_of_told htold hv hbegins with rfl | rfl
      · simp
      · obtain ⟨rfl, -⟩ := List.cons_prefix_cons.mp hv
        exact absurd rfl hslash
    exact .unmatched (by simp) (not_matches_of_told_none htold) hlongest

/-! ## Every lexeme -/

theorem munch_first (c : Char) (cs : List Char) : Munch (c :: cs) (Lexeme.first c cs).1 := by
  -- One case for each kind of lexeme, in the order in which they are tried.
  unfold Lexeme.first
  by_cases hspacing : isSpacing c
  · simp only [if_pos hspacing]
    refine munch_class (p := .blanks) ?_ (by rw [ofStart?, if_pos hspacing]) ?_ cs
    · rintro rfl
      simp [isSpacing] at hspacing
    · simp [Pattern.mem_blanks, hspacing]
  simp only [if_neg hspacing]
  by_cases hstart : isIdentStart c
  · simp only [if_pos hstart]
    have htold : ofStart? c = some .identifier := by
      rw [ofStart?, if_neg hspacing, if_pos hstart]
    refine munch_class (p := .identifier) ?_ htold ?_ cs
    · rintro rfl
      simp [isIdentStart] at hstart
    · simp [Pattern.mem_identifier, isIdentifier, hstart]
  simp only [if_neg hstart]
  by_cases hhash : c = '#'
  · simp only [if_pos hhash]
    subst hhash
    exact munch_class (p := .hexColor) (by simp) rfl (by simp [Pattern.mem_hexColor, IsHexColor]) cs
  simp only [if_neg hhash]
  by_cases hquote : c = '"'
  · simp only [if_pos hquote]
    subst hquote
    exact munch_string cs
  simp only [if_neg hquote]
  by_cases hslash : c = '/'
  · simp only [if_pos hslash]
    subst hslash
    exact munch_slash cs
  simp only [if_neg hslash]
  by_cases hnumber : c.isDigit || c = '+' || c = '-'
  · simp only [if_pos hnumber]
    exact munch_number cs hnumber
  simp only [if_neg hnumber]
  refine munch_mark hslash ?_ cs
  rw [ofStart?, if_neg hspacing, if_neg hstart, if_neg hhash, if_neg hquote, if_neg hnumber]

/-! ## Sources -/

/-- What a text says by the rule, if it begins at the byte `offset`. Lexing
resumes behind each lexeme, and blanks and comments are skipped. -/
inductive Munched : Nat → List Char → List (Placed Lexeme) → Prop
  | done {offset : Nat} : Munched offset [] []
  | emitted {offset : Nat} {cs : List Char} {l : Lexeme} {items : List (Placed Lexeme)} :
      Munch cs l → l.isSkipped = false →
      Munched (offset + byteLength l.text) (cs.drop l.text.length) items →
      Munched offset cs (⟨l, ⟨offset, offset + byteLength l.text⟩⟩ :: items)
  | skipped {offset : Nat} {cs : List Char} {l : Lexeme} {items : List (Placed Lexeme)} :
      Munch cs l → l.isSkipped = true →
      Munched (offset + byteLength l.text) (cs.drop l.text.length) items →
      Munched offset cs items

theorem not_munch_nil (l : Lexeme) : ¬ Munch [] l := by
  rintro (⟨hw, hp, -⟩ | ⟨hne, -, -⟩)
  · exact Pattern.ne_nil_of_mem_language hp (List.prefix_nil.mp hw.front)
  · exact hne rfl

theorem Munched.unique {offset : Nat} {cs : List Char} {items items' : List (Placed Lexeme)}
    (h : Munched offset cs items) (h' : Munched offset cs items') : items = items' := by
  induction h generalizing items' with
  | done =>
    cases h' with
    | done => rfl
    | emitted hmunch _ _ => exact absurd hmunch (not_munch_nil _)
    | skipped hmunch _ _ => exact absurd hmunch (not_munch_nil _)
  | emitted hmunch hskipped _ ih =>
    cases h' with
    | done => exact absurd hmunch (not_munch_nil _)
    | emitted hmunch' _ hrest =>
      obtain rfl := hmunch.unique hmunch'
      rw [ih hrest]
    | skipped hmunch' hskipped' _ =>
      obtain rfl := hmunch.unique hmunch'
      simp [hskipped] at hskipped'
  | skipped hmunch hskipped _ ih =>
    cases h' with
    | done => exact absurd hmunch (not_munch_nil _)
    | emitted hmunch' hskipped' _ =>
      obtain rfl := hmunch.unique hmunch'
      simp [hskipped] at hskipped'
    | skipped hmunch' _ hrest =>
      obtain rfl := hmunch.unique hmunch'
      exact ih hrest

theorem munched_lexFrom (offset : Nat) (cs : List Char) :
    Munched offset cs (lexFrom offset cs) := by
  fun_induction lexemes cs generalizing offset with
  | case1 =>
    rw [lexFrom_nil]
    exact .done
  | case2 c cs ih =>
    have hmunch := munch_first c cs
    have hdrop : (c :: cs).drop (Lexeme.first c cs).1.text.length = (Lexeme.first c cs).2 := by
      conv_lhs => rw [← Lexeme.first_append c cs]
      exact List.drop_left
    have hrest := ih (offset + byteLength (Lexeme.first c cs).1.text)
    rw [← hdrop] at hrest
    rw [lexFrom_cons, Lexeme.placed, ← hdrop]
    cases hskipped : (Lexeme.first c cs).1.isSkipped with
    | true => exact .skipped hmunch hskipped hrest
    | false => exact .emitted hmunch hskipped hrest

/-- What a source says is what the rule gives for it, and nothing else. -/
theorem lex_eq_iff_munched (source : String) (items : List (Placed Lexeme)) :
    lex source = items ↔ Munched 0 source.toList items := by
  have hlex : Munched 0 source.toList (lex source) := munched_lexFrom 0 source.toList
  constructor
  · rintro rfl
    exact hlex
  · exact hlex.unique

end UiMarkup
