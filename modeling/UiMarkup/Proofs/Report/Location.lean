import UiMarkup.Proofs.Check.Outcome
import UiMarkup.Proofs.Report.Places
import UiMarkup.Proofs.Token.Spelling
import UiMarkup.Report.Layout

/-!
# The place that a report shows

The top of the frame of a report says a file, a line and a column. They can be
read off the text again, so the text shows one place. It is the place behind
as many characters as there are bytes in front of the error.
-/

namespace UiMarkup

/-! ## Texts of numbers -/

theorem isDigit_of_mem_toString {n : Nat} : ∀ c ∈ (toString n).toList, c.isDigit := by
  intro c hc
  rw [Nat.toString_eq_repr, Nat.toList_repr] at hc
  exact Nat.isDigit_of_mem_toDigits (by decide) (by decide) hc

theorem toString_toList_inj {n m : Nat} (h : (toString n).toList = (toString m).toList) :
    n = m := by
  simp only [Nat.toString_eq_repr, Nat.toList_repr] at h
  have hvalue := congrArg (Nat.ofDigitChars 10 · 0) h
  simpa only [Nat.ofDigitChars_ten_toDigits] using hvalue

/-! ## Pieces of a report -/

namespace Report

variable {r : Report} {lines : List SourceLine} {file drawn : String} {p q : Position}

theorem renderRuns_append (as bs : List Run) :
    renderRuns (as ++ bs) = renderRuns as ++ renderRuns bs := by
  simp [renderRuns, String.join_append]

theorem renderRuns_plain (text : String) : renderRuns [.plain text] = text := by
  simp [renderRuns, Run.render, Run.plain, Ink.code]

def titleText (r : Report) : String :=
  renderRuns ([⟨.blame, "Error:"⟩, .plain (" " ++ r.title)] ++ endLine)

/-- The corner of the frame, up to the bracket in front of the place. -/
def cornerText : String := renderRuns [⟨.frame, "╭"⟩, ⟨.frame, "─"⟩, ⟨.frame, "["⟩]

/-- The top of the frame, with this place of a file in it. -/
def placeText (file : String) (width : Nat) (p : Position) : String :=
  blanks (width + 2) ++ cornerText ++ (file ++ ":" ++ toString p.line ++ ":" ++ toString p.column)
    ++ renderRuns [⟨.frame, "]"⟩]

/-- Below its title, the text of a report shows this place of a file. -/
def Locates (r : Report) (file : String) (p : Position) (drawn : String) : Prop :=
  ∃ width rest, drawn = r.titleText ++ placeText file width p ++ rest

/-! ## One place at most -/

theorem toList_blanks (n : Nat) : (blanks n).toList = List.replicate n ' ' := by
  rw [blanks, timesText, String.toList_join]
  induction n with
  | zero => rfl
  | succ n ih => rw [List.replicate_succ, List.flatMap_cons, ih]; rfl

theorem toList_placeText (file : String) (width : Nat) (p : Position) :
    (placeText file width p).toList =
      List.replicate (width + 2) ' ' ++ (cornerText.toList ++ (file.toList ++ ':' ::
        ((toString p.line).toList ++ ':' :: ((toString p.column).toList ++
          (renderRuns [⟨.frame, "]"⟩]).toList)))) := by
  simp [placeText, toList_blanks]

/-- A text shows one place of a file at most. -/
theorem Locates.unique (h : r.Locates file p drawn) (h' : r.Locates file q drawn) : p = q := by
  obtain ⟨width, rest, rfl⟩ := h
  obtain ⟨width', rest', hsame⟩ := h'
  have hlist := congrArg String.toList hsame
  simp only [String.toList_append, toList_placeText, List.append_assoc, List.append_cancel_left_eq,
    List.cons_append] at hlist
  have hblank (n : Nat) : ∀ c ∈ List.replicate n ' ', decide (c = ' ') := by simp
  -- The frame begins behind the blanks, and the numbers end where the marks behind them stand.
  have hcorner (cs : List Char) : Stops (· = ' ') (cornerText.toList ++ cs) := by
    simp [Stops, cornerText, renderRuns, Run.render, Ink.code]
  have hcolon (cs : List Char) : Stops Char.isDigit (':' :: cs) := by
    simp [Stops]
  have hclose (cs : List Char) : Stops Char.isDigit ((renderRuns [⟨.frame, "]"⟩]).toList ++ cs) := by
    simp [Stops, renderRuns, Run.render, Ink.code]
  obtain ⟨-, hplace⟩ := append_inj_of_stops (hblank _) (hblank _) (hcorner _) (hcorner _) hlist
  rw [List.append_cancel_left_eq, List.append_cancel_left_eq, List.cons.injEq] at hplace
  obtain ⟨hline, hrest⟩ := append_inj_of_stops isDigit_of_mem_toString isDigit_of_mem_toString
    (hcolon _) (hcolon _) hplace.2
  rw [List.cons.injEq] at hrest
  obtain ⟨hcolumn, -⟩ := append_inj_of_stops isDigit_of_mem_toString isDigit_of_mem_toString
    (hclose _) (hclose _) hrest.2
  cases p
  cases q
  rw [Position.mk.injEq]
  exact ⟨toString_toList_inj hline, toString_toList_inj hcolumn⟩

/-! ## The place of the error -/

theorem draw_eq (r : Report) (lines : List SourceLine) (file : String) :
    r.draw lines file = r.titleText ++ renderRuns (r.bodyRuns lines file) := by
  rw [draw, renderRuns_append]
  rfl

theorem not_locates_titleText : ¬ r.Locates file p r.titleText := by
  rintro ⟨width, rest, h⟩
  have hlist := congrArg String.toList h
  simp [String.toList_append, toList_placeText] at hlist

theorem renderRuns_placeRuns (file : String) (width : Nat) (l : SourceLine) (span : Span) :
    renderRuns (placeRuns file width l span) =
      placeText file width ⟨l.number, span.start - l.start + 1⟩ ++
        renderRuns (endLine ++ [.plain (blanks (width + 2)), ⟨.frame, "│"⟩] ++ endLine) := by
  have hruns : placeRuns file width l span =
      [.plain (blanks (width + 2))] ++ [⟨.frame, "╭"⟩, ⟨.frame, "─"⟩, ⟨.frame, "["⟩] ++
        [.plain (file ++ ":" ++ toString l.number ++ ":" ++ toString (span.start - l.start + 1))]
        ++ [⟨.frame, "]"⟩] ++ (endLine ++ [.plain (blanks (width + 2)), ⟨.frame, "│"⟩] ++ endLine) := by
    simp [placeRuns]
  rw [hruns]
  simp only [renderRuns_append, renderRuns_plain]
  rfl

theorem locates_of_lines {first last : SourceLine}
    (hfirst : SourceLine.at? lines r.span.start = some first)
    (hlast : SourceLine.at? lines (max (r.span.stop - 1) r.span.start) = some last) :
    r.Locates file ⟨first.number, r.span.start - first.start + 1⟩ (r.draw lines file) := by
  obtain ⟨below, hbody⟩ : ∃ below, r.bodyRuns lines file =
      placeRuns file (digitCount last.number) first r.span ++ below := by
    rw [bodyRuns, hfirst, hlast]
    simp only [List.append_assoc]
    exact ⟨_, rfl⟩
  rw [draw_eq, hbody, renderRuns_append, renderRuns_placeRuns]
  simp only [← String.append_assoc]
  exact ⟨_, _, String.append_assoc⟩

/-- A report shows a place if the error begins and ends on lines of the source. -/
theorem locates_draw_iff :
    r.Locates file p (r.draw lines file) ↔
      SourceLine.place? lines r.span.start = some p ∧
        (SourceLine.place? lines (max (r.span.stop - 1) r.span.start)).isSome := by
  cases hfirst : SourceLine.at? lines r.span.start with
  | none =>
    have hdraw : r.draw lines file = r.titleText := by
      rw [draw_eq, bodyRuns, hfirst]
      exact String.append_empty
    rw [hdraw]
    exact iff_of_false not_locates_titleText (by simp [SourceLine.place?, hfirst])
  | some first =>
    cases hlast : SourceLine.at? lines (max (r.span.stop - 1) r.span.start) with
    | none =>
      have hdraw : r.draw lines file = r.titleText := by
        rw [draw_eq, bodyRuns, hfirst, hlast]
        exact String.append_empty
      rw [hdraw]
      exact iff_of_false not_locates_titleText (by simp [SourceLine.place?, hlast])
    | some last =>
      have hlocates := @locates_of_lines r lines file first last hfirst hlast
      simp only [SourceLine.place?, hfirst, hlast, Option.map_some, Option.some.injEq,
        Option.isSome_some, and_true]
      constructor
      · exact hlocates.unique
      · rintro rfl
        exact hlocates

end Report

/-! ## Where reports point -/

/-- The error of a source with one declaration, if no kind is registered. -/
theorem check_lone_kind {source kind : String} {span whole : Span}
    (h : Document.parse source 1 = .ok ⟨[⟨⟨kind, span⟩, none, [], [], whole⟩]⟩) :
    check ⟨.empty, .empty, none⟩ ⟨1, none⟩ source =
      .error (.validation [⟨span, .unknownKind kind⟩]) := by
  have hsettled : check ⟨.empty, .empty, none⟩ ⟨1, none⟩ source = _ := check_of_parse h
  rw [hsettled]
  rfl

/-- **A report points behind as many characters as there are bytes in front of its error.** It
shows a place if the source has so many characters. It is the place of the error in the source if
what is in front of the error has neither a character of several bytes nor a line end that is no
newline. -/
theorem CheckError.draw_points (e : CheckError) (source file : String) {r : Report}
    (hr : r ∈ e.reports) (hspan : r.span.Within source.toList) :
    let drawn := r.draw (SourceLine.ofSource source.toList) file
    (∃ above below, e.draw source file = above ++ drawn ++ below) ∧
    ((∃ p, r.Locates file p drawn) ↔
      max (r.span.stop - 1) r.span.start ≤ source.toList.length) ∧
    ∀ p, r.Locates file p drawn →
      p = Position.start.walk r.span.start source.toList ∧
      (p = Position.ofOffset source r.span.start ↔
        ∃ front back, source.toList = front ++ back ∧ r.span.start = byteLength front ∧
          (∀ c ∈ front, c.utf8Size = 1) ∧ SameLines front back) := by
  intro drawn
  have hlocates (p : Position) : r.Locates file p drawn ↔
      max (r.span.stop - 1) r.span.start ≤ source.toList.length ∧
        Position.start.walk r.span.start source.toList = p := by
    rw [Report.locates_draw_iff, SourceLine.place?_ofSource, SourceLine.place?_ofSource]
    split <;> split <;> simp <;> omega
  refine ⟨?_, ?_, fun p hp => ?_⟩
  · obtain ⟨before, behind, hreports⟩ := List.append_of_mem hr
    rw [CheckError.draw, hreports, List.map_append, List.map_cons, String.join_append,
      String.join_cons, ← String.append_assoc]
    exact ⟨_, _, rfl⟩
  · simp only [hlocates, exists_and_left, exists_eq', and_true]
  · obtain ⟨hle, rfl⟩ := (hlocates p).mp hp
    have hlength : r.span.start ≤ source.toList.length := by omega
    refine ⟨rfl, ?_, ?_⟩
    · intro hsame
      obtain ⟨front, back, hsource, hstart⟩ := hspan.start
      rw [hstart] at hsame hlength
      obtain ⟨hchars, hlines⟩ := (Position.walk_byteLength_eq_iff hsource hlength).mp hsame
      exact ⟨front, back, hsource, hstart, hchars, hlines⟩
    · rintro ⟨front, back, hsource, hstart, hchars, hlines⟩
      rw [hstart] at hlength ⊢
      exact (Position.walk_byteLength_eq_iff hsource hlength).mpr ⟨hchars, hlines⟩

/-- The comment in front of the error has ASCII characters only. -/
theorem draw_points_ascii :
    let source := "/* e */ a \x7b \x7d"
    let e : ValidationError := ⟨⟨8, 9⟩, .unknownKind "a"⟩
    check ⟨.empty, .empty, none⟩ ⟨1, none⟩ source = .error (.validation [e]) ∧
      e.report.Locates "main" (.ofOffset source 8)
        (e.report.draw (SourceLine.ofSource source.toList) "main") := by
  intro source e
  have hparse : Document.parse source 1 = .ok ⟨[⟨⟨"a", ⟨8, 9⟩⟩, none, [], [], ⟨8, 13⟩⟩]⟩ := by cbv
  have hstart : source.toList = "/* e */ ".toList ++ "a \x7b \x7d".toList := by decide +kernel
  have hstop : source.toList = "/* e */ a".toList ++ " \x7b \x7d".toList := by decide +kernel
  have hfront : 8 = byteLength "/* e */ ".toList := by decide +kernel
  have hkind : 9 = byteLength "/* e */ a".toList := by decide +kernel
  have hspan : (Span.mk 8 9).Within source.toList :=
    ⟨by decide, ⟨_, _, hstart, hfront⟩, ⟨_, _, hstop, hkind⟩⟩
  have hr : e.report ∈ (CheckError.validation [e]).reports := List.mem_singleton_self _
  obtain ⟨-, hshown, hplace⟩ := CheckError.draw_points (.validation [e]) source "main" hr hspan
  obtain ⟨p, hp⟩ := hshown.mpr (by decide +kernel)
  have hwalk : Position.start.walk 8 source.toList = .ofOffset source 8 := by decide +kernel
  have hsame : p = .ofOffset source 8 := (hplace p hp).1.trans hwalk
  exact ⟨check_lone_kind hparse, hsame ▸ hp⟩

/-- The comment has a character of two bytes, and the report shows the blank behind the kind. -/
theorem drawn_behind_error :
    ¬ ∀ (registry : Registry) (options : CheckOptions) (source file : String) (e : CheckError),
      check registry options source = .error e →
        ∀ r ∈ e.reports, r.span.Within source.toList →
          r.Locates file (.ofOffset source r.span.start)
            (r.draw (SourceLine.ofSource source.toList) file) := by
  intro hall
  let source := "/* é */ a \x7b \x7d"
  let e : ValidationError := ⟨⟨9, 10⟩, .unknownKind "a"⟩
  have hparse : Document.parse source 1 = .ok ⟨[⟨⟨"a", ⟨9, 10⟩⟩, none, [], [], ⟨9, 14⟩⟩]⟩ := by cbv
  have hstart : source.toList = "/* é */ ".toList ++ "a \x7b \x7d".toList := by decide +kernel
  have hstop : source.toList = "/* é */ a".toList ++ " \x7b \x7d".toList := by decide +kernel
  have hfront : 9 = byteLength "/* é */ ".toList := by decide +kernel
  have hkind : 10 = byteLength "/* é */ a".toList := by decide +kernel
  have hspan : (Span.mk 9 10).Within source.toList :=
    ⟨by decide, ⟨_, _, hstart, hfront⟩, ⟨_, _, hstop, hkind⟩⟩
  have hlocates := hall _ _ source "main" _ (check_lone_kind hparse) e.report
    (List.mem_singleton_self _) hspan
  have hplace := (Report.locates_draw_iff.mp hlocates).1
  rw [SourceLine.place?_ofSource] at hplace
  revert hplace
  decide +kernel

end UiMarkup
