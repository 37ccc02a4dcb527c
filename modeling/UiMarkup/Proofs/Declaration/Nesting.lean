import UiMarkup.Proofs.Declaration.Places

/-!
# How spans are nested

The spans in a declaration are those of tokens that stand side by side among
its own. So they lie in its span, and those of its items lie apart.
-/

namespace UiMarkup

/-! ## Spans -/

/-- The second span lies in the first one. -/
def Span.Holds (s t : Span) : Prop := s.start ≤ t.start ∧ t.stop ≤ s.stop

/-- The first span ends before the second one starts. -/
def Span.Precedes (s t : Span) : Prop := s.stop ≤ t.start

namespace Assignment

def spans (a : Assignment) : List Span := [a.span, a.name.span, a.value.span]

structure Nested (a : Assignment) : Prop where
  name : a.span.Holds a.name.span
  value : a.span.Holds a.value.span
  apart : a.name.span.Precedes a.value.span

end Assignment

namespace Declaration

/-- The kind, and the class if there is one. -/
def headingSpans (d : Declaration) : List Span :=
  d.kind.span :: (d.styleClass.map Placed.span).toList

def itemSpans (d : Declaration) : List Span :=
  d.assignments.map Assignment.span ++ d.children.map Declaration.span

/-- The spans of a declaration and of what it assigns. -/
def spans (d : Declaration) : List Span :=
  d.span :: d.headingSpans ++ d.assignments.flatMap Assignment.spans

structure Nested (d : Declaration) : Prop where
  heading : ∀ s ∈ d.headingSpans, d.span.Holds s
  items : ∀ s ∈ d.itemSpans, d.span.Holds s
  assignment : ∀ a ∈ d.assignments, a.Nested
  headings_apart : d.headingSpans.Pairwise Span.Precedes
  heading_first : ∀ s ∈ d.headingSpans, ∀ t ∈ d.itemSpans, s.Precedes t
  assignments_apart : d.assignments.Pairwise fun a b => a.span.Precedes b.span
  children_apart : d.children.Pairwise fun c e => c.span.Precedes e.span
  items_apart : ∀ a ∈ d.assignments, ∀ c ∈ d.children,
    a.span.Precedes c.span ∨ c.span.Precedes a.span

end Declaration

namespace Grammar

/-! ## Parts -/

/-- The span of some of the tokens, side by side. -/
def HasPart (ts : List (Placed Token)) (s : Span) : Prop := ∃ us, us <:+: ts ∧ Spans us s

theorem HasPart.within {ts us : List (Placed Token)} {s : Span} (h : HasPart us s)
    (hus : us <:+: ts) : HasPart ts s := by
  obtain ⟨vs, hvs, hs⟩ := h
  exact ⟨vs, hvs.trans hus, hs⟩

theorem spans_singleton (t : Placed Token) : Spans [t] t.span :=
  ⟨⟨t, [], rfl, rfl⟩, [], t, rfl, rfl⟩

theorem spans_value {ts : List (Placed Token)} {v : Placed String} (h : Value ts v) :
    Spans ts v.span := by
  cases h with
  | scalar => exact spans_singleton _
  | tuple => exact ⟨⟨_, _, rfl, rfl⟩, _, _, rfl, rfl⟩

theorem holds_of_part {ts : List (Placed Token)} {s t : Span} (hs : Spans ts s)
    (hts : InOrder ts) (ht : HasPart ts t) : s.Holds t := by
  obtain ⟨us, hus, ht⟩ := ht
  exact hs.inside ht hts hus

theorem precedes_of_parts {ts us : List (Placed Token)} {s t : Span} (hts : InOrder (ts ++ us))
    (hs : HasPart ts s) (ht : HasPart us t) : s.Precedes t := by
  obtain ⟨vs, hvs, hs⟩ := hs
  obtain ⟨ws, hws, ht⟩ := ht
  exact hs.apart ht hts hvs hws

/-! ## Assignments -/

section assigns

variable {ts : List (Placed Token)} {a : Assignment}

theorem hasPart_of_assigns (h : Assigns ts a) {s : Span} (hs : s ∈ a.spans) : HasPart ts s := by
  rcases List.mem_cons.mp hs with rfl | hs
  · exact ⟨ts, List.infix_rfl, spans_assigns h⟩
  cases h with
  | @mk name colon semicolon text ts v _ _ hvalue _ =>
    rcases List.mem_cons.mp hs with rfl | hs
    · exact ⟨[name], ⟨[], colon :: ts ++ [semicolon], rfl⟩, spans_singleton name⟩
    · obtain rfl := List.mem_singleton.mp hs
      exact ⟨ts, ⟨[name, colon], [semicolon], rfl⟩, spans_value hvalue⟩

theorem nested_of_assigns (h : Assigns ts a) (hts : InOrder ts) : a.Nested := by
  have hspan := spans_assigns h
  have hholds {s : Span} (hs : s ∈ a.spans) := holds_of_part hspan hts (hasPart_of_assigns h hs)
  refine ⟨hholds (by simp [Assignment.spans]), hholds (by simp [Assignment.spans]), ?_⟩
  cases h with
  | @mk name colon semicolon text ts v _ _ hvalue _ =>
    have hcut : InOrder ([name] ++ (colon :: ts ++ [semicolon])) := hts
    refine precedes_of_parts hcut ⟨[name], List.infix_rfl, spans_singleton name⟩ ?_
    exact ⟨ts, ⟨[colon], [semicolon], rfl⟩, spans_value hvalue⟩

end assigns

/-! ## Declarations -/

section declares

variable {ts : List (Placed Token)} {d : Declaration}

theorem exists_body (h : Declares ts d) :
    ∃ us, us <:+: ts ∧ Body us d.assignments d.children := by
  cases h with
  | mk _ _ hbody _ => exact ⟨_, infix_braces _ _ _ _, hbody⟩

/-- The heading stands in front of the items. -/
theorem exists_halves (h : Declares ts d) : ∃ front back, ts = front ++ back ∧
    (∀ s ∈ d.headingSpans, HasPart front s) ∧ ∀ s ∈ d.itemSpans, HasPart back s := by
  cases h with
  | @mk hs us open_ close kind styleClass as ds hheading _ hbody _ =>
    refine ⟨hs, open_ :: us ++ [close], by simp, ?_, ?_⟩
    · intro s hs
      cases hheading with
      | @plain kind =>
        obtain rfl := List.mem_singleton.mp hs
        exact ⟨[kind], List.infix_rfl, spans_singleton kind⟩
      | @styled kind dot cls =>
        rcases List.mem_cons.mp hs with rfl | hs
        · exact ⟨[kind], ⟨[], [dot, cls], rfl⟩, spans_singleton kind⟩
        · obtain rfl := List.mem_singleton.mp hs
          exact ⟨[cls], ⟨[kind, dot], [], rfl⟩, spans_singleton cls⟩
    · intro s hs
      have hinner : us <:+: open_ :: us ++ [close] := ⟨[open_], [close], rfl⟩
      rcases List.mem_append.mp hs with hs | hs
      · obtain ⟨a, ha, rfl⟩ := List.mem_map.mp hs
        obtain ⟨vs, hvs, hassigns⟩ := part_assigns hbody a ha
        exact ⟨vs, hvs.trans hinner, spans_assigns hassigns⟩
      · obtain ⟨c, hc, rfl⟩ := List.mem_map.mp hs
        obtain ⟨vs, hvs, hdeclares⟩ := part_body hbody c (mem_preorderAll hc)
        exact ⟨vs, hvs.trans hinner, spans_declares hdeclares⟩

theorem hasPart_of_declares (h : Declares ts d) {s : Span} (hs : s ∈ d.spans) :
    HasPart ts s := by
  rcases List.mem_append.mp hs with hs | hs
  · rcases List.mem_cons.mp hs with rfl | hs
    · exact ⟨ts, List.infix_rfl, spans_declares h⟩
    · obtain ⟨front, back, rfl, hheading, -⟩ := exists_halves h
      exact (hheading s hs).within List.infix_append_left
  · obtain ⟨a, ha, hs⟩ := List.mem_flatMap.mp hs
    obtain ⟨us, hus, hassigns⟩ := part_assignment h ha
    exact (hasPart_of_assigns hassigns hs).within hus

theorem headings_apart (h : Declares ts d) (hts : InOrder ts) :
    d.headingSpans.Pairwise Span.Precedes := by
  cases h with
  | @mk hs us open_ close kind styleClass as ds hheading _ _ _ =>
    cases hheading with
    | plain => exact List.pairwise_singleton _ _
    | @styled kind dot cls =>
      refine List.pairwise_pair.mpr ?_
      have hcut : InOrder ([kind] ++ (dot :: cls :: open_ :: us ++ [close])) := hts
      refine precedes_of_parts hcut ⟨[kind], List.infix_rfl, spans_singleton kind⟩ ?_
      exact ⟨[cls], ⟨[dot], open_ :: us ++ [close], rfl⟩, spans_singleton cls⟩

theorem nested_of_declares (h : Declares ts d) (hts : InOrder ts) : d.Nested := by
  have hspan := spans_declares h
  obtain ⟨us, hus, hitems⟩ := exists_body h
  obtain ⟨hassignments, hchildren, hboth⟩ := apart_body hitems (hts.sublist hus.sublist)
  obtain ⟨front, back, rfl, hheading, hbody⟩ := exists_halves h
  refine ⟨?_, ?_, ?_, headings_apart h hts, ?_, hassignments, hchildren, hboth⟩
  · exact fun s hs => holds_of_part hspan hts ((hheading s hs).within List.infix_append_left)
  · exact fun s hs => holds_of_part hspan hts ((hbody s hs).within List.infix_append_right)
  · intro a ha
    obtain ⟨us, hus, hassigns⟩ := part_assignment h ha
    exact nested_of_assigns hassigns (hts.sublist hus.sublist)
  · exact fun s hs t ht => precedes_of_parts hts (hheading s hs) (hbody t ht)

end declares

end Grammar

end UiMarkup
