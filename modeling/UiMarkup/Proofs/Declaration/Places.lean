import UiMarkup.Check.Assignment
import UiMarkup.Proofs.Declaration.Parsing
import UiMarkup.Proofs.Token.Places

/-!
# Where the parts of a tree stand

A part of a tree takes up tokens that stand side by side. So what is inside a
declaration stands inside its span, and of two declarations one stands inside
the other or wholly in front of it.
-/

namespace UiMarkup

/-! ## Tokens of a source -/

namespace TokenRun

theorem tokens_sublist (ls : List (Placed Lexeme)) :
    ((ofLexemes ls).tokens.map Placed.asLexeme).Sublist ls := by
  fun_induction ofLexemes ls with
  | case1 => exact .slnil
  | case2 t span ls ih => exact ih.cons_cons _
  | case3 text span ls => exact List.nil_sublist _
  | case4 text span ls ih => exact ih.cons _
  | case5 text span ls ih => exact ih.cons _

theorem mem_of_broken {ls : List (Placed Lexeme)} {text : Placed String}
    (h : (ofLexemes ls).broken = some text) :
    ⟨.unrecognized text.value.toList, text.span⟩ ∈ ls := by
  fun_induction ofLexemes ls with
  | case1 => simp at h
  | case2 t span ls ih => exact List.mem_cons_of_mem _ (ih h)
  | case3 cs span ls =>
    obtain rfl : ⟨String.ofList cs, span⟩ = text := by simpa using h
    simp
  | case4 cs span ls ih => exact List.mem_cons_of_mem _ (ih h)
  | case5 cs span ls ih => exact List.mem_cons_of_mem _ (ih h)

theorem inOrder_tokens (source : String) : InOrder (ofSource source).tokens := by
  have h := (inOrder_lex source).sublist (tokens_sublist (lex source))
  constructor
  · intro t ht
    exact h.start_lt_stop t.asLexeme (List.mem_map_of_mem ht)
  · exact List.pairwise_map.mp h.apart

theorem inOrder_of_lex {source : String} {ts : List (Placed Token)}
    (h : lex source = ts.map Placed.asLexeme) : InOrder ts := by
  have hts := inOrder_tokens source
  rwa [ofSource_eq_iff.mpr h] at hts

theorem within_of_mem_tokens {source : String} {t : Placed Token}
    (h : t ∈ (ofSource source).tokens) : t.span.Within source.toList :=
  within_of_mem_lex ((tokens_sublist (lex source)).subset (List.mem_map_of_mem h))

theorem within_of_broken {source : String} {text : Placed String}
    (h : (ofSource source).broken = some text) : text.span.Within source.toList :=
  within_of_mem_lex (mem_of_broken h)

end TokenRun

namespace Grammar

open Declaration (preorder preorderAll)

/-! ## Spans of tokens side by side -/

/-- From the start of the first token to the end of the last one. -/
structure Spans (ts : List (Placed Token)) (s : Span) : Prop where
  start : ∃ first rest, ts = first :: rest ∧ first.span.start = s.start
  stop : ∃ front last, ts = front ++ [last] ∧ last.span.stop = s.stop

theorem Spans.around {ts : List (Placed Token)} {s : Span} {t : Placed Token} (h : Spans ts s)
    (hts : InOrder ts) (ht : t ∈ ts) : s.start ≤ t.span.start ∧ t.span.stop ≤ s.stop := by
  obtain ⟨⟨first, rest, hfirst, hstart⟩, front, last, hlast, hstop⟩ := h
  have ht' := hts.start_lt_stop t ht
  constructor
  · rw [hfirst] at hts ht
    have hlt := hts.start_lt_stop first List.mem_cons_self
    rcases List.mem_cons.mp ht with rfl | ht
    · omega
    · have := (List.pairwise_cons.mp hts.apart).1 t ht
      omega
  · rw [hlast] at hts ht
    have hlt := hts.start_lt_stop last (by simp)
    rcases List.mem_append.mp ht with ht | ht
    · have := (List.pairwise_append.mp hts.apart).2.2 t ht last (by simp)
      omega
    · obtain rfl : t = last := by simpa using ht
      omega

theorem Spans.exists_start {ts : List (Placed Token)} {s : Span} (h : Spans ts s) :
    ∃ t ∈ ts, t.span.start = s.start := by
  obtain ⟨first, rest, rfl, hstart⟩ := h.start
  exact ⟨first, List.mem_cons_self, hstart⟩

theorem Spans.exists_stop {ts : List (Placed Token)} {s : Span} (h : Spans ts s) :
    ∃ t ∈ ts, t.span.stop = s.stop := by
  obtain ⟨front, last, rfl, hstop⟩ := h.stop
  exact ⟨last, by simp, hstop⟩

/-- A part of the tokens stands inside the span of them all. -/
theorem Spans.inside {ts us : List (Placed Token)} {s s' : Span} (h : Spans ts s)
    (hpart : Spans us s') (hts : InOrder ts) (hus : us <:+: ts) :
    s.start ≤ s'.start ∧ s'.stop ≤ s.stop := by
  obtain ⟨t, ht, hstart⟩ := hpart.exists_start
  obtain ⟨t', ht', hstop⟩ := hpart.exists_stop
  have hfront := (h.around hts (hus.subset ht)).1
  have hback := (h.around hts (hus.subset ht')).2
  omega

theorem Spans.start_lt_stop {ts : List (Placed Token)} {s : Span} (h : Spans ts s)
    (hts : InOrder ts) : s.start < s.stop := by
  obtain ⟨t, ht, hstart⟩ := h.exists_start
  have hlt := hts.start_lt_stop t ht
  have hback := (h.around hts ht).2
  omega

/-- Of parts from two sides of a cut, the first stands wholly in front of the second. -/
theorem Spans.apart {ts us vs ws : List (Placed Token)} {s s' : Span} (h : Spans vs s)
    (h' : Spans ws s') (horder : InOrder (ts ++ us)) (hvs : vs <:+: ts) (hws : ws <:+: us) :
    s.stop ≤ s'.start := by
  obtain ⟨t, ht, hstop⟩ := h.exists_stop
  obtain ⟨u, hu, hstart⟩ := h'.exists_start
  have happart := (List.pairwise_append.mp horder.apart).2.2 t (hvs.subset ht) u (hws.subset hu)
  omega

theorem spans_assigns {ts : List (Placed Token)} {a : Assignment} (h : Assigns ts a) :
    Spans ts a.span := by
  cases h with
  | mk => exact ⟨⟨_, _, rfl, rfl⟩, _, _, rfl, rfl⟩

theorem spans_declares {ts : List (Placed Token)} {d : Declaration} (h : Declares ts d) :
    Spans ts d.span := by
  cases h with
  | mk hheading => cases hheading <;> exact ⟨⟨_, _, rfl, rfl⟩, _, _, rfl, rfl⟩

/-! ## The tokens of a part -/

theorem infix_braces (hs us : List (Placed Token)) (open_ close : Placed Token) :
    us <:+: hs ++ open_ :: us ++ [close] :=
  ⟨hs ++ [open_], [close], by simp⟩

theorem part_assigns {ts : List (Placed Token)} {as : List Assignment} {ds : List Declaration} :
    Body ts as ds → ∀ a ∈ as, ∃ us, us <:+: ts ∧ Assigns us a
  | .empty, a, ha => by simp at ha
  | .assign hbody hassigns, a, ha => by
    rcases List.mem_append.mp ha with ha | ha
    · obtain ⟨us, hus, h⟩ := part_assigns hbody a ha
      exact ⟨us, hus.trans List.infix_append_left, h⟩
    · obtain rfl := List.mem_singleton.mp ha
      exact ⟨_, List.infix_append_right, hassigns⟩
  | .child hbody _, a, ha => by
    obtain ⟨us, hus, h⟩ := part_assigns hbody a ha
    exact ⟨us, hus.trans List.infix_append_left, h⟩

theorem preorderAll_append (ds es : List Declaration) :
    preorderAll (ds ++ es) = preorderAll ds ++ preorderAll es := by
  induction ds with
  | nil => rfl
  | cons d ds ih => rw [List.cons_append, preorderAll, preorderAll, ih, List.append_assoc]

theorem preorderAll_singleton (d : Declaration) : preorderAll [d] = d.preorder := by
  rw [preorderAll, preorderAll, List.append_nil]

mutual

/-- Every declaration of a tree has its own tokens among those of the tree. -/
theorem part_declares {ts : List (Placed Token)} {d : Declaration} :
    Declares ts d → ∀ e ∈ d.preorder, ∃ us, us <:+: ts ∧ Declares us e
  | .mk hheading hopen hbody hclose, e, he => by
    rw [preorder] at he
    rcases List.mem_cons.mp he with rfl | he
    · exact ⟨_, List.infix_rfl, .mk hheading hopen hbody hclose⟩
    · obtain ⟨us, hus, hdeclares⟩ := part_body hbody e he
      exact ⟨us, hus.trans (infix_braces _ _ _ _), hdeclares⟩

theorem part_body {ts : List (Placed Token)} {as : List Assignment} {ds : List Declaration} :
    Body ts as ds → ∀ e ∈ preorderAll ds, ∃ us, us <:+: ts ∧ Declares us e
  | .empty, e, he => by simp [preorderAll] at he
  | .assign hbody _, e, he => by
    obtain ⟨us, hus, h⟩ := part_body hbody e he
    exact ⟨us, hus.trans List.infix_append_left, h⟩
  | .child hbody hdeclares, e, he => by
    rw [preorderAll_append, preorderAll_singleton] at he
    rcases List.mem_append.mp he with he | he
    · obtain ⟨us, hus, h⟩ := part_body hbody e he
      exact ⟨us, hus.trans List.infix_append_left, h⟩
    · obtain ⟨us, hus, h⟩ := part_declares hdeclares e he
      exact ⟨us, hus.trans List.infix_append_right, h⟩

end

/-! ## Spans of one declaration -/

theorem part_assignment {ts : List (Placed Token)} {d : Declaration} (h : Declares ts d)
    {a : Assignment} (ha : a ∈ d.assignments) : ∃ us, us <:+: ts ∧ Assigns us a := by
  cases h with
  | mk _ _ hbody _ =>
    obtain ⟨us, hus, hassigns⟩ := part_assigns hbody a ha
    exact ⟨us, hus.trans (infix_braces _ _ _ _), hassigns⟩

theorem assignment_inside {ts : List (Placed Token)} {d : Declaration} (h : Declares ts d)
    (hts : InOrder ts) {a : Assignment} (ha : a ∈ d.assignments) :
    d.span.start ≤ a.span.start ∧ a.span.start < a.span.stop ∧ a.span.stop ≤ d.span.stop := by
  obtain ⟨us, hus, hassigns⟩ := part_assignment h ha
  have hinside := (spans_declares h).inside (spans_assigns hassigns) hts hus
  have hlt := (spans_assigns hassigns).start_lt_stop (hts.sublist hus.sublist)
  exact ⟨hinside.1, hlt, hinside.2⟩

theorem mem_preorderAll {ds : List Declaration} {d : Declaration} (h : d ∈ ds) :
    d ∈ preorderAll ds := by
  induction ds with
  | nil => simp at h
  | cons e ds ih =>
    rw [preorderAll, List.mem_append]
    rcases List.mem_cons.mp h with rfl | h
    · cases d
      exact .inl List.mem_cons_self
    · exact .inr (ih h)

/-- The items of a body do not overlap, and each kind of them keeps its order. -/
theorem apart_body {ts : List (Placed Token)} {as : List Assignment} {ds : List Declaration} :
    Body ts as ds → InOrder ts →
      as.Pairwise (fun a b => a.span.stop ≤ b.span.start) ∧
      ds.Pairwise (fun d e => d.span.stop ≤ e.span.start) ∧
      ∀ a ∈ as, ∀ d ∈ ds, a.span.stop ≤ d.span.start ∨ d.span.stop ≤ a.span.start
  | .empty, _ => ⟨.nil, .nil, by simp⟩
  | @Body.assign ts us as ds a hbody hassigns, hts => by
    obtain ⟨has, hds, hboth⟩ := apart_body hbody (hts.sublist (List.sublist_append_left _ _))
    have ha := spans_assigns hassigns
    refine ⟨List.pairwise_append.mpr ⟨has, List.pairwise_singleton _ _, ?_⟩, hds, ?_⟩
    · intro b hb _ hlast
      obtain rfl := List.mem_singleton.mp hlast
      obtain ⟨vs, hvs, hb⟩ := part_assigns hbody b hb
      exact (spans_assigns hb).apart ha hts hvs List.infix_rfl
    · intro b hb d hd
      rcases List.mem_append.mp hb with hb | hlast
      · exact hboth b hb d hd
      · obtain rfl := List.mem_singleton.mp hlast
        obtain ⟨vs, hvs, hd⟩ := part_body hbody d (mem_preorderAll hd)
        exact .inr ((spans_declares hd).apart ha hts hvs List.infix_rfl)
  | @Body.child ts us as ds d hbody hdeclares, hts => by
    obtain ⟨has, hds, hboth⟩ := apart_body hbody (hts.sublist (List.sublist_append_left _ _))
    have hd := spans_declares hdeclares
    refine ⟨has, List.pairwise_append.mpr ⟨hds, List.pairwise_singleton _ _, ?_⟩, ?_⟩
    · intro e he _ hlast
      obtain rfl := List.mem_singleton.mp hlast
      obtain ⟨vs, hvs, he⟩ := part_body hbody e (mem_preorderAll he)
      exact (spans_declares he).apart hd hts hvs List.infix_rfl
    · intro b hb e he
      rcases List.mem_append.mp he with he | hlast
      · exact hboth b hb e he
      · obtain rfl := List.mem_singleton.mp hlast
        obtain ⟨vs, hvs, hb⟩ := part_assigns hbody b hb
        exact .inl ((spans_assigns hb).apart hd hts hvs List.infix_rfl)

theorem pairwise_assignments_declares {ts : List (Placed Token)} {d : Declaration}
    (h : Declares ts d) (hts : InOrder ts) :
    d.assignments.Pairwise fun a b => a.span.start ≤ b.span.start := by
  have hpart {a : Assignment} (ha : a ∈ d.assignments) := assignment_inside h hts ha
  cases h with
  | mk _ _ hbody _ =>
    obtain ⟨has, -, -⟩ := apart_body hbody (hts.sublist (infix_braces _ _ _ _).sublist)
    refine has.imp_of_mem fun ha _ hapart => ?_
    have := hpart ha
    omega

theorem declaration_inside {ts : List (Placed Token)} {d e : Declaration} (h : Declares ts d)
    (hts : InOrder ts) (he : e ∈ d.preorder) :
    d.span.start ≤ e.span.start ∧ e.span.stop ≤ d.span.stop := by
  obtain ⟨us, hus, hdeclares⟩ := part_declares h e he
  exact (spans_declares h).inside (spans_declares hdeclares) hts hus

/-! ## Spans along a walk -/

/-- Of two declarations that a walk meets, the first holds the second or stands in front of it. -/
def HoldsOrPrecedes (d e : Declaration) : Prop :=
  e ∈ preorderAll d.children ∨ d.span.stop ≤ e.span.start

mutual

theorem walk_declares {ts : List (Placed Token)} {d : Declaration} :
    Declares ts d → InOrder ts → d.preorder.Pairwise HoldsOrPrecedes
  | .mk _ _ hbody _, hts => by
    have hbelow := walk_body hbody (hts.sublist (infix_braces _ _ _ _).sublist)
    rw [preorder]
    exact List.pairwise_cons.mpr ⟨fun e he => .inl he, hbelow⟩

theorem walk_body {ts : List (Placed Token)} {as : List Assignment} {ds : List Declaration} :
    Body ts as ds → InOrder ts → (preorderAll ds).Pairwise HoldsOrPrecedes
  | .empty, _ => .nil
  | .assign hbody _, hts => walk_body hbody (hts.sublist (List.sublist_append_left _ _))
  | .child hbody hdeclares, hts => by
    rw [preorderAll_append, preorderAll_singleton]
    have hfront := walk_body hbody (hts.sublist (List.sublist_append_left _ _))
    have hback := walk_declares hdeclares (hts.sublist (List.sublist_append_right _ _))
    refine List.pairwise_append.mpr ⟨hfront, hback, ?_⟩
    intro d hd e he
    obtain ⟨us, hus, hd⟩ := part_body hbody d hd
    obtain ⟨vs, hvs, he⟩ := part_declares hdeclares e he
    exact .inr ((spans_declares hd).apart (spans_declares he) hts hus hvs)

end

end Grammar

end UiMarkup
