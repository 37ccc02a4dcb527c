import UiMarkup.Proofs.Declaration.Joining
import UiMarkup.Proofs.Declaration.Nesting
import UiMarkup.Proofs.Declaration.Printing
import UiMarkup.Proofs.Token.Excerpts

/-!
# Declarations cut out of their source

The span of a part of a tree cuts a text out of the source. The names are that
text. A value and a declaration are what is read if that text is all there is.
-/

namespace UiMarkup

open Grammar Declaration

/-! ## Tokens of an excerpt -/

theorem exists_of_placed_eq {m : Relocation} {ls : List (Placed Lexeme)} {ts : List (Placed Token)}
    (h : ls.map m.placed = ts.map Placed.asLexeme) :
    ∃ us : List (Placed Token), ls = us.map Placed.asLexeme ∧ us.map m.placed = ts := by
  induction ts generalizing ls with
  | nil => exact ⟨[], by simpa using h, rfl⟩
  | cons t ts ih =>
    cases ls with
    | nil => simp at h
    | cons l ls =>
      obtain ⟨hl, hls⟩ := List.cons.inj h
      obtain ⟨us, rfl, rfl⟩ := ih hls
      obtain ⟨value, span⟩ := l
      obtain rfl : value = .token t.value := congrArg Placed.value hl
      have ht : m.placed ⟨t.value, span⟩ = t := by
        have hspan : m.span span = t.span := congrArg Placed.span hl
        rw [Relocation.placed, hspan]
      exact ⟨⟨t.value, span⟩ :: us, rfl, by rw [List.map_cons, ht]⟩

section excerpt

variable {source : String} {ts us : List (Placed Token)} {s : Span}

/-- Tokens that stand side by side are the tokens of the text between their ends. -/
theorem exists_excerpt (hlex : lex source = ts.map Placed.asLexeme) (hus : us <:+: ts)
    (hs : Spans us s) : ∃ (text : List Char) (vs : List (Placed Token)),
      s.Slices source.toList text ∧ lex (String.ofList text) = vs.map Placed.asLexeme ∧
      vs.map (Relocation.shift s.start).placed = us := by
  obtain ⟨front, back, rfl⟩ := hus
  obtain ⟨first, rest, hfirst, hstart⟩ := hs.start
  obtain ⟨inner, last, hlast, hstop⟩ := hs.stop
  have hparts : lex source = front.map Placed.asLexeme ++
      (us.map Placed.asLexeme ++ back.map Placed.asLexeme) := by simp [hlex]
  have hhead : (us.map Placed.asLexeme).head? = some first.asLexeme := by simp [hfirst]
  have hend : (us.map Placed.asLexeme).getLast? = some last.asLexeme := by simp [hlast]
  obtain ⟨text, hslices, htext⟩ := lex_excerpt hparts (isRecognized_of_tokens hlex) hhead hend
  have hspan : (⟨first.span.start, last.span.stop⟩ : Span) = s := by rw [hstart, hstop]
  obtain ⟨vs, hvs, hus⟩ := exists_of_placed_eq htext
  refine ⟨text, vs, hspan ▸ hslices, hvs, ?_⟩
  rw [← hstart]
  exact hus

theorem solid_of_part (hlex : lex source = ts.map Placed.asLexeme) (hs : HasPart ts s) :
    s.start < s.stop ∧ s.Within source.toList := by
  obtain ⟨us, hus, hs⟩ := hs
  have hts := TokenRun.inOrder_of_lex hlex
  obtain ⟨text, vs, hslices, -, -⟩ := exists_excerpt hlex hus hs
  exact ⟨hs.start_lt_stop (hts.sublist hus.sublist), hslices.within⟩

/-- A token is the text that it stands on. -/
theorem slices_of_mem (hlex : lex source = ts.map Placed.asLexeme) {t : Placed Token}
    (ht : t ∈ ts) : t.span.Slices source.toList t.value.text.toList := by
  have hmem : t.asLexeme ∈ lex source := by
    rw [hlex]
    exact List.mem_map_of_mem ht
  exact slices_of_mem_lex hmem

end excerpt

/-! ## Declarations by themselves -/

theorem declares_of_placed {m : Relocation} {ts : List (Placed Token)} {d : Declaration}
    (h : Declares (ts.map m.placed) d) : ∃ e, Declares ts e ∧ m.declaration e = d := by
  have hmoved := m.read_progress 0 0 .root ts
  have hread := Progress.read_of_declares h (m.start 0) (m.stop 0) []
  rw [List.append_nil] at hread
  rw [show m.progress .root = .root from rfl, hread] at hmoved
  cases hanswer : Progress.root.read 0 0 ts with
  | error e => simp [hanswer, Relocation.reading] at hmoved
  | ok answer =>
    obtain ⟨e, rest⟩ := answer
    rw [hanswer] at hmoved
    obtain ⟨rfl, hrest⟩ := Prod.mk.inj (Except.ok.inj hmoved)
    obtain rfl : rest = [] := List.map_eq_nil_iff.mp hrest.symm
    obtain ⟨us, rfl, hdeclares⟩ := Progress.declares_of_read hanswer
    exact ⟨e, by rwa [List.append_nil], rfl⟩

mutual

theorem depth_relocated (m : Relocation) : ∀ d : Declaration, (m.declaration d).depth = d.depth
  | ⟨_, _, _, children, _⟩ => by
    rw [Relocation.declaration, depth, depth, deepest_relocated m children]

theorem deepest_relocated (m : Relocation) :
    ∀ ds : List Declaration, deepest (m.declarations ds) = deepest ds
  | [] => rfl
  | d :: ds => by
    rw [Relocation.declarations, deepest, deepest, depth_relocated m d, deepest_relocated m ds]

end

mutual

theorem depth_le_of_mem_preorder {e : Declaration} :
    ∀ d : Declaration, e ∈ d.preorder → e.depth ≤ d.depth
  | ⟨kind, styleClass, assignments, children, span⟩, he => by
    rw [preorder] at he
    rcases List.mem_cons.mp he with rfl | he
    · exact Nat.le_refl _
    · rw [depth]
      exact Nat.le_add_left_of_le (depth_le_of_mem_preorderAll children he)

theorem depth_le_of_mem_preorderAll {e : Declaration} :
    ∀ ds : List Declaration, e ∈ preorderAll ds → e.depth ≤ deepest ds
  | [], he => by simp [preorderAll] at he
  | d :: ds, he => by
    rw [preorderAll] at he
    rw [deepest]
    rcases List.mem_append.mp he with he | he
    · exact Nat.le_trans (depth_le_of_mem_preorder d he) (Nat.le_max_left _ _)
    · exact Nat.le_trans (depth_le_of_mem_preorderAll ds he) (Nat.le_max_right _ _)

end

/-- What a source holds at the span of a declaration is read as that declaration alone, each
span as far from the start as from the declaration's. -/
def StandsAlone (source : String) (maxDepth : Nat) (d : Declaration) : Prop :=
  ∃ text e, d.span.Slices source.toList text ∧
    Document.parse (String.ofList text) maxDepth = .ok ⟨[e]⟩ ∧
    (Relocation.shift d.span.start).declaration e = d

theorem standsAlone_of_declares {source : String} {ts us : List (Placed Token)} {d : Declaration}
    {maxDepth : Nat} (hlex : lex source = ts.map Placed.asLexeme) (hus : us <:+: ts)
    (h : Declares us d) (hdepth : d.depth ≤ maxDepth) : StandsAlone source maxDepth d := by
  obtain ⟨text, vs, hslices, htext, rfl⟩ := exists_excerpt hlex hus (spans_declares h)
  obtain ⟨e, he, hmoved⟩ := declares_of_placed h
  refine ⟨text, e, hslices, parse_eq_ok_iff.mpr ⟨vs, htext, ?_, ?_⟩, hmoved⟩
  · have hroots := Roots.cons he .nil
    rwa [List.append_nil] at hroots
  · intro d' hd'
    obtain rfl := List.mem_singleton.mp hd'
    rwa [← hmoved, depth_relocated] at hdepth

/-! ## Values by themselves -/

/-- Everything stands `n` bytes further to the front. -/
def Relocation.back (n : Nat) : Relocation := ⟨(· - n), (· - n)⟩

theorem map_back_shift (n : Nat) (ts : List (Placed Token)) :
    (ts.map (Relocation.shift n).placed).map (Relocation.back n).placed = ts := by
  rw [List.map_map]
  refine (List.map_congr_left fun t _ => ?_).trans (List.map_id ts)
  simp [Relocation.placed, Relocation.span, Relocation.shift, Relocation.back]

theorem optionalComma_placed (m : Relocation) {ts : List (Placed Token)} (h : OptionalComma ts) :
    OptionalComma (ts.map m.placed) := by
  cases h with
  | absent => exact .absent
  | present hcomma => exact .present hcomma

mutual

theorem value_placed (m : Relocation) {ts : List (Placed Token)} {v : Placed String} :
    Grammar.Value ts v → Grammar.Value (ts.map m.placed) (m.placed v)
  | .scalar hscalar => .scalar (t := m.placed _) hscalar
  | .tuple hopen hitems hcommas hclose => by
    rw [List.map_append, List.map_append, List.map_cons]
    exact .tuple hopen (items_placed m hitems) (optionalComma_placed m hcommas) hclose

theorem items_placed (m : Relocation) {ts : List (Placed Token)} {items : List String} :
    Items ts items → Items (ts.map m.placed) items
  | .one hvalue => .one (v := m.placed _) (value_placed m hvalue)
  | .more hitems hcomma hvalue => by
    rw [List.map_append, List.map_cons]
    exact .more (v := m.placed _) (items_placed m hitems) hcomma (value_placed m hvalue)

end

/-- What a source holds at the span of a value is read as the value, and is the value unless
that is a tuple. -/
def ReadsAs (source : String) (v : Placed String) : Prop :=
  ∃ text ts, v.span.Slices source.toList text ∧
    lex (String.ofList text) = ts.map Placed.asLexeme ∧
    Grammar.Value ts ⟨v.value, ⟨0, byteLength text⟩⟩ ∧
    (v.value.toList.head? ≠ some '(' → text = v.value.toList)

theorem readsAs_of_value {source : String} {ts us : List (Placed Token)} {v : Placed String}
    (hlex : lex source = ts.map Placed.asLexeme) (hus : us <:+: ts) (h : Grammar.Value us v) :
    ReadsAs source v := by
  obtain ⟨text, vs, hslices, htext, hvs⟩ := exists_excerpt hlex hus (spans_value h)
  have hback := value_placed (Relocation.back v.span.start) h
  rw [← hvs, map_back_shift] at hback
  have hspan : (Relocation.back v.span.start).span v.span = ⟨0, byteLength text⟩ := by
    obtain ⟨-, -, -, -, hstop⟩ := hslices
    simp [Relocation.span, Relocation.back, hstop]
  refine ⟨text, vs, hslices, htext, hspan ▸ hback, fun hscalar => ?_⟩
  cases h with
  | @scalar t text' hvalue =>
    have hmem : t ∈ ts := hus.subset (List.mem_singleton_self t)
    have hsame := hslices.unique (slices_of_mem hlex hmem)
    rw [hsame, text_of_scalar hvalue]
  | tuple => simp at hscalar

/-! ## Names and values of a declaration -/

/-- What is written where the spans of a declaration say. -/
structure Declaration.Quotes (source : String) (d : Declaration) : Prop where
  kind : d.kind.span.Slices source.toList d.kind.value.toList
  styleClass : ∀ c ∈ d.styleClass, c.span.Slices source.toList c.value.toList
  name : ∀ a ∈ d.assignments, a.name.span.Slices source.toList a.name.value.toList
  value : ∀ a ∈ d.assignments, ReadsAs source a.value

section quotes

variable {source : String} {ts us : List (Placed Token)}

theorem slices_of_ident (hlex : lex source = ts.map Placed.asLexeme) {t : Placed Token}
    (ht : t ∈ ts) {text : String} (hident : t.value = .ident text) :
    t.span.Slices source.toList text.toList := by
  have hslices := slices_of_mem hlex ht
  rwa [hident] at hslices

theorem slices_of_heading (hlex : lex source = ts.map Placed.asLexeme) (hus : us <:+: ts)
    {kind : Placed String} {cls : Option (Placed String)} (h : Heading us kind cls) :
    kind.span.Slices source.toList kind.value.toList ∧
      ∀ c ∈ cls, c.span.Slices source.toList c.value.toList := by
  cases h with
  | plain hkind => exact ⟨slices_of_ident hlex (hus.subset (by simp)) hkind, by simp⟩
  | styled hkind _ hcls =>
    refine ⟨slices_of_ident hlex (hus.subset (by simp)) hkind, ?_⟩
    intro c hc
    obtain rfl := Option.some.inj hc
    exact slices_of_ident hlex (hus.subset (by simp)) hcls

theorem slices_of_assigns (hlex : lex source = ts.map Placed.asLexeme) (hus : us <:+: ts)
    {a : Assignment} (h : Assigns us a) :
    a.name.span.Slices source.toList a.name.value.toList ∧ ReadsAs source a.value := by
  cases h with
  | @mk name colon semicolon text vs v hname _ hvalue _ =>
    have hvs : vs <:+: name :: colon :: vs ++ [semicolon] := ⟨[name, colon], [semicolon], rfl⟩
    exact ⟨slices_of_ident hlex (hus.subset (by simp)) hname,
      readsAs_of_value hlex (hvs.trans hus) hvalue⟩

theorem quotes_of_declares (hlex : lex source = ts.map Placed.asLexeme) (hus : us <:+: ts)
    {d : Declaration} (h : Declares us d) : d.Quotes source := by
  have hassigned {a : Assignment} (ha : a ∈ d.assignments) :=
    let ⟨_, hvs, hassigns⟩ := part_assignment h ha
    slices_of_assigns hlex (hvs.trans hus) hassigns
  have hheading : d.kind.span.Slices source.toList d.kind.value.toList ∧
      ∀ c ∈ d.styleClass, c.span.Slices source.toList c.value.toList := by
    cases h with
    | @mk hs vs open_ close _ _ _ _ hheading =>
      have hhs : hs <:+: hs ++ open_ :: vs ++ [close] := ⟨[], open_ :: vs ++ [close], by simp⟩
      exact slices_of_heading hlex (hhs.trans hus) hheading
  exact ⟨hheading.1, hheading.2, fun _ ha => (hassigned ha).1, fun _ ha => (hassigned ha).2⟩

end quotes

end UiMarkup
