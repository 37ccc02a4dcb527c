import UiMarkup.Proofs.Declaration.Erasure
import UiMarkup.Proofs.Declaration.Parsing
import UiMarkup.Proofs.Token.Spelling

/-!
# Canonical text is read as what it was printed from

The canonical text of a tree says tokens that derive the tree. They are not
the tokens that were read: assignments stand in front of children, and a tuple
has no comma behind its last item.
-/

namespace UiMarkup.Grammar

open Declaration (heading printAt printAllAt)

/-! ## Texts side by side -/

/-- The text says these tokens, whatever stands behind it. -/
def Says (cs : List Char) (ts : List Token) : Prop :=
  ∀ rest, spoken (cs ++ rest) = ts.map Lexeme.token ++ spoken rest

theorem says_nil : Says [] [] := fun _ => rfl

theorem says_append {cs ds : List Char} {ts us : List Token} (h : Says cs ts) (h' : Says ds us) :
    Says (cs ++ ds) (ts ++ us) := by
  intro rest
  rw [List.append_assoc, h, h', List.map_append, List.append_assoc]

theorem says_mark {c : Char} {t : Token} {cs : List Char} {ts : List Token}
    (h : Token.ofMark? c = some t) (h' : Says cs ts) : Says (c :: cs) (t :: ts) := by
  intro rest
  rw [List.cons_append, spoken_mark h, h', List.map_cons, List.cons_append]

theorem says_blank {c : Char} {cs : List Char} {ts : List Token} (h : isSpacing c)
    (h' : Says cs ts) : Says (c :: cs) ts := by
  intro rest
  rw [List.cons_append, spoken_spacing h, h']

theorem says_spaces {cs : List Char} (h : ∀ c ∈ cs, isSpacing c) : Says cs [] :=
  spoken_spaces h

theorem spells_of_says {cs : List Char} {ts : List Token} (h : Says cs ts) : Spells cs ts :=
  fun rest _ => h rest

theorem spells_append {cs ds : List Char} {ts us : List Token} (h : Says cs ts)
    (h' : Spells ds us) : Spells (cs ++ ds) (ts ++ us) := by
  intro rest hrest
  rw [List.append_assoc, h, h' rest hrest, List.map_append, List.append_assoc]

/-- A character that belongs to no token keeps the tokens on its two sides apart. -/
theorem says_apart {cs ds : List Char} {c : Char} {ts us : List Token} (h : Spells cs ts)
    (hc : isTokenPart c = false) (h' : Says (c :: ds) us) : Says (cs ++ c :: ds) (ts ++ us) := by
  intro rest
  have hstops : Stops isTokenPart (c :: ds ++ rest) := by simpa [Stops] using hc
  rw [List.append_assoc, h _ hstops, h', List.map_append, List.append_assoc]

/-! ## Pieces of the layout -/

theorem says_indent (level : Nat) : Says (timesText level "    ").toList [] := by
  apply says_spaces
  intro c hc
  rw [timesText, String.toList_join] at hc
  obtain ⟨text, htext, hc⟩ := List.mem_flatMap.mp hc
  rw [List.eq_of_mem_replicate htext] at hc
  simp_all [isSpacing]

theorem joinWith_cons {between : String} (text : String) {texts : List String} (h : texts ≠ []) :
    joinWith between (text :: texts) = text ++ between ++ joinWith between texts := by
  cases texts with
  | nil => exact absurd rfl h
  | cons _ _ => rfl

theorem joinWith_append {between : String} {texts : List String} (h : texts ≠ []) (text : String) :
    joinWith between (texts ++ [text]) = joinWith between texts ++ between ++ text := by
  induction texts with
  | nil => exact absurd rfl h
  | cons first texts ih =>
    by_cases htexts : texts = []
    · rw [htexts]
      rfl
    · rw [List.cons_append, joinWith_cons first (by simp), ih htexts, joinWith_cons first htexts]
      simp only [String.append_assoc]

theorem items_ne_nil {ts : List (Placed Token)} {items : List String} (h : Items ts items) :
    items ≠ [] := by
  cases h <;> simp

/-! ## What is printed derives the tree -/

def LegibleAll (ts : List (Placed Token)) : Prop := ∀ t ∈ ts, Legible t.value

theorem legibleAll_append {ts us : List (Placed Token)} :
    LegibleAll (ts ++ us) ↔ LegibleAll ts ∧ LegibleAll us :=
  List.forall_mem_append

theorem legibleAll_cons {t : Placed Token} {ts : List (Placed Token)} :
    LegibleAll (t :: ts) ↔ Legible t.value ∧ LegibleAll ts :=
  List.forall_mem_cons

theorem text_of_scalar {t : Token} {text : String} (h : t.scalar? = some text) : t.text = text := by
  cases t <;> simp_all [Token.scalar?, Token.text]

mutual

/-- The text of a value derives it, without a comma in front of a closing parenthesis. -/
theorem tidy_value {ts : List (Placed Token)} {v : Placed String} :
    Value ts v → LegibleAll ts →
      ∃ us, Value us v ∧ Spells v.value.toList (us.map Placed.value)
  | @Value.scalar t text hscalar, hlegible => by
    refine ⟨[t], .scalar hscalar, ?_⟩
    have hspells := spells_of_legible (hlegible t List.mem_cons_self)
    rwa [text_of_scalar hscalar] at hspells
  | @Value.tuple open_ close ts commas items hopen hitems _ hclose, hlegible => by
    simp only [List.cons_append, List.append_assoc, legibleAll_cons, legibleAll_append] at hlegible
    obtain ⟨-, hlegible, -⟩ := hlegible
    obtain ⟨us, hus, hspells⟩ := tidy_items hitems hlegible
    refine ⟨open_ :: us ++ [] ++ [close], .tuple hopen hus .absent hclose, ?_⟩
    have hfront : Says ['('] [.parenOpen] := says_mark rfl says_nil
    have hback : Says [')'] [.parenClose] := says_mark rfl says_nil
    have htext := says_append hfront (says_apart hspells rfl hback)
    simpa [hopen, hclose, String.toList_append] using spells_of_says htext

theorem tidy_items {ts : List (Placed Token)} {items : List String} :
    Items ts items → LegibleAll ts →
      ∃ us, Items us items ∧ Spells (joinWith ", " items).toList (us.map Placed.value)
  | .one hvalue, hlegible => by
    obtain ⟨us, hus, hspells⟩ := tidy_value hvalue hlegible
    exact ⟨us, .one hus, hspells⟩
  | @Items.more ts vs items comma v hitems hcomma hvalue, hlegible => by
    rw [legibleAll_append, legibleAll_cons] at hlegible
    obtain ⟨hfront, -, hback⟩ := hlegible
    obtain ⟨us, hus, hspells⟩ := tidy_items hitems hfront
    obtain ⟨ws, hws, hspells'⟩ := tidy_value hvalue hback
    refine ⟨us ++ comma :: ws, .more hus hcomma hws, ?_⟩
    have hcommas : Says [',', ' '] [.comma] := says_mark rfl (says_blank rfl says_nil)
    have htext := spells_append (says_apart hspells rfl hcommas) hspells'
    rw [joinWith_append (items_ne_nil hitems)]
    simpa [hcomma, String.toList_append] using htext

end

theorem tidy_assigns {ts : List (Placed Token)} {a : Assignment} (h : Assigns ts a)
    (hlegible : LegibleAll ts) :
    ∃ us, Assigns us a ∧ Says a.print.toList (us.map Placed.value) := by
  cases h with
  | @mk name colon semicolon text ts v hname hcolon hvalue hsemicolon =>
    simp only [List.cons_append, legibleAll_cons, legibleAll_append] at hlegible
    obtain ⟨hlname, -, hlegible, -⟩ := hlegible
    obtain ⟨us, hus, hspells⟩ := tidy_value hvalue hlegible
    refine ⟨name :: colon :: us ++ [semicolon], .mk hname hcolon hus hsemicolon, ?_⟩
    rw [hname] at hlname
    have hcolons : Says [':', ' '] [.colon] := says_mark rfl (says_blank rfl says_nil)
    have hback : Says [';'] [.semicolon] := says_mark rfl says_nil
    have htext := says_append (says_apart (spells_ident hlname) rfl hcolons)
      (says_apart hspells rfl hback)
    simpa [Assignment.print, hname, hcolon, hsemicolon, String.toList_append] using htext

/-- A class is set off by a point, where the kind ends although a number would not. -/
theorem spells_heading {ts : List (Placed Token)} {kind : Placed String}
    {cls : Option (Placed String)} (h : Heading ts kind cls) (hlegible : LegibleAll ts) :
    Spells (heading kind.value (cls.map Placed.value)).toList (ts.map Placed.value) := by
  cases h with
  | @plain kind text hkind =>
    have hlkind := hlegible kind List.mem_cons_self
    rw [List.map_singleton, hkind]
    rw [hkind] at hlkind
    exact spells_ident hlkind
  | @styled kind dot cls text clsText hkind hdot hcls =>
    simp only [legibleAll_cons, hkind, hdot, hcls] at hlegible
    obtain ⟨hlkind, -, hlcls, -⟩ := hlegible
    intro rest hrest
    have hpoint : Stops isIdentPart ('.' :: (clsText.toList ++ rest)) := by simp [Stops]; rfl
    have hfront := spoken_ident hlkind hpoint
    rw [spoken_mark rfl, spells_ident hlcls rest hrest] at hfront
    simpa [heading, hkind, hdot, hcls, String.toList_append] using hfront

theorem printAllAt_append (level : Nat) (ds : List Declaration) (d : Declaration) :
    printAllAt level (ds ++ [d]) = printAllAt level ds ++ d.printAt level := by
  induction ds with
  | nil => simp [printAllAt]
  | cons e ds ih => rw [List.cons_append, printAllAt, printAllAt, ih, String.append_assoc]

/-- The assignments of a body, a line each. -/
def assignmentLines (level : Nat) (as : List Assignment) : String :=
  String.join (as.map fun a => timesText level "    " ++ "    " ++ a.print ++ "\n")

theorem says_line {level : Nat} {text : String} {ts : List Token} (h : Says text.toList ts) :
    Says (timesText level "    " ++ "    " ++ text ++ "\n").toList ts := by
  have hblanks : Says [' ', ' ', ' ', ' '] [] := says_spaces (by simp [isSpacing])
  have hend : Says ['\n'] [] := says_blank rfl says_nil
  have htext := says_append (says_append (says_append (says_indent level) hblanks) h) hend
  simpa [String.toList_append] using htext

mutual

theorem tidy_declares {ts : List (Placed Token)} {d : Declaration} :
    Declares ts d → LegibleAll ts →
      ∃ us, Declares us d ∧ ∀ level, Says (d.printAt level).toList (us.map Placed.value)
  | @Declares.mk hs ts open_ close kind cls as ds hheading hopen hbody hclose, hlegible => by
    simp only [List.append_assoc, List.cons_append, legibleAll_append, legibleAll_cons] at hlegible
    obtain ⟨hlheading, -, hlbody, -⟩ := hlegible
    obtain ⟨us, vs, hus, hvs, hassigned, hnested⟩ := tidy_body hbody hlbody
    have hspells := spells_heading hheading hlheading
    have hindent := says_indent
    by_cases hempty : as.isEmpty && ds.isEmpty
    · obtain ⟨rfl, rfl⟩ : as = [] ∧ ds = [] := by simpa using hempty
      refine ⟨hs ++ open_ :: [] ++ [close], .mk hheading hopen .empty hclose, fun level => ?_⟩
      have hbraces : Says [' ', '{', '}', '\n'] [.braceOpen, .braceClose] :=
        says_blank rfl (says_mark rfl (says_mark rfl (says_blank rfl says_nil)))
      have htext := says_append (hindent level) (says_apart hspells rfl hbraces)
      simpa [printAt, hopen, hclose, String.toList_append] using htext
    · refine ⟨hs ++ open_ :: (us ++ vs) ++ [close],
        .mk hheading hopen (by simpa using body_append hus hvs) hclose, fun level => ?_⟩
      have hbrace : Says [' ', '{', '\n'] [.braceOpen] :=
        says_blank rfl (says_mark rfl (says_blank rfl says_nil))
      have hclosing : Says ['}', '\n'] [.braceClose] :=
        says_mark rfl (says_blank rfl says_nil)
      have hbody := says_append (hassigned level) (hnested (level + 1))
      have htext := says_append (says_append (hindent level) (says_apart hspells rfl hbrace))
        (says_append hbody (says_append (hindent level) hclosing))
      rw [printAt, if_neg hempty]
      simpa [hopen, hclose, String.toList_append, assignmentLines] using htext

theorem tidy_body {ts : List (Placed Token)} {as : List Assignment} {ds : List Declaration} :
    Body ts as ds → LegibleAll ts →
      ∃ us vs, Body us as [] ∧ Body vs [] ds ∧
        (∀ level, Says (assignmentLines level as).toList (us.map Placed.value)) ∧
        ∀ level, Says (printAllAt level ds).toList (vs.map Placed.value)
  | .empty, _ => ⟨[], [], .empty, .empty, fun _ => says_nil, fun _ => says_nil⟩
  | .assign hbody hassigns, hlegible => by
    obtain ⟨hlbody, hlassigns⟩ := legibleAll_append.mp hlegible
    obtain ⟨us, vs, hus, hvs, hassigned, hnested⟩ := tidy_body hbody hlbody
    obtain ⟨ws, hws, htext⟩ := tidy_assigns hassigns hlassigns
    refine ⟨us ++ ws, vs, .assign hus hws, hvs, fun level => ?_, hnested⟩
    rw [assignmentLines, List.map_append, String.join_append, String.toList_append,
      List.map_append]
    apply says_append (hassigned level)
    simpa [String.join_cons] using says_line htext
  | .child hbody hdeclares, hlegible => by
    obtain ⟨hlbody, hldeclares⟩ := legibleAll_append.mp hlegible
    obtain ⟨us, vs, hus, hvs, hassigned, hnested⟩ := tidy_body hbody hlbody
    obtain ⟨ws, hws, htext⟩ := tidy_declares hdeclares hldeclares
    refine ⟨us, vs ++ ws, hus, .child hvs hws, hassigned, fun level => ?_⟩
    rw [printAllAt_append, String.toList_append, List.map_append]
    exact says_append (hnested level) (htext level)

end

theorem tidy_roots {ts : List (Placed Token)} {ds : List Declaration} (h : Roots ts ds)
    (hlegible : LegibleAll ts) :
    ∃ us, Roots us ds ∧ Says (printAllAt 0 ds).toList (us.map Placed.value) := by
  induction h with
  | nil => exact ⟨[], .nil, says_nil⟩
  | cons hdeclares _ ih =>
    obtain ⟨hlfirst, hlrest⟩ := legibleAll_append.mp hlegible
    obtain ⟨us, hus, hfirst⟩ := tidy_declares hdeclares hlfirst
    obtain ⟨vs, hvs, hrest⟩ := ih hlrest
    refine ⟨us ++ vs, .cons hus hvs, ?_⟩
    rw [printAllAt, String.toList_append, List.map_append]
    exact says_append (hfirst 0) hrest

end Grammar

/-! ## Sources -/

open Grammar

/-- Items that are tokens are these tokens, each in its place. -/
theorem exists_tokens {ls : List (Placed Lexeme)} {ts : List Token}
    (h : ls.map Placed.value = ts.map Lexeme.token) :
    ∃ us : List (Placed Token), ls = us.map Placed.asLexeme ∧ us.map Placed.value = ts := by
  induction ts generalizing ls with
  | nil => exact ⟨[], List.map_eq_nil_iff.mp h, rfl⟩
  | cons t ts ih =>
    obtain ⟨⟨lexeme, span⟩, ls, rfl, hlexeme, hls⟩ := List.map_eq_cons_iff.mp h
    obtain ⟨us, rfl, rfl⟩ := ih hls
    refine ⟨⟨t, span⟩ :: us, ?_, rfl⟩
    simpa [Placed.asLexeme] using hlexeme

theorem moved_asLexeme {ls : List (Placed Lexeme)} {ts : List (Placed Token)}
    (h : ls.map Placed.value = (ts.map Placed.value).map Lexeme.token) :
    ∃ us : List (Placed Token), ls = us.map Placed.asLexeme ∧ Moved ts us :=
  exists_tokens h

theorem legibleAll_of_lex {source : String} {ts : List (Placed Token)}
    (h : lex source = ts.map Placed.asLexeme) : LegibleAll ts := by
  intro t ht
  have hmem := List.mem_map_of_mem (f := Placed.asLexeme) ht
  rw [← h] at hmem
  exact legible_of_mem_lex hmem

theorem depth_le_of_eraseAll {ds es : List Declaration} {maxDepth : Nat}
    (h : Declaration.eraseAll es = Declaration.eraseAll ds)
    (hdepth : ∀ d ∈ ds, d.depth ≤ maxDepth) : ∀ e ∈ es, e.depth ≤ maxDepth := by
  rw [← Declaration.deepest_le_iff] at hdepth ⊢
  rwa [← Declaration.deepest_eraseAll es, h, Declaration.deepest_eraseAll ds]

/-- The canonical text of a tree that legible tokens derive is read as that tree, but for its
places. -/
theorem parse_print_of_roots {ts : List (Placed Token)} {ds : List Declaration} {maxDepth : Nat}
    (hroots : Roots ts ds) (hlegible : LegibleAll ts) (hdepth : ∀ d ∈ ds, d.depth ≤ maxDepth) :
    ∃ again, Document.parse (Document.mk ds).print maxDepth = .ok again ∧
      again.erase = (Document.mk ds).erase := by
  obtain ⟨us, hus, htext⟩ := tidy_roots hroots hlegible
  have hspoken := htext []
  rw [List.append_nil, spoken_nil, List.append_nil, ← map_value_lex] at hspoken
  obtain ⟨vs, hprinted, hmoved⟩ := moved_asLexeme hspoken
  obtain ⟨es, hes, hsame⟩ := roots_moved hus hmoved
  have hdepth' := depth_le_of_eraseAll hsame hdepth
  refine ⟨⟨es⟩, parse_eq_ok_iff.mpr ⟨vs, hprinted, hes, hdepth'⟩, ?_⟩
  rw [Document.erase, Document.erase, hsame]

/-- **Canonical text is read as the document it was printed from.** Only the places differ, so
the canonical text of what is read is the same text. -/
theorem parse_print (source : String) (maxDepth : Nat) (doc : Document)
    (h : Document.parse source maxDepth = .ok doc) :
    ∃ again, Document.parse doc.print maxDepth = .ok again ∧ again.erase = doc.erase ∧
      again.print = doc.print := by
  obtain ⟨ts, hlex, hroots, hdepth⟩ := parse_eq_ok_iff.mp h
  obtain ⟨again, hagain, herase⟩ := parse_print_of_roots hroots (legibleAll_of_lex hlex) hdepth
  refine ⟨again, hagain, herase, ?_⟩
  rw [← Document.print_erase, herase, Document.print_erase]

/-- The child moves behind the assignment, and the tuple loses its last comma. -/
theorem parse_print_swapped :
    let doc : Document := ⟨[⟨⟨"A", 0, 1⟩, none, [⟨⟨"x", 8, 9⟩, ⟨"(1)", 11, 15⟩, 8, 16⟩],
      [⟨⟨"B", 4, 5⟩, none, [], [], 4, 7⟩], 0, 18⟩]⟩
    Document.parse "A \x7b B\x7b\x7d x: (1,); \x7d" 2 = .ok doc ∧
      doc.print = "A \x7b\n    x: (1);\n    B \x7b\x7d\n\x7d\n" ∧
      ∃ again, Document.parse doc.print 2 = .ok again ∧ again.erase = doc.erase ∧
        again.print = doc.print := by
  intro doc
  have h : Document.parse "A \x7b B\x7b\x7d x: (1,); \x7d" 2 = .ok doc := by cbv
  exact ⟨h, by decide +kernel, parse_print _ 2 doc h⟩

end UiMarkup
