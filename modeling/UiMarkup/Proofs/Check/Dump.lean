import UiMarkup.Proofs.Check.WriteBack

/-!
# A dump identifies the document

A dump has no closing marks. It is a list of lines, each at the level that its
indentation says, and attributes stand at the same level as children. But no line
can be taken for another, and a component goes on for as long as the lines stand at
a higher level than its own. So equal texts come from equal trees.
-/

namespace UiMarkup

open Written (escapeChar)

/-! ## Literals on one line -/

section literals

variable {cs : List Char}

theorem isIdentPart_of_isIdentifier (h : isIdentifier cs) : ∀ c ∈ cs, isIdentPart c := by
  cases cs with
  | nil => simp
  | cons c cs =>
    obtain ⟨hstart, hparts⟩ : isIdentStart c ∧ ∀ d ∈ cs, isIdentPart d := by
      simpa [isIdentifier] using h
    refine List.forall_mem_cons.mpr ⟨?_, hparts⟩
    rcases (by simpa [isIdentStart] using hstart : c.isAlpha ∨ c = '_') with halpha | rfl
    · simp [isIdentPart, Char.isAlphanum, halpha]
    · decide

theorem newline_not_mem_identifier (h : isIdentifier cs) : '\n' ∉ cs := fun hmem =>
  absurd (isIdentPart_of_isIdentifier h _ hmem) (by decide)

theorem newline_not_mem_digits (h : SomeDigits cs) : '\n' ∉ cs := fun hmem =>
  absurd (h.2 _ hmem) (by decide)

theorem newline_not_mem_sign (h : IsSign cs) : '\n' ∉ cs := by
  rcases h with rfl | rfl | rfl <;> decide

theorem newline_not_mem_number (h : IsNumber cs) : '\n' ∉ cs := by
  obtain ⟨sign, ds, fraction, exponent, hsign, hdigits, hfraction, hexponent, rfl⟩ := h
  have hfraction : '\n' ∉ fraction := by
    rcases hfraction with rfl | ⟨ds, hds, rfl⟩
    · decide
    · simpa using newline_not_mem_digits hds
  have hexponent : '\n' ∉ exponent := by
    rcases hexponent with rfl | ⟨e, sign, ds, he, hsign, hds, rfl⟩
    · decide
    · rcases he with rfl | rfl <;>
        simpa using ⟨newline_not_mem_sign hsign, newline_not_mem_digits hds⟩
  simp [newline_not_mem_sign hsign, newline_not_mem_digits hdigits, hfraction, hexponent]

theorem newline_not_mem_escapeChar (c : Char) : '\n' ∉ escapeChar c := by
  fun_cases escapeChar c with
  | case1 | case2 | case3 | case4 => decide
  | case5 c _ _ hnewline _ => simpa using Ne.symm hnewline

/-- Escapes and the classes of characters keep every literal on one line. -/
theorem newline_not_mem_written {v : Value} (h : v.Readable) : '\n' ∉ v.written := by
  cases v with
  | string text => simp [Value.written, Written.quoted, newline_not_mem_escapeChar]
  | color c =>
    obtain ⟨body, hbody, hplain⟩ := Literal.plain_hexColor c
    have hnone : '\n' ∉ body := fun hmem => absurd (hplain _ hmem).1 (by decide)
    simpa [Value.written, hbody] using hnone
  | integer i => exact newline_not_mem_number (Literal.isNumber_integer i.toInt)
  | float x => exact newline_not_mem_number (Literal.isNumber_float h)
  | event handler => exact newline_not_mem_identifier h

end literals

theorem Value.eq_of_written {v w : Value} (hv : v.Readable) (hw : w.Readable)
    (htype : v.type = w.type) (h : v.written = w.written) : v = w := by
  have hread := read_written hv
  rw [htype, h, read_written hw] at hread
  exact (Except.ok.inj hread).symm

/-! ## Lines -/

/-- What one line of a dump says. -/
inductive DumpLine
  | heading (kind : String) (styleClass : Option String)
  | entry (name : String) (value : Value)

namespace DumpLine

/-- The name that a line begins with. -/
def name : DumpLine → List Char
  | heading kind _ => kind.toList
  | entry name _ => name.toList

/-- What stands behind the name. -/
def tail : DumpLine → List Char
  | heading _ styleClass => styleClass.elim [] ('.' :: ·.toList)
  | entry _ v => ':' :: ' ' :: (v.type.name.toList ++ ' ' :: '=' :: ' ' :: v.written)

def chars (l : DumpLine) : List Char := l.name ++ l.tail

/-- Names are identifiers, and values have literals that give them. -/
def Writable : DumpLine → Prop
  | heading kind styleClass =>
    isIdentifier kind.toList ∧ ∀ cls ∈ styleClass, isIdentifier cls.toList
  | entry name v => isIdentifier name.toList ∧ v.Readable

variable {l m : DumpLine}

theorem Writable.name (h : l.Writable) : isIdentifier l.name := by
  cases l with
  | heading => exact h.1
  | entry => exact h.1

theorem stops_tail (l : DumpLine) : Stops isIdentPart l.tail := by
  cases l with
  | heading kind styleClass => cases styleClass <;> simp [Stops, tail, isIdentPart]
  | entry name v => simp [Stops, tail, isIdentPart]

theorem isAlpha_type_name (type : AttributeType) : ∀ c ∈ type.name.toList, c.isAlpha := by
  have hall : type.name.toList.all Char.isAlpha := by cases type <;> decide +kernel
  exact List.all_eq_true.mp hall

theorem type_name_inj {type type' : AttributeType} (h : type.name = type'.name) :
    type = type' := by
  cases type <;> cases type' <;> simp_all [AttributeType.name]

theorem tail_entry_inj {name name' : String} {v w : Value} (hv : v.Readable) (hw : w.Readable)
    (h : (entry name v).tail = (entry name' w).tail) : v = w := by
  have hstop (cs : List Char) : Stops Char.isAlpha (' ' :: '=' :: ' ' :: cs) := by simp [Stops]
  simp only [tail, List.cons.injEq, true_and] at h
  obtain ⟨hname, hwritten⟩ :=
    append_inj_of_stops (isAlpha_type_name _) (isAlpha_type_name _) (hstop _) (hstop _) h
  have htype : v.type = w.type := type_name_inj (String.toList_inj.mp hname)
  exact Value.eq_of_written hv hw htype (by simpa using hwritten)

/-- Lines that begin with one name and go on alike say the same. -/
theorem eq_of_tail (hl : l.Writable) (hm : m.Writable) (hname : l.name = m.name)
    (h : l.tail = m.tail) : l = m := by
  cases l with
  | heading kind styleClass =>
    cases m with
    | heading kind' styleClass' =>
      obtain rfl := String.toList_inj.mp hname
      cases styleClass <;> cases styleClass' <;> simp_all [tail, String.toList_inj]
    | entry name v => cases styleClass <;> simp [tail] at h
  | entry name v =>
    cases m with
    | heading kind styleClass => cases styleClass <;> simp [tail] at h
    | entry name' w =>
      obtain rfl := String.toList_inj.mp hname
      rw [tail_entry_inj hl.2 hm.2 h]

theorem eq_of_chars (hl : l.Writable) (hm : m.Writable) (h : l.chars = m.chars) : l = m := by
  obtain ⟨hname, htail⟩ := append_inj_of_stops (isIdentPart_of_isIdentifier hl.name)
    (isIdentPart_of_isIdentifier hm.name) (stops_tail l) (stops_tail m) h
  exact eq_of_tail hl hm hname htail

theorem newline_not_mem_chars (h : l.Writable) : '\n' ∉ l.chars := by
  have hname := newline_not_mem_identifier h.name
  have htail : '\n' ∉ l.tail := by
    cases l with
    | heading kind styleClass =>
      cases styleClass with
      | none => simp [tail]
      | some cls => simpa [tail] using newline_not_mem_identifier (h.2 cls rfl)
    | entry name v =>
      have htype : '\n' ∉ v.type.name.toList := fun hmem =>
        absurd (isAlpha_type_name _ _ hmem) (by decide)
      simp [tail, htype, newline_not_mem_written h.2]
  simp [chars, hname, htail]

/-- A line begins with a name, so with no blank. -/
theorem stops_chars (h : l.Writable) (rest : List Char) : Stops (· = ' ') (l.chars ++ rest) := by
  have hname := h.name
  unfold chars
  cases hcs : l.name with
  | nil => simp [hcs, isIdentifier] at hname
  | cons c cs =>
    have hc := isIdentPart_of_isIdentifier hname c (by simp [hcs])
    have hblank : c ≠ ' ' := by
      rintro rfl
      exact absurd hc (by decide)
    simpa [Stops] using hblank

/-! ## Lines at their levels -/

/-- A line behind its indentation, with its end. -/
def printed (p : Nat × DumpLine) : List Char :=
  List.replicate (2 * p.1) ' ' ++ (p.2.chars ++ ['\n'])

theorem printed_append_inj {p q : Nat × DumpLine} {rest rest' : List Char} (hp : p.2.Writable)
    (hq : q.2.Writable) (h : printed p ++ rest = printed q ++ rest') : p = q ∧ rest = rest' := by
  have hblank (n : Nat) : ∀ c ∈ List.replicate n ' ', decide (c = ' ') := by
    intro c hc
    simpa using List.eq_of_mem_replicate hc
  have hline {l : DumpLine} (hl : l.Writable) : ∀ c ∈ l.chars, decide (c ≠ '\n') := by
    intro c hc
    exact decide_eq_true fun hnewline => newline_not_mem_chars hl (hnewline ▸ hc)
  simp only [printed, List.append_assoc] at h
  obtain ⟨hindent, h⟩ :=
    append_inj_of_stops (hblank _) (hblank _) (stops_chars hp _) (stops_chars hq _) h
  obtain ⟨hchars, h⟩ := append_inj_of_stops (hline hp) (hline hq) (by simp [Stops])
    (by simp [Stops]) h
  have hlevel : p.1 = q.1 := by
    have hlength := congrArg List.length hindent
    simp only [List.length_replicate] at hlength
    omega
  exact ⟨Prod.ext hlevel (eq_of_chars hp hq hchars), by simpa using h⟩

theorem flatMap_printed_inj {ls ms : List (Nat × DumpLine)} (hls : ∀ p ∈ ls, p.2.Writable)
    (hms : ∀ p ∈ ms, p.2.Writable) (h : ls.flatMap printed = ms.flatMap printed) : ls = ms := by
  induction ls generalizing ms with
  | nil =>
    cases ms with
    | nil => rfl
    | cons q ms => simp [printed] at h
  | cons p ls ih =>
    cases ms with
    | nil => simp [printed] at h
    | cons q ms =>
      rw [List.forall_mem_cons] at hls hms
      rw [List.flatMap_cons, List.flatMap_cons] at h
      obtain ⟨rfl, hrest⟩ := printed_append_inj hls.1 hms.1 h
      rw [ih hls.2 hms.2 hrest]

end DumpLine

/-! ## Trees as lines -/

namespace Component

open DumpLine (printed)

def entryLine (level : Nat) (e : String × Value) : Nat × DumpLine := (level, .entry e.1 e.2)

mutual

/-- The lines of a component that stands `level` levels deep. -/
def linesAt (level : Nat) : Component → List (Nat × DumpLine)
  | ⟨kind, styleClass, attributes, children⟩ =>
    (level, .heading kind styleClass) :: (attributes.entries.map (entryLine (level + 1))
      ++ linesAllAt (level + 1) children)

def linesAllAt (level : Nat) : List Component → List (Nat × DumpLine)
  | [] => []
  | c :: cs => c.linesAt level ++ linesAllAt level cs

end

theorem replicate_blanks (level : Nat) :
    List.replicate (2 * (level + 1)) ' ' = List.replicate (2 * level) ' ' ++ "  ".toList := by
  rw [Nat.mul_add, List.replicate_add]
  rfl

theorem toList_timesText (level : Nat) :
    (timesText level "  ").toList = List.replicate (2 * level) ' ' := by
  induction level with
  | zero => rfl
  | succ level ih =>
    rw [replicate_blanks, ← ih, timesText, timesText, String.toList_join, String.toList_join,
      List.replicate_succ', List.flatMap_append, List.flatMap_singleton]

theorem toList_heading (kind : String) (styleClass : Option String) :
    (Declaration.heading kind styleClass).toList = (DumpLine.heading kind styleClass).chars := by
  cases styleClass <;> simp [Declaration.heading, DumpLine.chars, DumpLine.name, DumpLine.tail]

theorem toList_dumpAttribute (e : String × Value) :
    (dumpAttribute e.1 e.2).toList = (DumpLine.entry e.1 e.2).chars := by
  simp [dumpAttribute, DumpLine.chars, DumpLine.name, DumpLine.tail, Value.literal]

mutual

theorem toList_dumpAt (level : Nat) : ∀ c : Component,
    (c.dumpAt level).toList = (c.linesAt level).flatMap printed
  | ⟨kind, styleClass, attributes, children⟩ => by
    have hentry (e : String × Value) :
        (timesText level "  " ++ "  " ++ dumpAttribute e.1 e.2 ++ "\n").toList =
          printed (entryLine (level + 1) e) := by
      rw [printed, entryLine, replicate_blanks, ← toList_timesText, ← toList_dumpAttribute]
      simp
    rw [dumpAt, linesAt, List.flatMap_cons, List.flatMap_append,
      ← toList_dumpAllAt (level + 1) children]
    simp only [String.toList_append, String.toList_join, List.flatMap_map, hentry, toList_timesText,
      toList_heading]
    simp [printed]

theorem toList_dumpAllAt (level : Nat) : ∀ cs : List Component,
    (dumpAllAt level cs).toList = (linesAllAt level cs).flatMap printed
  | [] => rfl
  | c :: cs => by
    rw [dumpAllAt, linesAllAt, String.toList_append, List.flatMap_append, toList_dumpAt level c,
      toList_dumpAllAt level cs]

end

/-! ## Lines as trees -/

/-- A text of lines goes on at a lower level, or not at all. -/
def Below (level : Nat) (lines : List (Nat × DumpLine)) : Prop := ∀ p ∈ lines.head?, p.1 < level

theorem below_mono {level level' : Nat} {lines : List (Nat × DumpLine)} (h : Below level lines)
    (hle : level ≤ level') : Below level' lines :=
  fun p hp => Nat.lt_of_lt_of_le (h p hp) hle

theorem exists_lines (level : Nat) (c : Component) (cs : List Component)
    (rest : List (Nat × DumpLine)) :
    ∃ lines, linesAllAt level (c :: cs) ++ rest =
      (level, .heading c.kind c.styleClass) :: lines := by
  obtain ⟨kind, styleClass, attributes, children⟩ := c
  exact ⟨_, rfl⟩

theorem below_lines {level : Nat} {rest : List (Nat × DumpLine)} (h : Below level rest)
    (cs : List Component) : Below (level + 1) (linesAllAt level cs ++ rest) := by
  cases cs with
  | nil => exact below_mono h (Nat.le_succ level)
  | cons c cs =>
    obtain ⟨lines, hlines⟩ := exists_lines level c cs rest
    simp [hlines, Below]

/-- At the level of listed components stand no lines but their headings. -/
theorem lines_ne_entry {level : Nat} {rest : List (Nat × DumpLine)} (h : Below level rest)
    (cs : List Component) (e : String × Value) (lines : List (Nat × DumpLine)) :
    linesAllAt level cs ++ rest ≠ entryLine level e :: lines := by
  intro hlines
  cases cs with
  | nil =>
    have hrest : rest = entryLine level e :: lines := hlines
    exact Nat.lt_irrefl level (h (entryLine level e) (by simp [hrest]))
  | cons c cs =>
    obtain ⟨lines', hcs⟩ := exists_lines level c cs rest
    simp [hcs, entryLine] at hlines

theorem lines_ne_rest {level : Nat} {rest : List (Nat × DumpLine)} (h : Below level rest)
    (c : Component) (cs : List Component) (rest' : List (Nat × DumpLine)) :
    linesAllAt level (c :: cs) ++ rest' ≠ rest := by
  intro hlines
  obtain ⟨lines, hcs⟩ := exists_lines level c cs rest'
  exact Nat.lt_irrefl level (h (level, .heading c.kind c.styleClass) (by simp [← hlines, hcs]))

theorem entries_append_inj {level : Nat} {cs cs' : List Component}
    {rest rest' : List (Nat × DumpLine)} (hrest : Below level rest) (hrest' : Below level rest')
    {es es' : List (String × Value)}
    (h : es.map (entryLine level) ++ (linesAllAt level cs ++ rest) =
      es'.map (entryLine level) ++ (linesAllAt level cs' ++ rest')) :
    es = es' ∧ linesAllAt level cs ++ rest = linesAllAt level cs' ++ rest' := by
  induction es generalizing es' with
  | nil =>
    cases es' with
    | nil => exact ⟨rfl, h⟩
    | cons e es' => exact absurd h (lines_ne_entry hrest cs e _)
  | cons e es ih =>
    cases es' with
    | nil => exact absurd h.symm (lines_ne_entry hrest' cs' e _)
    | cons e' es' =>
      simp only [List.map_cons, List.cons_append, List.cons.injEq] at h
      obtain ⟨hentries, hlines⟩ := ih h.2
      have he : e = e' := by simpa [entryLine, Prod.ext_iff] using h.1
      exact ⟨by rw [he, hentries], hlines⟩

mutual

/-- A component takes the lines behind its own as long as they stand at a higher level. -/
theorem linesAt_append_inj {level : Nat} :
    ∀ {c c' : Component} {rest rest' : List (Nat × DumpLine)},
    Below (level + 1) rest → Below (level + 1) rest' →
    c.linesAt level ++ rest = c'.linesAt level ++ rest' → c = c' ∧ rest = rest'
  | ⟨kind, styleClass, attributes, children⟩, ⟨kind', styleClass', attributes', children'⟩,
      rest, rest', hrest, hrest', h => by
    simp only [linesAt, List.cons_append, List.append_assoc, List.cons.injEq, Prod.mk.injEq,
      DumpLine.heading.injEq, true_and] at h
    obtain ⟨⟨rfl, rfl⟩, h⟩ := h
    obtain ⟨hentries, h⟩ := entries_append_inj hrest hrest' h
    obtain ⟨rfl, rfl⟩ := linesAllAt_append_inj hrest hrest' h
    obtain ⟨entries, hsorted⟩ := attributes
    obtain ⟨entries', hsorted'⟩ := attributes'
    obtain rfl : entries = entries' := hentries
    exact ⟨rfl, rfl⟩

theorem linesAllAt_append_inj {level : Nat} :
    ∀ {cs cs' : List Component} {rest rest' : List (Nat × DumpLine)},
    Below level rest → Below level rest' →
    linesAllAt level cs ++ rest = linesAllAt level cs' ++ rest' → cs = cs' ∧ rest = rest'
  | [], [], _, _, _, _, h => ⟨rfl, h⟩
  | [], c :: cs, _, rest', hrest, _, h => absurd h.symm (lines_ne_rest hrest c cs rest')
  | c :: cs, [], rest, _, _, hrest', h => absurd h (lines_ne_rest hrest' c cs rest)
  | c :: cs, c' :: cs', rest, rest', hrest, hrest', h => by
    simp only [linesAllAt, List.append_assoc] at h
    obtain ⟨rfl, hmore⟩ := linesAt_append_inj (below_lines hrest cs) (below_lines hrest' cs') h
    obtain ⟨rfl, rfl⟩ := linesAllAt_append_inj hrest hrest' hmore
    exact ⟨rfl, rfl⟩

end

/-! ## Texts as trees -/

mutual

theorem writable_linesAt (level : Nat) : ∀ c : Component, (∀ b ∈ c.preorder, b.Writable) →
    ∀ p ∈ c.linesAt level, p.2.Writable
  | ⟨kind, styleClass, attributes, children⟩, h => by
    rw [preorder, List.forall_mem_cons] at h
    obtain ⟨hfirst, hchildren⟩ := h
    rw [linesAt, List.forall_mem_cons, List.forall_mem_append, List.forall_mem_map]
    exact ⟨⟨hfirst.kind, hfirst.styleClass⟩, hfirst.attributes,
      writable_linesAllAt (level + 1) children hchildren⟩

theorem writable_linesAllAt (level : Nat) : ∀ cs : List Component,
    (∀ b ∈ preorderAll cs, b.Writable) → ∀ p ∈ linesAllAt level cs, p.2.Writable
  | [], _ => by simp [linesAllAt]
  | c :: cs, h => by
    rw [preorderAll, List.forall_mem_append] at h
    rw [linesAllAt, List.forall_mem_append]
    exact ⟨writable_linesAt level c h.1, writable_linesAllAt level cs h.2⟩

end

theorem eq_of_dumpAllAt {level : Nat} {cs cs' : List Component}
    (hcs : ∀ c ∈ preorderAll cs, c.Writable) (hcs' : ∀ c ∈ preorderAll cs', c.Writable)
    (h : dumpAllAt level cs = dumpAllAt level cs') : cs = cs' := by
  have htexts := congrArg String.toList h
  rw [toList_dumpAllAt, toList_dumpAllAt] at htexts
  have hlines := DumpLine.flatMap_printed_inj (writable_linesAllAt level cs hcs)
    (writable_linesAllAt level cs' hcs') htexts
  have hend : Below level [] := by simp [Below]
  exact (linesAllAt_append_inj hend hend (by simpa using hlines)).1

end Component

theorem writable_of_check {r : Registry} {options : CheckOptions} {source : String}
    {checked : CheckedDocument}
    (hsheet : ∀ sheet ∈ options.stylesheet, ∃ r' text, Stylesheet.parse r' text = .ok sheet)
    (h : check r options source = .ok checked) :
    ∀ c ∈ Component.preorderAll checked.components, c.Writable := by
  obtain ⟨doc, hparse, -, rfl⟩ := check_eq_ok_iff.mp h
  rw [Validator.preorderAll_components, List.forall_mem_map]
  exact fun d hd => Validator.writable_component hsheet (named_of_parse hparse d hd)

/-- **A dump identifies the document.** Checked documents with the same text are the same, whatever
they were checked from and with. -/
theorem dump_identifies {r r' : Registry} {options options' : CheckOptions}
    {source source' : String} {checked checked' : CheckedDocument}
    (hsheet : ∀ sheet ∈ options.stylesheet, ∃ r text, Stylesheet.parse r text = .ok sheet)
    (hsheet' : ∀ sheet ∈ options'.stylesheet, ∃ r text, Stylesheet.parse r text = .ok sheet)
    (h : check r options source = .ok checked) (h' : check r' options' source' = .ok checked')
    (hdump : checked.dump = checked'.dump) : checked = checked' := by
  obtain ⟨components⟩ := checked
  obtain ⟨components'⟩ := checked'
  have hcomponents : components = components' :=
    Component.eq_of_dumpAllAt (writable_of_check hsheet h) (writable_of_check hsheet' h') hdump
  rw [hcomponents]

/-- One document takes its color from a stylesheet, the other one writes it down. -/
theorem dump_identifies_box :
    let size : Attribute := .plain "size" .float "" false
    let color : Attribute := .plain "color" .color "" false
    let box : ComponentSchema := ⟨"box", "", [], [size, color], by decide⟩
    let r : Registry := ⟨.empty, NameMap.empty.insert "box" box, none⟩
    ∃ sheet checked checked', Stylesheet.parse r "box \x7b color: red; \x7d" = .ok sheet ∧
      check r ⟨1, some sheet⟩ "box \x7b size: 10.0; \x7d" = .ok checked ∧
      check r ⟨1, none⟩ "box\x7bcolor:#f00;size:1e1;\x7d" = .ok checked' ∧
      checked.dump = "box\n  color: color = #FF0000\n  size: float = 10.0\n" ∧
      checked'.dump = checked.dump ∧ checked = checked' := by
  intro size color box r
  let red : Assignment := ⟨⟨"color", ⟨6, 11⟩⟩, ⟨"red", ⟨13, 16⟩⟩, ⟨6, 17⟩⟩
  let rule : Declaration := ⟨⟨"box", ⟨0, 3⟩⟩, none, [red], [], ⟨0, 19⟩⟩
  let sheet : Stylesheet := Stylesheet.addRule r .empty rule
  have hrule : Document.parse "box \x7b color: red; \x7d" defaultMaxDepth = .ok ⟨[rule]⟩ := by cbv
  have hright : ∀ d ∈ Declaration.preorderAll [rule], Stylesheet.ruleErrors r d = [] := by
    decide +kernel
  have hrules := Stylesheet.ofDeclarations_eq_ok_iff.mpr ⟨hright, rfl⟩
  have hsheet : Stylesheet.parse r "box \x7b color: red; \x7d" = .ok sheet :=
    Stylesheet.parse_eq_ok_iff_rules.mpr ⟨_, hrule, hrules⟩
  let ten : Assignment := ⟨⟨"size", ⟨6, 10⟩⟩, ⟨"10.0", ⟨12, 16⟩⟩, ⟨6, 17⟩⟩
  let styled : Document := ⟨[⟨⟨"box", ⟨0, 3⟩⟩, none, [ten], [], ⟨0, 19⟩⟩]⟩
  let hex : Assignment := ⟨⟨"color", ⟨4, 9⟩⟩, ⟨"#f00", ⟨10, 14⟩⟩, ⟨4, 15⟩⟩
  let ten' : Assignment := ⟨⟨"size", ⟨15, 19⟩⟩, ⟨"1e1", ⟨20, 23⟩⟩, ⟨15, 24⟩⟩
  let dense : Document := ⟨[⟨⟨"box", ⟨0, 3⟩⟩, none, [hex, ten'], [], ⟨0, 25⟩⟩]⟩
  have hstyled : Document.parse "box \x7b size: 10.0; \x7d" 1 = .ok styled := by cbv
  have hdense : Document.parse "box\x7bcolor:#f00;size:1e1;\x7d" 1 = .ok dense := by cbv
  have hchecked : check r ⟨1, some sheet⟩ "box \x7b size: 10.0; \x7d" = .ok _ :=
    check_eq_ok_iff.mpr ⟨styled, hstyled, by decide +kernel, rfl⟩
  have hchecked' : check r ⟨1, none⟩ "box\x7bcolor:#f00;size:1e1;\x7d" = .ok _ :=
    check_eq_ok_iff.mpr ⟨dense, hdense, by decide +kernel, rfl⟩
  refine ⟨sheet, _, _, hsheet, hchecked, hchecked', by decide +kernel, by decide +kernel, ?_⟩
  refine dump_identifies ?_ (by simp) hchecked hchecked' (by decide +kernel)
  rintro _ ⟨⟩
  exact ⟨r, _, hsheet⟩

end UiMarkup
