import UiMarkup.Proofs.Declaration.Places
import UiMarkup.Proofs.Declaration.Printing

/-!
# Trees that can be written

A tree whose names are identifiers and whose values are single tokens has a
canonical text that is read as that tree. Whatever was read has such names.
-/

namespace UiMarkup

open Grammar

namespace Declaration

/-- Everything that a declaration names is an identifier. -/
structure Named (d : Declaration) : Prop where
  kind : isIdentifier d.kindName.toList
  styleClass : ∀ cls ∈ d.className, isIdentifier cls.toList
  assigned : ∀ a ∈ d.assignments, isIdentifier a.name.value.toList

/-- Names are identifiers, and values are tokens that can be spelled. -/
structure Writable (d : Declaration) : Prop extends Named d where
  values : ∀ a ∈ d.assignments, ∃ t : Token, t.scalar? = some a.value.value ∧ Legible t

mutual

theorem erase_erase : ∀ d : Declaration, d.erase.erase = d.erase
  | ⟨kind, cls, as, children, span⟩ => by
    rw [erase, erase, eraseAll_eraseAll children, List.map_map, Option.map_map]
    rfl

theorem eraseAll_eraseAll : ∀ ds : List Declaration, eraseAll (eraseAll ds) = eraseAll ds
  | [] => rfl
  | d :: ds => by rw [eraseAll, eraseAll, erase_erase d, eraseAll_eraseAll ds]

end

end Declaration

open Declaration (preorder preorderAll erase eraseAll)

namespace Grammar

/-! ## What is read is named -/

theorem legibleAll_nil : LegibleAll [] := fun _ => nofun

theorem LegibleAll.of_part {ts us : List (Placed Token)} (h : LegibleAll ts) (hus : us <:+: ts) :
    LegibleAll us := fun t ht => h t (hus.subset ht)

theorem isIdentifier_of_heading {ts : List (Placed Token)} {kind : Placed String}
    {cls : Option (Placed String)} (h : Heading ts kind cls) (hlegible : LegibleAll ts) :
    isIdentifier kind.value.toList ∧ ∀ c ∈ cls.map Placed.value, isIdentifier c.toList := by
  cases h with
  | plain hkind =>
    have hlkind := hlegible _ List.mem_cons_self
    rw [hkind] at hlkind
    exact ⟨hlkind, by simp⟩
  | styled hkind hdot hcls =>
    simp only [legibleAll_cons, hkind, hcls] at hlegible
    obtain ⟨hlkind, -, hlcls, -⟩ := hlegible
    refine ⟨hlkind, ?_⟩
    rintro c ⟨⟩
    exact hlcls

theorem isIdentifier_of_assigns {ts : List (Placed Token)} {a : Assignment} (h : Assigns ts a)
    (hlegible : LegibleAll ts) : isIdentifier a.name.value.toList := by
  cases h with
  | mk hname =>
    have hlname := hlegible _ List.mem_cons_self
    rwa [hname] at hlname

theorem named_of_declares {ts : List (Placed Token)} {d : Declaration} (h : Declares ts d)
    (hlegible : LegibleAll ts) : d.Named := by
  have hassigned : ∀ a ∈ d.assignments, isIdentifier a.name.value.toList := by
    intro a ha
    obtain ⟨us, hus, hassigns⟩ := part_assignment h ha
    exact isIdentifier_of_assigns hassigns (hlegible.of_part hus)
  cases h with
  | mk hheading =>
    simp only [List.append_assoc, legibleAll_append] at hlegible
    obtain ⟨hkind, hcls⟩ := isIdentifier_of_heading hheading hlegible.1
    exact ⟨hkind, hcls, hassigned⟩

end Grammar

/-! ## Tokens for a tree -/

def Placed.atNowhere {α : Type} (a : α) : Placed α := ⟨a, .nowhere⟩

namespace Grammar

theorem assigns_erase {a : Assignment} (hname : isIdentifier a.name.value.toList)
    (hvalue : ∃ t : Token, t.scalar? = some a.value.value ∧ Legible t) :
    ∃ ts, Assigns ts a.erase ∧ LegibleAll ts := by
  obtain ⟨t, hscalar, hlegible⟩ := hvalue
  let name : Placed Token := .atNowhere (.ident a.name.value)
  refine ⟨name :: .atNowhere .colon :: [.atNowhere t] ++ [.atNowhere .semicolon],
    .mk rfl rfl (.scalar hscalar) rfl, ?_⟩
  simp only [List.cons_append, legibleAll_cons, List.nil_append]
  exact ⟨hname, trivial, hlegible, trivial, legibleAll_nil⟩

theorem heading_erase {kind : Placed String} {cls : Option (Placed String)}
    (hkind : isIdentifier kind.value.toList)
    (hcls : ∀ c ∈ cls.map Placed.value, isIdentifier c.toList) :
    ∃ ts, Heading ts kind.erase (cls.map Placed.erase) ∧ LegibleAll ts := by
  let name : Placed Token := .atNowhere (.ident kind.value)
  cases cls with
  | none =>
    refine ⟨[name], .plain rfl, ?_⟩
    simp only [legibleAll_cons]
    exact ⟨hkind, legibleAll_nil⟩
  | some c =>
    refine ⟨[name, .atNowhere .dot, .atNowhere (.ident c.value)], .styled rfl rfl rfl, ?_⟩
    simp only [legibleAll_cons]
    exact ⟨hkind, trivial, hcls c.value rfl, legibleAll_nil⟩

theorem body_assignments {as : List Assignment}
    (h : ∀ a ∈ as, ∃ ts, Assigns ts a.erase ∧ LegibleAll ts) :
    ∃ ts, Body ts (as.map Assignment.erase) [] ∧ LegibleAll ts := by
  induction as with
  | nil => exact ⟨[], .empty, legibleAll_nil⟩
  | cons a as ih =>
    obtain ⟨ts, hts, hlegible⟩ := h a List.mem_cons_self
    obtain ⟨us, hus, hlegible'⟩ := ih fun b hb => h b (List.mem_cons_of_mem a hb)
    exact ⟨ts ++ us, body_append (.assign .empty hts) hus,
      legibleAll_append.mpr ⟨hlegible, hlegible'⟩⟩

mutual

/-- A writable tree is derived from legible tokens, all of them at no place. -/
theorem declares_erase : ∀ d : Declaration, (∀ e ∈ d.preorder, e.Writable) →
    ∃ ts, Declares ts d.erase ∧ LegibleAll ts
  | ⟨kind, cls, as, children, span⟩, h => by
    rw [preorder, List.forall_mem_cons] at h
    obtain ⟨hd, hchildren⟩ := h
    obtain ⟨hs, hheading, hlheading⟩ := heading_erase hd.kind hd.styleClass
    obtain ⟨ts, hassigned, hlassigned⟩ := body_assignments fun a ha =>
      assigns_erase (hd.assigned a ha) (hd.values a ha)
    obtain ⟨us, hnested, hlnested⟩ := roots_eraseAll children hchildren
    refine ⟨hs ++ .atNowhere .braceOpen :: (ts ++ us) ++ [.atNowhere .braceClose], ?_, ?_⟩
    · have hbody := body_append hassigned (body_of_roots hnested)
      rw [List.append_nil, List.nil_append] at hbody
      exact .mk hheading rfl hbody rfl
    · simp only [List.append_assoc, List.cons_append, legibleAll_append, legibleAll_cons]
      exact ⟨hlheading, trivial, hlassigned, hlnested, trivial, legibleAll_nil⟩

theorem roots_eraseAll : ∀ ds : List Declaration, (∀ d ∈ preorderAll ds, d.Writable) →
    ∃ ts, Roots ts (eraseAll ds) ∧ LegibleAll ts
  | [], _ => ⟨[], .nil, legibleAll_nil⟩
  | d :: ds, h => by
    rw [preorderAll, List.forall_mem_append] at h
    obtain ⟨ts, hts, hlegible⟩ := declares_erase d h.1
    obtain ⟨us, hus, hlegible'⟩ := roots_eraseAll ds h.2
    exact ⟨ts ++ us, .cons hts hus, legibleAll_append.mpr ⟨hlegible, hlegible'⟩⟩

end

end Grammar

/-! ## Sources -/

theorem named_of_parse {source : String} {maxDepth : Nat} {doc : Document}
    (h : Document.parse source maxDepth = .ok doc) : ∀ d ∈ preorderAll doc.roots, d.Named := by
  obtain ⟨ts, hlex, hroots, -⟩ := parse_eq_ok_iff.mp h
  intro d hd
  obtain ⟨us, hus, hdeclares⟩ := part_body (body_of_roots hroots) d hd
  exact named_of_declares hdeclares ((legibleAll_of_lex hlex).of_part hus)

/-- The canonical text of a writable tree is read as the tree, but for its places. -/
theorem parse_print_of_writable {doc : Document} {maxDepth : Nat}
    (h : ∀ d ∈ preorderAll doc.roots, d.Writable) (hdepth : ∀ d ∈ doc.roots, d.depth ≤ maxDepth) :
    ∃ again, Document.parse doc.print maxDepth = .ok again ∧ again.erase = doc.erase := by
  obtain ⟨ts, hroots, hlegible⟩ := roots_eraseAll doc.roots h
  rw [← Declaration.deepest_le_iff, ← Declaration.deepest_eraseAll,
    Declaration.deepest_le_iff] at hdepth
  obtain ⟨again, hagain, herase⟩ := parse_print_of_roots hroots hlegible hdepth
  rw [← Document.erase, Document.print_erase] at hagain
  refine ⟨again, hagain, herase.trans ?_⟩
  rw [Document.erase, Document.erase, Declaration.eraseAll_eraseAll]

end UiMarkup
