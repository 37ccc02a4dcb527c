import UiMarkup.Proofs.Check.Formatting
import UiMarkup.Proofs.Check.Rules
import UiMarkup.Proofs.Declaration.Legible

/-!
# Rules are flat and independent

A rule means the same inside of another one and by itself. Rules for different
kinds or classes may be put in either order, so a rule for a class may stand in
front of the one for its kind or behind it.
-/

namespace UiMarkup

open Declaration (preorderAll)

/-! ## Rules without children -/

namespace Declaration

def childless (d : Declaration) : Declaration := { d with children := [] }

/-- All declarations of a walk, one behind the other. -/
def flattened (ds : List Declaration) : List Declaration := (preorderAll ds).map childless

theorem preorder_childless {d : Declaration} (h : d.children = []) : d.preorder = [d] := by
  obtain ⟨kind, styleClass, assignments, children, span⟩ := d
  obtain rfl : children = [] := h
  rfl

theorem preorderAll_childless {ds : List Declaration} (h : ∀ d ∈ ds, d.children = []) :
    preorderAll ds = ds := by
  induction ds with
  | nil => rfl
  | cons d ds ih =>
    obtain ⟨hfirst, hrest⟩ := List.forall_mem_cons.mp h
    rw [preorderAll, preorder_childless hfirst, ih hrest, List.singleton_append]

theorem children_of_mem_flattened {ds : List Declaration} :
    ∀ d ∈ flattened ds, d.children = [] := by
  rintro d hd
  obtain ⟨e, -, rfl⟩ := List.mem_map.mp hd
  rfl

theorem depth_of_childless {d : Declaration} (h : d.children = []) : d.depth = 1 := by
  obtain ⟨kind, styleClass, assignments, children, span⟩ := d
  obtain rfl : children = [] := h
  rfl

end Declaration

open Declaration (childless flattened)

/-- The walk over a list of single rules is the list, so nothing is lost and no error moves. -/
theorem Stylesheet.ofDeclarations_flattened (r : Registry) (ds : List Declaration) :
    ofDeclarations r (flattened ds) = ofDeclarations r ds := by
  rw [ofDeclarations_eq_settle, ofDeclarations_eq_settle,
    Declaration.preorderAll_childless Declaration.children_of_mem_flattened, flattened,
    List.flatMap_map, List.foldl_map]
  rfl

/-! ## Rules side by side -/

theorem KindStyle.extend_comm {k : KindStyle} {values more : List (String × Value)}
    {styleClass other : Option String} (h : styleClass ≠ other) :
    (k.extend values styleClass).extend more other =
      (k.extend more other).extend values styleClass := by
  cases styleClass with
  | none =>
    cases other with
    | none => exact absurd rfl h
    | some c => rfl
  | some c =>
    cases other with
    | none => rfl
    | some c' =>
      have hc : c ≠ c' := fun hc => h (congrArg some hc)
      simp only [extend, NameMap.update_comm hc]

namespace Stylesheet

variable {r : Registry} {s sheet : Stylesheet} {d e : Declaration}

/-- Rules for different kinds change different entries, and those for different classes of one
kind different parts of one entry. -/
theorem addRule_comm (h : d.kindName ≠ e.kindName ∨ d.className ≠ e.className) :
    addRule r (addRule r s d) e = addRule r (addRule r s e) d := by
  unfold addRule
  cases hd : r.schema? d.kindName with
  | none => rfl
  | some schema =>
    cases he : r.schema? e.kindName with
    | none => rfl
    | some schema' =>
      by_cases hkind : d.kindName = e.kindName
      · have hclass := h.resolve_left (not_not_intro hkind)
        simp only [hkind, NameMap.update_update, KindStyle.extend_comm hclass]
      · simp only [NameMap.update_comm hkind]

theorem ofDeclarations_swap {front back : List Declaration}
    (hflat : ∀ x ∈ front ++ d :: e :: back, x.children = [])
    (hapart : d.kindName ≠ e.kindName ∨ d.className ≠ e.className)
    (h : ofDeclarations r (front ++ d :: e :: back) = .ok sheet) :
    ofDeclarations r (front ++ e :: d :: back) = .ok sheet := by
  have hperm : (front ++ e :: d :: back).Perm (front ++ d :: e :: back) :=
    (List.Perm.swap d e back).append_left front
  have hflat' : ∀ x ∈ front ++ e :: d :: back, x.children = [] :=
    fun x hx => hflat x (hperm.mem_iff.mp hx)
  rw [ofDeclarations_eq_ok_iff, Declaration.preorderAll_childless hflat] at h
  rw [ofDeclarations_eq_ok_iff, Declaration.preorderAll_childless hflat']
  obtain ⟨hright, rfl⟩ := h
  refine ⟨fun x hx => hright x (hperm.mem_iff.mp hx), ?_⟩
  simp only [List.foldl_append, List.foldl_cons, addRule_comm hapart]

end Stylesheet

/-! ## Tokens of single rules -/

namespace Grammar

theorem LegibleAll.of_sublist {ts us : List (Placed Token)} (h : LegibleAll ts)
    (hus : us.Sublist ts) : LegibleAll us := fun t ht => h t (hus.subset ht)

/-- What is left of a body without its declarations. -/
theorem body_assigned {ts : List (Placed Token)} {as : List Assignment} {ds : List Declaration} :
    Body ts as ds → ∃ us, us.Sublist ts ∧ Body us as []
  | .empty => ⟨[], .slnil, .empty⟩
  | .assign hbody hassigns => by
    obtain ⟨us, hus, h⟩ := body_assigned hbody
    exact ⟨us ++ _, hus.append (.refl _), .assign h hassigns⟩
  | .child hbody _ => by
    obtain ⟨us, hus, h⟩ := body_assigned hbody
    exact ⟨us, hus.trans (List.sublist_append_left _ _), h⟩

theorem declares_childless {ts : List (Placed Token)} {d : Declaration} (h : Declares ts d) :
    ∃ us, us.Sublist ts ∧ Declares us d.childless := by
  cases h with
  | @mk hs ts open_ close _ _ _ _ hheading hopen hbody hclose =>
    obtain ⟨us, hus, hassigned⟩ := body_assigned hbody
    refine ⟨hs ++ open_ :: us ++ [close], ?_, .mk hheading hopen hassigned hclose⟩
    exact ((List.Sublist.refl hs).append (hus.cons_cons open_)).append (.refl _)

theorem roots_of_declares {ds : List Declaration}
    (h : ∀ d ∈ ds, ∃ ts, Declares ts d ∧ LegibleAll ts) : ∃ ts, Roots ts ds ∧ LegibleAll ts := by
  induction ds with
  | nil => exact ⟨[], .nil, legibleAll_nil⟩
  | cons d ds ih =>
    obtain ⟨⟨ts, hts, hlegible⟩, hrest⟩ := List.forall_mem_cons.mp h
    obtain ⟨us, hus, hlegible'⟩ := ih hrest
    exact ⟨ts ++ us, .cons hts hus, legibleAll_append.mpr ⟨hlegible, hlegible'⟩⟩

/-- Each rule of a source can be written by itself. -/
theorem declares_of_mem_flattened {ts : List (Placed Token)} {ds : List Declaration}
    (h : Roots ts ds) (hlegible : LegibleAll ts) :
    ∀ d ∈ flattened ds, ∃ us, Declares us d ∧ LegibleAll us := by
  intro d hd
  obtain ⟨e, he, rfl⟩ := List.mem_map.mp hd
  obtain ⟨us, hus, hdeclares⟩ := part_body (body_of_roots h) e he
  obtain ⟨vs, hvs, hchildless⟩ := declares_childless hdeclares
  exact ⟨vs, hchildless, (hlegible.of_part hus).of_sublist hvs⟩

end Grammar

/-! ## Stylesheets -/

namespace Stylesheet

open Grammar (Declares LegibleAll)

/-- The rules make the stylesheet, as they are and as their text. -/
structure MadeOf (r : Registry) (rules : List Declaration) (sheet : Stylesheet) : Prop where
  loads : ofDeclarations r rules = .ok sheet
  reads : parse r (Document.mk rules).print = .ok sheet

theorem madeOf_of_declares {r : Registry} {rules : List Declaration} {sheet : Stylesheet}
    (hflat : ∀ d ∈ rules, d.children = [])
    (hdeclares : ∀ d ∈ rules, ∃ ts, Declares ts d ∧ LegibleAll ts)
    (h : ofDeclarations r rules = .ok sheet) : MadeOf r rules sheet := by
  obtain ⟨ts, hroots, hlegible⟩ := Grammar.roots_of_declares hdeclares
  have hdepth : ∀ d ∈ rules, d.depth ≤ defaultMaxDepth := by
    intro d hd
    rw [Declaration.depth_of_childless (hflat d hd)]
    decide
  obtain ⟨again, hagain, herase⟩ := parse_print_of_roots hroots hlegible hdepth
  have hsame : Declaration.eraseAll again.roots = Declaration.eraseAll rules :=
    congrArg Document.roots herase
  refine ⟨h, parse_eq_ok_iff_rules.mpr ⟨again, hagain, ?_⟩⟩
  rw [ofDeclarations_eq_settle, rules_of_eraseAll r _ hsame]
  exact (moved_ruleErrors r hsame).settle_eq_ok_iff.mpr h

/-- **Rules are flat and independent.** The declarations of a stylesheet, each without those inside
it, make the same stylesheet. So they do when neighbours of different kinds or classes are swapped,
once or many times. A rule for a class wins over one for the kind alone wherever they stand. -/
theorem rules_are_independent (r : Registry) (source : String) (sheet : Stylesheet)
    (h : parse r source = .ok sheet) :
    ∃ doc, Document.parse source defaultMaxDepth = .ok doc ∧
      MadeOf r (flattened doc.roots) sheet ∧
      (∀ front d e back, (front ++ d :: e :: back).Perm (flattened doc.roots) →
        d.kindName ≠ e.kindName ∨ d.className ≠ e.className →
        MadeOf r (front ++ d :: e :: back) sheet → MadeOf r (front ++ e :: d :: back) sheet) ∧
      ∀ rules, MadeOf r rules sheet → ∀ kind styleClass name,
        (sheet.valuesFor kind (some styleClass)).get? name =
          (lastValue? r name kind (some styleClass) rules).or
            (lastValue? r name kind none rules) := by
  obtain ⟨doc, hparse, hsheet⟩ := parse_eq_ok_iff_rules.mp h
  obtain ⟨ts, hlex, hroots, -⟩ := parse_eq_ok_iff.mp hparse
  have hdeclares := Grammar.declares_of_mem_flattened hroots (legibleAll_of_lex hlex)
  refine ⟨doc, hparse, ?_, ?_, ?_⟩
  · refine madeOf_of_declares Declaration.children_of_mem_flattened hdeclares ?_
    rwa [ofDeclarations_flattened]
  · intro front d e back hperm hapart hmade
    have hflat : ∀ x ∈ front ++ d :: e :: back, x.children = [] :=
      fun x hx => Declaration.children_of_mem_flattened x (hperm.mem_iff.mp hx)
    have hswap : (front ++ e :: d :: back).Perm (front ++ d :: e :: back) :=
      (List.Perm.swap d e back).append_left front
    exact madeOf_of_declares (fun x hx => hflat x (hswap.mem_iff.mp hx))
      (fun x hx => hdeclares x ((hswap.trans hperm).mem_iff.mp hx))
      (ofDeclarations_swap hflat hapart hmade.loads)
  · intro rules hmade kind styleClass name
    rw [get?_valuesFor, Option.bind_some, get?_rule hmade.loads, get?_rule hmade.loads]

/-- The inner rule comes out, and then in front of the outer one. -/
theorem rules_are_independent_box :
    let text : Attribute := .plain "text" .string "" true
    let box : ComponentSchema := ⟨"box", "", [], [text], by decide⟩
    let r : Registry := ⟨.empty, NameMap.empty.insert "box" box, none⟩
    let source := "box \x7b box.hot \x7b text: \"Hot\"; \x7d text: \"Go\"; \x7d"
    let go : Assignment := ⟨⟨"text", ⟨31, 35⟩⟩, ⟨"\"Go\"", ⟨37, 41⟩⟩, ⟨31, 42⟩⟩
    let hot : Assignment := ⟨⟨"text", ⟨16, 20⟩⟩, ⟨"\"Hot\"", ⟨22, 27⟩⟩, ⟨16, 28⟩⟩
    let outer : Declaration := ⟨⟨"box", ⟨0, 3⟩⟩, none, [go], [], ⟨0, 44⟩⟩
    let inner : Declaration := ⟨⟨"box", ⟨6, 9⟩⟩, some ⟨"hot", ⟨10, 13⟩⟩, [hot], [], ⟨6, 30⟩⟩
    ∃ sheet, parse r source = .ok sheet ∧ MadeOf r [outer, inner] sheet ∧
      MadeOf r [inner, outer] sheet ∧
      (sheet.valuesFor "box" (some "hot")).get? "text" = some (.string "Hot") := by
  intro text box r source go hot outer inner
  let roots : List Declaration := [{ outer with children := [inner] }]
  let sheet : Stylesheet := (preorderAll roots).foldl (addRule r) empty
  have hroots : Document.parse source defaultMaxDepth = .ok ⟨roots⟩ := by cbv
  have hright : ∀ d ∈ preorderAll roots, ruleErrors r d = [] := by decide +kernel
  have hsheet : parse r source = .ok sheet := parse_of_rules hroots hright
  obtain ⟨doc, hdoc, hflat, hswap, hvalues⟩ := rules_are_independent r source sheet hsheet
  cases Except.ok.inj (hroots.symm.trans hdoc)
  have hclass : outer.className ≠ inner.className := by decide
  have hswapped := hswap [] outer inner [] (.refl _) (.inr hclass) hflat
  refine ⟨sheet, hsheet, hflat, hswapped, ?_⟩
  rw [hvalues _ hswapped]
  decide +kernel

end Stylesheet

end UiMarkup
