import UiMarkup.Declaration.Printer
import UiMarkup.Proofs.Declaration.Grammar

/-!
# Trees without their places

What a declaration says without where it stands. Moving its tokens to other
places changes nothing else about the tree that they derive.
-/

namespace UiMarkup

/-! ## Erasing places -/

/-- The place of whatever has none. -/
def Span.nowhere : Span := ⟨0, 0⟩

def Placed.erase {α : Type} (p : Placed α) : Placed α := ⟨p.value, .nowhere⟩

def Assignment.erase (a : Assignment) : Assignment := ⟨a.name.erase, a.value.erase, .nowhere⟩

namespace Declaration

mutual

/-- The same kind, class, assignments and children, at no place. -/
def erase : Declaration → Declaration
  | ⟨kind, styleClass, assignments, children, _⟩ =>
    ⟨kind.erase, styleClass.map Placed.erase, assignments.map Assignment.erase,
      eraseAll children, .nowhere⟩

def eraseAll : List Declaration → List Declaration
  | [] => []
  | d :: ds => d.erase :: eraseAll ds

end

theorem eraseAll_singleton (d : Declaration) : eraseAll [d] = [d.erase] := rfl

theorem eraseAll_append (ds es : List Declaration) :
    eraseAll (ds ++ es) = eraseAll ds ++ eraseAll es := by
  induction ds with
  | nil => rfl
  | cons d ds ih => rw [List.cons_append, eraseAll, eraseAll, ih, List.cons_append]

mutual

/-- Depth and layout look at no place. -/
theorem depth_erase : ∀ d : Declaration, d.erase.depth = d.depth
  | ⟨kind, styleClass, assignments, children, span⟩ => by
    rw [erase, depth, depth, deepest_eraseAll children]

theorem deepest_eraseAll : ∀ ds : List Declaration, deepest (eraseAll ds) = deepest ds
  | [] => rfl
  | d :: ds => by rw [eraseAll, deepest, deepest, depth_erase d, deepest_eraseAll ds]

end

theorem print_assignment_erase (a : Assignment) : a.erase.print = a.print := rfl

@[simp] theorem isEmpty_eraseAll (ds : List Declaration) :
    (eraseAll ds).isEmpty = ds.isEmpty := by
  cases ds <;> rfl

theorem className_erase (cls : Option (Placed String)) :
    (cls.map Placed.erase).map Placed.value = cls.map Placed.value := by
  cases cls <;> rfl

mutual

theorem printAt_erase : ∀ (d : Declaration) (level : Nat), d.erase.printAt level = d.printAt level
  | ⟨kind, styleClass, assignments, children, span⟩, level => by
    simp only [erase, printAt, Placed.erase, className_erase, List.isEmpty_map, List.map_map,
      Function.comp_def, print_assignment_erase, printAllAt_eraseAll children (level + 1),
      isEmpty_eraseAll]

theorem printAllAt_eraseAll :
    ∀ (ds : List Declaration) (level : Nat), printAllAt level (eraseAll ds) = printAllAt level ds
  | [], _ => rfl
  | d :: ds, level => by
    rw [eraseAll, printAllAt, printAllAt, printAt_erase d, printAllAt_eraseAll ds]

end

end Declaration

def Document.erase (doc : Document) : Document := ⟨Declaration.eraseAll doc.roots⟩

theorem Document.print_erase (doc : Document) : doc.erase.print = doc.print :=
  Declaration.printAllAt_eraseAll doc.roots 0

/-! ## Moving tokens -/

namespace Grammar

/-- The same tokens, at whatever places. -/
def Moved (ts us : List (Placed Token)) : Prop := us.map Placed.value = ts.map Placed.value

theorem moved_nil {us : List (Placed Token)} (h : Moved [] us) : us = [] :=
  List.map_eq_nil_iff.mp h

theorem moved_cons {t : Placed Token} {ts us : List (Placed Token)} (h : Moved (t :: ts) us) :
    ∃ u vs, us = u :: vs ∧ u.value = t.value ∧ Moved ts vs :=
  List.map_eq_cons_iff.mp h

theorem moved_one {t : Placed Token} {us : List (Placed Token)} (h : Moved [t] us) :
    ∃ u, us = [u] ∧ u.value = t.value := by
  obtain ⟨u, vs, rfl, hu, hvs⟩ := moved_cons h
  exact ⟨u, by rw [moved_nil hvs], hu⟩

theorem moved_append {ts ts' us : List (Placed Token)} (h : Moved (ts ++ ts') us) :
    ∃ vs vs', us = vs ++ vs' ∧ Moved ts vs ∧ Moved ts' vs' := by
  unfold Moved at h
  rw [List.map_append] at h
  exact List.map_eq_append_iff.mp h

theorem optionalComma_moved {ts us : List (Placed Token)} (h : OptionalComma ts)
    (hmoved : Moved ts us) : OptionalComma us := by
  cases h with
  | absent =>
    rw [moved_nil hmoved]
    exact .absent
  | present hcomma =>
    obtain ⟨u, rfl, hu⟩ := moved_one hmoved
    exact .present (hu.trans hcomma)

mutual

theorem value_moved {ts : List (Placed Token)} {v : Placed String} :
    Value ts v → ∀ us, Moved ts us → ∃ w, Value us w ∧ w.value = v.value
  | .scalar hscalar, us, hmoved => by
    obtain ⟨u, rfl, hu⟩ := moved_one hmoved
    exact ⟨_, .scalar (hu ▸ hscalar), rfl⟩
  | .tuple hopen hitems hcommas hclose, us, hmoved => by
    obtain ⟨front, last, rfl, hfront, hlast⟩ := moved_append hmoved
    obtain ⟨front, commas, rfl, hfront, hmcommas⟩ := moved_append hfront
    obtain ⟨o, is, rfl, ho, his⟩ := moved_cons hfront
    obtain ⟨c, rfl, hc⟩ := moved_one hlast
    have hitems' := items_moved hitems is his
    exact ⟨_, .tuple (ho.trans hopen) hitems' (optionalComma_moved hcommas hmcommas)
      (hc.trans hclose), rfl⟩

theorem items_moved {ts : List (Placed Token)} {items : List String} :
    Items ts items → ∀ us, Moved ts us → Items us items
  | .one hvalue, us, hmoved => by
    obtain ⟨w, hw, hsame⟩ := value_moved hvalue us hmoved
    exact hsame ▸ .one hw
  | .more hitems hcomma hvalue, us, hmoved => by
    obtain ⟨is, back, rfl, his, hback⟩ := moved_append hmoved
    obtain ⟨c, vs, rfl, hc, hvs⟩ := moved_cons hback
    obtain ⟨w, hw, hsame⟩ := value_moved hvalue vs hvs
    exact hsame ▸ .more (items_moved hitems is his) (hc.trans hcomma) hw

end

theorem assigns_moved {ts us : List (Placed Token)} {a : Assignment} (h : Assigns ts a)
    (hmoved : Moved ts us) : ∃ b, Assigns us b ∧ b.erase = a.erase := by
  obtain ⟨hname, hcolon, hvalue, hsemicolon⟩ := h
  obtain ⟨front, last, rfl, hfront, hlast⟩ := moved_append hmoved
  obtain ⟨n, front, rfl, hn, hfront⟩ := moved_cons hfront
  obtain ⟨c, vs, rfl, hc, hvs⟩ := moved_cons hfront
  obtain ⟨s, rfl, hs⟩ := moved_one hlast
  obtain ⟨w, hw, hsame⟩ := value_moved hvalue vs hvs
  refine ⟨_, .mk (hn.trans hname) (hc.trans hcolon) hw (hs.trans hsemicolon), ?_⟩
  simp [Assignment.erase, Placed.erase, hsame]

theorem heading_moved {ts us : List (Placed Token)} {kind : Placed String}
    {cls : Option (Placed String)} (h : Heading ts kind cls) (hmoved : Moved ts us) :
    ∃ kind' cls', Heading us kind' cls' ∧ kind'.erase = kind.erase ∧
      cls'.map Placed.erase = cls.map Placed.erase := by
  cases h with
  | plain hkind =>
    obtain ⟨k, rfl, hk⟩ := moved_one hmoved
    exact ⟨_, _, .plain (hk.trans hkind), rfl, rfl⟩
  | styled hkind hdot hcls =>
    obtain ⟨k, back, rfl, hk, hback⟩ := moved_cons hmoved
    obtain ⟨d, back, rfl, hd, hback⟩ := moved_cons hback
    obtain ⟨c, rfl, hc⟩ := moved_one hback
    exact ⟨_, _, .styled (hk.trans hkind) (hd.trans hdot) (hc.trans hcls), rfl, rfl⟩

mutual

theorem declares_moved {ts : List (Placed Token)} {d : Declaration} :
    Declares ts d → ∀ us, Moved ts us → ∃ e, Declares us e ∧ e.erase = d.erase
  | .mk hheading hopen hbody hclose, us, hmoved => by
    obtain ⟨front, last, rfl, hfront, hlast⟩ := moved_append hmoved
    obtain ⟨hs, back, rfl, hhs, hback⟩ := moved_append hfront
    obtain ⟨o, bs, rfl, ho, hbs⟩ := moved_cons hback
    obtain ⟨c, rfl, hc⟩ := moved_one hlast
    obtain ⟨kind', cls', hheading', hkind, hcls⟩ := heading_moved hheading hhs
    obtain ⟨as', ds', hbody', has, hds⟩ := body_moved hbody bs hbs
    refine ⟨_, .mk hheading' (ho.trans hopen) hbody' (hc.trans hclose), ?_⟩
    rw [Declaration.erase, Declaration.erase, hkind, hcls, has, hds]

theorem body_moved {ts : List (Placed Token)} {as : List Assignment} {ds : List Declaration} :
    Body ts as ds → ∀ us, Moved ts us → ∃ as' ds', Body us as' ds' ∧
      as'.map Assignment.erase = as.map Assignment.erase ∧
      Declaration.eraseAll ds' = Declaration.eraseAll ds
  | .empty, us, hmoved => by
    rw [moved_nil hmoved]
    exact ⟨_, _, .empty, rfl, rfl⟩
  | .assign hbody hassigns, us, hmoved => by
    obtain ⟨front, back, rfl, hfront, hback⟩ := moved_append hmoved
    obtain ⟨as', ds', hbody', has, hds⟩ := body_moved hbody front hfront
    obtain ⟨b, hb, hsame⟩ := assigns_moved hassigns hback
    refine ⟨_, _, .assign hbody' hb, ?_, hds⟩
    rw [List.map_append, List.map_append, has, List.map_singleton, List.map_singleton, hsame]
  | .child hbody hdeclares, us, hmoved => by
    obtain ⟨front, back, rfl, hfront, hback⟩ := moved_append hmoved
    obtain ⟨as', ds', hbody', has, hds⟩ := body_moved hbody front hfront
    obtain ⟨e, he, hsame⟩ := declares_moved hdeclares back hback
    refine ⟨_, _, .child hbody' he, has, ?_⟩
    rw [Declaration.eraseAll_append, Declaration.eraseAll_append, hds,
      Declaration.eraseAll_singleton, Declaration.eraseAll_singleton, hsame]

end

/-- Moved tokens derive the same roots, but for their places. -/
theorem roots_moved {ts us : List (Placed Token)} {ds : List Declaration} (h : Roots ts ds)
    (hmoved : Moved ts us) :
    ∃ es, Roots us es ∧ Declaration.eraseAll es = Declaration.eraseAll ds := by
  induction h generalizing us with
  | nil =>
    rw [moved_nil hmoved]
    exact ⟨_, .nil, rfl⟩
  | cons hdeclares _ ih =>
    obtain ⟨front, back, rfl, hfront, hback⟩ := moved_append hmoved
    obtain ⟨e, he, hsame⟩ := declares_moved hdeclares front hfront
    obtain ⟨es, hes, hsames⟩ := ih hback
    exact ⟨_, .cons he hes, by rw [Declaration.eraseAll, Declaration.eraseAll, hsame, hsames]⟩

end Grammar

end UiMarkup
