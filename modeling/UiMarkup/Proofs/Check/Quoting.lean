import UiMarkup.Proofs.Check.Outcome
import UiMarkup.Proofs.Check.Values
import UiMarkup.Proofs.Declaration.Excerpts

/-!
# What spans point at

The spans of a tree lie in one another as its parts do, and cut the parts out
of the source. So an error that a check finds stands at the text it speaks of.
-/

namespace UiMarkup

open Declaration (preorderAll)

/-- What an error speaks of is what the source has at its span. -/
def ValidationError.Quotes (source : String) (e : ValidationError) : Prop :=
  match e.cause with
  | .unknownKind kind | .missingRequired kind _ => e.span.Slices source.toList kind.toList
  | .unknownAttribute _ name => e.span.Slices source.toList name.toList
  | .invalidLiteral _ literal => ReadsAs source ⟨literal.raw, e.span⟩

theorem raw_of_parse {type : AttributeType} {raw : String} {e : LiteralError}
    (h : type.parse raw = .error e) : e.raw = raw := by
  obtain ⟨reason, -, rfl⟩ := mapError_eq_error_iff.mp h
  rfl

theorem quotes_of_mem_errorsAt {v : Validator} {source : String} {d : Declaration}
    {e : ValidationError} (hd : d.Quotes source) (he : e ∈ v.errorsAt d) : e.Quotes source := by
  unfold Validator.errorsAt at he
  cases hschema : v.registry.schema? d.kindName with
  | none =>
    rw [hschema] at he
    obtain rfl := List.mem_singleton.mp he
    exact hd.kind
  | some schema =>
    simp only [hschema, List.mem_append] at he
    rcases he with hassigned | hmissing
    · obtain ⟨a, ha, hresolve⟩ := ComponentSchema.mem_assignmentErrors.mp hassigned
      rcases ComponentSchema.resolve?_eq_error_iff.mp hresolve with
        ⟨-, rfl⟩ | ⟨declared, literal, -, hparse, rfl⟩
      · exact hd.name a ha
      · show ReadsAs source ⟨literal.raw, a.value.span⟩
        rw [raw_of_parse hparse]
        exact hd.value a ha
    · obtain ⟨a, -, rfl⟩ := List.mem_map.mp hmissing
      exact hd.kind

/-- **Spans are faithful.** In a source that is read, the spans of every declaration are not empty,
cut no character in two and lie in one another as the parts do. They cut out the names, the
values and the declaration itself, which is read by itself as the same tree. So all errors of a
check stand at what they speak of. -/
theorem spans_are_faithful {source : String} {maxDepth : Nat} {doc : Document}
    (h : Document.parse source maxDepth = .ok doc) :
    doc.roots.Pairwise (fun d e => d.span.Precedes e.span) ∧
    (∀ d ∈ preorderAll doc.roots,
      (∀ s ∈ d.spans, s.start < s.stop ∧ s.Within source.toList) ∧ d.Nested ∧ d.Quotes source ∧
        StandsAlone source maxDepth d) ∧
    ∀ (r : Registry) (sheet : Option Stylesheet) (errors : List ValidationError),
      check r ⟨maxDepth, sheet⟩ source = .error (.validation errors) →
        ∀ e ∈ errors, e.Quotes source := by
  obtain ⟨ts, hlex, hroots, hdepth⟩ := parse_eq_ok_iff.mp h
  have hts := TokenRun.inOrder_of_lex hlex
  have hbody := Grammar.body_of_roots hroots
  have hpart {d : Declaration} (hd : d ∈ preorderAll doc.roots) := Grammar.part_body hbody d hd
  have hquotes {d : Declaration} (hd : d ∈ preorderAll doc.roots) : d.Quotes source := by
    obtain ⟨us, hus, hdeclares⟩ := hpart hd
    exact quotes_of_declares hlex hus hdeclares
  refine ⟨(Grammar.apart_body hbody hts).2.1, fun d hd => ?_, fun r sheet errors hcheck e he => ?_⟩
  · obtain ⟨us, hus, hdeclares⟩ := hpart hd
    refine ⟨fun s hs => ?_, ?_, hquotes hd, ?_⟩
    · exact solid_of_part hlex ((Grammar.hasPart_of_declares hdeclares hs).within hus)
    · exact Grammar.nested_of_declares hdeclares (hts.sublist hus.sublist)
    · rw [← Declaration.deepest_le_iff] at hdepth
      exact standsAlone_of_declares hlex hus hdeclares
        (Nat.le_trans (depth_le_of_mem_preorderAll _ hd) hdepth)
  · have hsettled : check r ⟨maxDepth, sheet⟩ source = _ := check_of_parse h
    rw [hsettled, mapError_eq_error_iff] at hcheck
    obtain ⟨report, hreport, hsame⟩ := hcheck
    obtain rfl : report = errors := by simpa using hsame
    obtain ⟨-, rfl⟩ := settle_eq_error_iff.mp hreport
    have hfound := (ValidationError.perm_sortByStart _).mem_iff.mp he
    obtain ⟨d, hd, hat⟩ := List.mem_flatMap.mp hfound
    exact quotes_of_mem_errorsAt (hquotes hd) hat

/-- Behind a comment with a long character, a tuple loses its last comma and keeps its span. -/
theorem spans_are_faithful_tuple :
    let source := "// é\na.b \x7b x: (1, \"ü\",); c \x7b\x7d \x7d"
    let x : Assignment := ⟨⟨"x", ⟨12, 13⟩⟩, ⟨"(1, \"ü\")", ⟨15, 25⟩⟩, ⟨12, 26⟩⟩
    let c : Declaration := ⟨⟨"c", ⟨27, 28⟩⟩, none, [], [], ⟨27, 31⟩⟩
    let a : Declaration := ⟨⟨"a", ⟨6, 7⟩⟩, some ⟨"b", ⟨8, 9⟩⟩, [x], [c], ⟨6, 33⟩⟩
    let color : Attribute := .plain "x" .color "" false
    let schema : ComponentSchema := ⟨"a", "", [], [color], by decide⟩
    let r : Registry := ⟨.empty, NameMap.empty.insert "a" schema, none⟩
    let wrong : ValidationError :=
      ⟨⟨15, 25⟩, .invalidLiteral "x" ⟨"(1, \"ü\")", .color, .tupleLength⟩⟩
    let unknown : ValidationError := ⟨⟨27, 28⟩, .unknownKind "c"⟩
    Document.parse source 2 = .ok ⟨[a]⟩ ∧ a.Nested ∧ StandsAlone source 2 c ∧
      check r ⟨2, none⟩ source = .error (.validation [wrong, unknown]) ∧
      wrong.Quotes source ∧ unknown.Quotes source := by
  intro source x c a color schema r wrong unknown
  have hparse : Document.parse source 2 = .ok ⟨[a]⟩ := by cbv
  obtain ⟨-, hdeclarations, herrors⟩ := spans_are_faithful hparse
  have ha : a ∈ preorderAll [a] := List.mem_cons_self
  have hc : c ∈ preorderAll [a] := List.mem_cons_of_mem _ List.mem_cons_self
  have hcheck : check r ⟨2, none⟩ source = .error (.validation [wrong, unknown]) := by
    have hsettled : check r ⟨2, none⟩ source = _ := check_of_parse hparse
    have hfound : (Validator.mk r none).errors [a] = [wrong, unknown] := by decide +kernel
    rw [hsettled, hfound]
    rfl
  have hquotes := herrors r none _ hcheck
  exact ⟨hparse, (hdeclarations a ha).2.1, (hdeclarations c hc).2.2.2, hcheck,
    hquotes _ List.mem_cons_self, hquotes _ (List.mem_cons_of_mem _ List.mem_cons_self)⟩

end UiMarkup
