import UiMarkup.Proofs.Declaration.ErrorPlaces
import UiMarkup.Proofs.Token.Places

/-!
# Reading at other places

The reader copies places and never looks at them. If all tokens are moved alike,
the declarations and the errors are moved with them, and nothing else changes.
-/

namespace UiMarkup

namespace Relocation

open Declaration
open Declaration.Progress (stepValue closeBody afterValue step_tupleComma)

variable (m : Relocation)

/-! ## Trees -/

def assignment (a : Assignment) : Assignment :=
  ⟨m.placed a.name, m.placed a.value, m.span a.span⟩

mutual

def declaration : Declaration → Declaration
  | ⟨kind, styleClass, assignments, children, span⟩ =>
    ⟨m.placed kind, styleClass.map m.placed, assignments.map m.assignment,
      declarations children, m.span span⟩

def declarations : List Declaration → List Declaration
  | [] => []
  | d :: ds => declaration d :: declarations ds

end

theorem declarations_eq_map (ds : List Declaration) :
    m.declarations ds = ds.map m.declaration := by
  induction ds with
  | nil => rfl
  | cons d ds ih => rw [declarations, ih, List.map_cons]

/-! ## What is read so far -/

def openBody (b : OpenBody) : OpenBody :=
  ⟨m.placed b.kind, b.styleClass.map m.placed, b.assignments.map m.assignment,
    m.declarations b.children⟩

def openTuple (t : OpenTuple) : OpenTuple := ⟨m.start t.start, t.items⟩

def pending (p : Pending) : Pending :=
  ⟨m.placed p.name, m.openBody p.body, p.outer.map m.openBody⟩

def progress : Progress → Progress
  | .root => .root
  | .rootKind kind => .rootKind (m.placed kind)
  | .classDot kind outer => .classDot (m.placed kind) (outer.map m.openBody)
  | .styleClass kind cls outer =>
    .styleClass (m.placed kind) (m.placed cls) (outer.map m.openBody)
  | .body b outer => .body (m.openBody b) (outer.map m.openBody)
  | .itemName name b outer => .itemName (m.placed name) (m.openBody b) (outer.map m.openBody)
  | .value p tuples => .value (m.pending p) (tuples.map m.openTuple)
  | .tupleItem p t tuples => .tupleItem (m.pending p) (m.openTuple t) (tuples.map m.openTuple)
  | .tupleComma p t tuples => .tupleComma (m.pending p) (m.openTuple t) (tuples.map m.openTuple)
  | .assignedValue p v => .assignedValue (m.pending p) (m.placed v)

theorem place_progress (s : Progress) : (m.progress s).place = s.place := by
  cases s <;> rfl

def step : Progress.Step → Progress.Step
  | .refused => .refused
  | .more s => .more (m.progress s)
  | .done d => .done (m.declaration d)

theorem openBody_close (b : OpenBody) (stop : Nat) :
    (m.openBody b).close (m.stop stop) = m.declaration (b.close stop) := by
  simp only [OpenBody.close, openBody, declaration, declarations_eq_map, List.map_reverse]
  rfl

theorem afterValue_progress (p : Pending) (v : Placed String) (tuples : List OpenTuple) :
    afterValue (m.pending p) (m.placed v) (tuples.map m.openTuple) =
      m.progress (afterValue p v tuples) := by
  cases tuples <;> rfl

theorem stepValue_step (p : Pending) (tuples : List OpenTuple) (t : Placed Token) :
    stepValue (m.pending p) (tuples.map m.openTuple) (m.placed t) =
      m.step (stepValue p tuples t) := by
  obtain ⟨value, span⟩ := t
  cases value with
  | ident text | string text | number text | hexColor text =>
    exact congrArg Progress.Step.more (m.afterValue_progress p ⟨text, span⟩ tuples)
  | _ => rfl

theorem closeBody_step (d : Declaration) (outer : List OpenBody) :
    closeBody (m.declaration d) (outer.map m.openBody) = m.step (closeBody d outer) := by
  cases outer <;> rfl

theorem step_progress (s : Progress) (t : Placed Token) :
    (m.progress s).step (m.placed t) = m.step (s.step t) := by
  obtain ⟨value, place⟩ := t
  cases s with
  | body b outer =>
    cases value with
    | braceClose =>
      simp only [progress, Progress.step, placed, span, openBody_close]
      exact m.closeBody_step _ outer
    | _ => rfl
  | value p tuples => exact m.stepValue_step p tuples ⟨value, place⟩
  | tupleItem p tuple tuples =>
    cases value with
    | parenClose =>
      exact congrArg Progress.Step.more (m.afterValue_progress p (tuple.close place.stop) tuples)
    | _ => rfl
  | tupleComma p tuple tuples =>
    by_cases hclose : value = .parenClose
    · subst hclose
      exact congrArg Progress.Step.more (m.afterValue_progress p (tuple.close place.stop) tuples)
    · have hmoved := step_tupleComma (t := m.placed ⟨value, place⟩) hclose (m.pending p)
        (m.openTuple tuple) (tuples.map m.openTuple)
      have hvalue := step_tupleComma (t := ⟨value, place⟩) hclose p tuple tuples
      exact (hmoved.trans (m.stepValue_step p (tuple :: tuples) _)).trans
        (congrArg m.step hvalue).symm
  | _ => cases value <;> rfl

/-! ## Roots -/

def parseError (e : ParseError) : ParseError := ⟨m.span e.span, e.cause⟩

/-- The answer of the reader: a declaration and what is left, or an error. -/
def reading :
    Except ParseError (Declaration × List (Placed Token)) →
      Except ParseError (Declaration × List (Placed Token))
  | .ok (d, rest) => .ok (m.declaration d, rest.map m.placed)
  | .error e => .error (m.parseError e)

theorem read_progress (length stop : Nat) (s : Progress) (ts : List (Placed Token)) :
    (m.progress s).read (m.start length) (m.stop stop) (ts.map m.placed) =
      m.reading (s.read length stop ts) := by
  fun_induction Progress.read length stop s ts with
  | case1 stop s =>
    rw [List.map_nil, Progress.read, place_progress]
    rfl
  | case2 stop s t ts hstep =>
    rw [List.map_cons, Progress.read, step_progress, hstep]
    simp only [step, place_progress]
    rfl
  | case3 stop s t ts s' hstep ih =>
    rw [List.map_cons, Progress.read, step_progress, hstep]
    exact ih
  | case4 stop s t ts d hstep =>
    rw [List.map_cons, Progress.read, step_progress, hstep]
    rfl

def extent : Extent → Extent
  | .closed rest => .closed (rest.map m.placed)
  | .unclosed => .unclosed
  | .tooDeep brace => .tooDeep (m.span brace)

theorem extent_placed (limit depth : Nat) (ts : List (Placed Token)) :
    Declaration.extent limit depth (ts.map m.placed) =
      m.extent (Declaration.extent limit depth ts) := by
  induction ts generalizing depth with
  | nil => rfl
  | cons t ts ih =>
    rw [List.map_cons, Declaration.extent, Declaration.extent, placed]
    simp only [ih]
    split
    · split <;> rfl
    · split <;> rfl
    · rfl

/-- What a stream hands out. -/
def answer : Except ParseError Declaration → Except ParseError Declaration
  | .ok d => .ok (m.declaration d)
  | .error e => .error (m.parseError e)

end Relocation

/-! ## Streams -/

namespace DeclarationStream

open Declaration (Progress)

/-- Two streams of which one is the other moved: in its tokens, and in its end. -/
structure MovedBy (m : Relocation) (s s' : DeclarationStream) : Prop where
  length : s'.length = m.start s.length
  broken : s'.run.broken = s.run.broken.map m.placed
  maxDepth : s'.maxDepth = s.maxDepth
  left : s'.left = s.left.map m.placed
  finished : s'.finished = s.finished

variable {m : Relocation} {s s' : DeclarationStream}

theorem blame_of_movedBy (h : MovedBy m s s') (reachesEnd : Bool) (e : ParseError) :
    s'.blame reachesEnd (m.parseError e) = m.parseError (s.blame reachesEnd e) := by
  unfold blame
  rw [h.broken]
  cases s.run.broken with
  | none => rfl
  | some text => cases reachesEnd <;> rfl

theorem mapError_reading (m : Relocation) {blame blame' : ParseError → ParseError}
    (h : ∀ e, blame' (m.parseError e) = m.parseError (blame e))
    (x : Except ParseError (Declaration × List (Placed Token))) :
    (m.reading x).mapError blame' = m.reading (x.mapError blame) := by
  cases x with
  | ok answer => rfl
  | error e => exact congrArg Except.error (h e)

theorem readRoot_of_movedBy (h : MovedBy m s s') (hleft : s.left ≠ []) :
    s'.readRoot = m.reading s.readRoot := by
  have hread : Progress.root.read s'.length s'.length s'.left =
      m.reading (Progress.root.read s.length s.length s.left) := by
    obtain ⟨t, ts, hts⟩ := List.exists_cons_of_ne_nil hleft
    rw [h.length, h.left, hts]
    -- The end that reading starts with counts only if there is no token.
    exact m.read_progress s.length s.length .root (t :: ts)
  unfold readRoot
  rw [hread, h.left, h.maxDepth, Relocation.extent_placed]
  cases Declaration.extent s.maxDepth 0 s.left with
  | tooDeep brace => rfl
  | unclosed => exact mapError_reading _ (blame_of_movedBy h true) _
  | closed rest =>
    simp only [Relocation.extent, List.isEmpty_map]
    exact mapError_reading _ (blame_of_movedBy h rest.isEmpty) _

theorem next_of_movedBy (h : MovedBy m s s') :
    s'.next.1 = s.next.1.map m.answer ∧ MovedBy m s.next.2 s'.next.2 := by
  unfold next
  rw [h.finished, h.left, List.isEmpty_map]
  split
  · exact ⟨rfl, h⟩
  · split
    · refine ⟨?_, h.length, h.broken, h.maxDepth, rfl, rfl⟩
      rw [h.broken, Option.map_map, Option.map_map]
      rfl
    next hleft =>
      rw [readRoot_of_movedBy h (by simpa using hleft)]
      cases s.readRoot with
      | ok answer => exact ⟨rfl, h.length, h.broken, h.maxDepth, rfl, rfl⟩
      | error e => exact ⟨rfl, h.length, h.broken, h.maxDepth, rfl, rfl⟩

/-- One answer after another, the streams hand out the same, the second one at its places. -/
theorem toList_of_movedBy (h : MovedBy m s s') : s'.toList = s.toList.map m.answer := by
  fun_induction toList s generalizing s' with
  | case1 s d t hnext ih =>
    obtain ⟨hanswer, hrest⟩ := next_of_movedBy h
    rw [hnext] at hanswer hrest
    rw [toList_of_ok (Prod.ext hanswer rfl), ih hrest]
    rfl
  | case2 s e t hnext =>
    obtain ⟨hanswer, -⟩ := next_of_movedBy h
    rw [hnext] at hanswer
    exact toList_of_error (Prod.ext hanswer rfl)
  | case3 s t hnext =>
    obtain ⟨hanswer, -⟩ := next_of_movedBy h
    rw [hnext] at hanswer
    exact toList_of_none (Prod.ext hanswer rfl)

end DeclarationStream

end UiMarkup
