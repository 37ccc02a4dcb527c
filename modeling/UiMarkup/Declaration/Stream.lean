import UiMarkup.Declaration.Reading
import UiMarkup.Result
import UiMarkup.Token.Lexeme

/-!
# Documents, one root at a time

A stream hands out the root declarations of a source in order. At the first
error it hands out that error and is finished. It can start over, and what is
left of it is an ordinary value.
-/

namespace UiMarkup

/-- The deepest nesting that is allowed unless something else is asked for. -/
def defaultMaxDepth : Nat := 64

/-- The tokens in front of the first unrecognized text, and that text if there is any. -/
structure TokenRun where
  tokens : List (Placed Token)
  broken : Option (Placed String)
deriving DecidableEq, Repr

namespace TokenRun

def ofLexemes : List (Placed Lexeme) → TokenRun
  | [] => ⟨[], none⟩
  | ⟨.token t, span⟩ :: ls => ⟨⟨t, span⟩ :: (ofLexemes ls).tokens, (ofLexemes ls).broken⟩
  | ⟨.unrecognized text, span⟩ :: _ => ⟨[], some ⟨String.ofList text, span⟩⟩
  | ⟨.blank _, _⟩ :: ls | ⟨.comment _, _⟩ :: ls => ofLexemes ls

def ofSource (source : String) : TokenRun := ofLexemes (lex source)

end TokenRun

structure DeclarationStream where
  /-- The number of bytes of the source. -/
  length : Nat
  run : TokenRun
  maxDepth : Nat
  /-- The tokens that are not handed out yet. -/
  left : List (Placed Token)
  finished : Bool
deriving DecidableEq, Repr

namespace DeclarationStream

def ofSource (source : String) (maxDepth : Nat) : DeclarationStream :=
  let run := TokenRun.ofSource source
  ⟨byteLength source.toList, run, maxDepth, run.tokens, false⟩

/-- Back to the first declaration. -/
def restart (s : DeclarationStream) : DeclarationStream :=
  { s with left := s.run.tokens, finished := false }

def unrecognized (text : Placed String) : ParseError :=
  ⟨text.span, .unrecognized text.value⟩

/-- An error in a declaration that runs up to unrecognized text is blamed on that text. -/
def blame (s : DeclarationStream) (reachesEnd : Bool) (e : ParseError) : ParseError :=
  match s.run.broken with
  | some text => if reachesEnd then unrecognized text else e
  | none => e

/-- Reads the next root declaration off the tokens that are left. It is not cut off first: where
its braces close a reader is done, or has failed. -/
def readRoot (s : DeclarationStream) :
    Except ParseError (Declaration × List (Placed Token)) :=
  let answer := Declaration.Progress.root.read s.length s.length s.left
  match Declaration.extent s.maxDepth 0 s.left with
  | .tooDeep brace => .error ⟨brace, .tooDeep s.maxDepth⟩
  | .closed rest => answer.mapError (s.blame rest.isEmpty)
  | .unclosed => answer.mapError (s.blame true)

/-- The next root declaration or the error, and the stream behind it. -/
def next (s : DeclarationStream) : Option (Except ParseError Declaration) × DeclarationStream :=
  if s.finished then (none, s)
  else if s.left.isEmpty then
    (s.run.broken.map fun text => .error (unrecognized text), { s with finished := true })
  else match s.readRoot with
    | .ok (d, rest) => (some (.ok d), { s with left := rest })
    | .error e => (some (.error e), { s with finished := true })

theorem length_readRoot_lt {s : DeclarationStream} {d : Declaration} {rest : List (Placed Token)}
    (h : s.readRoot = .ok (d, rest)) : rest.length < s.left.length := by
  unfold readRoot at h
  split at h
  · simp at h
  · exact Declaration.Progress.length_read_lt (mapError_eq_ok_iff.1 h)
  · exact Declaration.Progress.length_read_lt (mapError_eq_ok_iff.1 h)

/-- Each declaration leaves fewer tokens behind it. -/
theorem length_next_lt {s s' : DeclarationStream} {d : Declaration}
    (h : s.next = (some (.ok d), s')) : s'.left.length < s.left.length := by
  unfold next at h
  split at h
  · simp at h
  · split at h
    · cases hb : s.run.broken <;> simp [hb] at h
    · split at h
      next hr =>
        simp only [Prod.mk.injEq, Option.some.injEq, Except.ok.injEq] at h
        obtain ⟨rfl, rfl⟩ := h
        exact length_readRoot_lt hr
      next => simp at h

/-- Everything that the stream still hands out. -/
def toList (s : DeclarationStream) : List (Except ParseError Declaration) :=
  match _h : s.next with
  | (some (.ok d), s') => .ok d :: s'.toList
  | (some (.error e), _) => [.error e]
  | (none, _) => []
termination_by s.left.length
decreasing_by exact length_next_lt _h

/-- The stream with everything handed out. -/
def drained (s : DeclarationStream) : DeclarationStream :=
  { s with left := [], finished := true }

end DeclarationStream

/-- The declarations of a list up to its first error. -/
def Document.ofList : List (Except ParseError Declaration) → Except ParseError (List Declaration)
  | [] => .ok []
  | .error e :: _ => .error e
  | .ok d :: ds => (ofList ds).map (d :: ·)

/-- Reads a whole source. -/
def Document.parse (source : String) (maxDepth : Nat) : Except ParseError Document :=
  (ofList (DeclarationStream.ofSource source maxDepth).toList).map Document.mk

end UiMarkup
