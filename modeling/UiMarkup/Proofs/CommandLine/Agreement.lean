import UiMarkup.CommandLine.Run
import UiMarkup.Proofs.Check.Outcome
import UiMarkup.Proofs.CommandLine.Arguments

/-!
# A run agrees with the check

A run reads files, and goes through the stages of a check one by one, with an
error of its own for each. It goes well if and only if all that it reads is
there and the check accepts it. Then it writes what the check found, and
otherwise nothing to standard output.
-/

namespace UiMarkup.CommandLine

variable {text file : String} {registry : Registry} {sheet : Option Stylesheet} {source : String}

/-! ## What there is to read -/

/-- The bytes that are stored under each name, and those that come in on standard input. -/
structure Storage where
  file : String → Except ReadError ByteArray
  standard : Except ReadError ByteArray

namespace Storage

def textOf (bytes : Except ReadError ByteArray) : Except ReadError String := do
  textOfBytes (← bytes)

def inputs (s : Storage) : Inputs Id := ⟨fun name => textOf (s.file name), textOf s.standard⟩

/-- The file is there, and its bytes are those of the text. -/
def HoldsText (s : Storage) (file text : String) : Prop := s.file file = .ok text.toUTF8

/-- The schema to check against: the built-in one, or that of a file. -/
def HoldsSchema (s : Storage) (registry : Registry) : Option String → Prop
  | none => Builtin.file.load = .ok registry
  | some file => ∃ text, s.HoldsText file text ∧ Registry.ofToml text = .ok registry

def HoldsStyle (s : Storage) (registry : Registry) (sheet : Option Stylesheet) :
    Option String → Prop
  | none => sheet = none
  | some file =>
    ∃ text made, s.HoldsText file text ∧ Stylesheet.parse registry text = .ok made ∧
      sheet = some made

def HoldsSource (s : Storage) (source : String) : Option String → Prop
  | none => s.standard = .ok source.toUTF8
  | some file => s.HoldsText file source

end Storage

theorem textOfBytes_eq_ok_iff {bytes : ByteArray} :
    textOfBytes bytes = .ok text ↔ bytes = text.toUTF8 := by
  unfold textOfBytes String.fromUTF8?
  by_cases h : bytes.IsValidUTF8
  · simp [h, String.fromUTF8, ← String.toByteArray_inj]
  · simp [h]
    rintro rfl
    exact h text.isValidUTF8

theorem textOf_eq_ok_iff {bytes : Except ReadError ByteArray} :
    Storage.textOf bytes = .ok text ↔ bytes = .ok text.toUTF8 := by
  unfold Storage.textOf
  simp [bind_eq_ok_iff, textOfBytes_eq_ok_iff]

theorem builtin_loads : Builtin.file.load = .ok .builtin := by
  have hok : Builtin.file.load.isOk := by decide +kernel
  unfold Registry.builtin
  cases h : Builtin.file.load with
  | ok registry => rfl
  | error e =>
    rw [h] at hok
    cases hok

/-! ## Stages -/

variable {α β : Type} {a : α}

/-- The stage goes well and gives this result. -/
def Yields (stage : ExceptT String Id α) (a : α) : Prop := stage.run = Except.ok a

theorem yields_pure {b : α} : Yields (pure b) a ↔ b = a := by
  unfold Yields
  constructor
  · intro h
    cases h
    rfl
  · rintro rfl
    rfl

theorem yields_bind {stage : ExceptT String Id α} {next : α → ExceptT String Id β} {b : β} :
    Yields (stage >>= next) b ↔ ∃ a, Yields stage a ∧ Yields (next a) b := by
  unfold Yields
  rw [ExceptT.run_bind]
  constructor
  · intro h
    match hrun : stage.run with
    | .ok a => exact ⟨a, rfl, by rw [hrun] at h; exact h⟩
    | .error e => rw [hrun] at h; cases h
  · rintro ⟨a, hrun, hnext⟩
    rw [hrun]
    exact hnext

theorem yields_orElse {ε : Type} {result : Except ε α} {explain : ε → String} :
    Yields (orElse result explain) a ↔ result = .ok a := by
  unfold orElse
  cases result with
  | ok b => rw [yields_pure, Except.ok.injEq]
  | error e => constructor <;> intro h <;> cases h

variable {s : Storage} {name : Option String}

theorem yields_readFile : Yields (readFile s.inputs file) text ↔ s.HoldsText file text := by
  change Yields (orElse (Storage.textOf (s.file file)) _) text ↔ _
  rw [yields_orElse, textOf_eq_ok_iff, Storage.HoldsText]

theorem ofFile_eq_ok_iff {content : Except ReadError String} :
    Registry.ofFile content = .ok registry ↔
      ∃ text, content = .ok text ∧ Registry.ofToml text = .ok registry := by
  unfold Registry.ofFile
  cases content <;> simp

theorem yields_loadRegistry :
    Yields (loadRegistry s.inputs name) registry ↔ s.HoldsSchema registry name := by
  unfold Storage.HoldsSchema
  cases name with
  | none =>
    change Yields (pure Registry.builtin) registry ↔ _
    rw [yields_pure, builtin_loads, Except.ok.injEq]
  | some file =>
    change Yields (orElse (Registry.ofFile (Storage.textOf (s.file file))) _) registry ↔ _
    rw [yields_orElse, ofFile_eq_ok_iff]
    simp only [textOf_eq_ok_iff, Storage.HoldsText]

theorem yields_loadStylesheet :
    Yields (loadStylesheet s.inputs registry name) sheet ↔
      s.HoldsStyle registry sheet name := by
  unfold loadStylesheet Storage.HoldsStyle
  cases name with
  | none => rw [yields_pure, eq_comm]
  | some file =>
    simp only [yields_bind, yields_readFile, yields_orElse, yields_pure, exists_and_left]
    simp only [eq_comm]

theorem yields_readSource {shown : String} :
    Yields (readSource s.inputs name) (source, shown) ↔
      s.HoldsSource source name ∧ shown = name.getD "<stdin>" := by
  unfold Storage.HoldsSource
  cases name with
  | none =>
    change Yields (orElse (Storage.textOf s.standard) _ >>= fun text => pure (text, _)) _ ↔ _
    simp only [yields_bind, yields_orElse, yields_pure, textOf_eq_ok_iff]
    simp [eq_comm]
  | some file =>
    unfold readSource
    simp only [yields_bind, yields_readFile, yields_pure]
    simp [eq_comm]

/-! ## The whole run -/

/-- All that the options name is there, and the check accepts it. -/
structure Storage.Passes (s : Storage) (o : Options) (registry : Registry)
    (sheet : Option Stylesheet) (source : String) (checked : CheckedDocument) : Prop where
  schema : s.HoldsSchema registry o.schema
  style : s.HoldsStyle registry sheet o.style
  input : s.HoldsSource source o.input
  accepted : check registry ⟨o.maxDepth, sheet⟩ source = .ok checked

/-- The canonical text of the document, and then the dump of what the check made of it, each if
the options ask for it. -/
def Options.Writes (o : Options) (source : String) (checked : CheckedDocument)
    (output : String) : Prop :=
  ∃ doc, Document.parse source o.maxDepth = .ok doc ∧
    output = (if o.format then doc.print else "") ++ if o.dump then checked.dump else ""

variable {o : Options} {checked : CheckedDocument} {arguments : List String} {output : String}

theorem exists_writes (h : check registry ⟨o.maxDepth, sheet⟩ source = .ok checked) :
    ∃ output, o.Writes source checked output := by
  obtain ⟨doc, hparse, -⟩ := check_eq_ok_iff.mp h
  exact ⟨_, doc, hparse, rfl⟩

theorem yields_execute (hshow : o.printSchema = false) :
    Yields (execute s.inputs o) output ↔
      ∃ registry sheet source checked, s.Passes o registry sheet source checked ∧
        o.Writes source checked output := by
  unfold execute
  simp only [yields_bind, yields_loadRegistry, hshow, Bool.false_eq_true, if_false,
    yields_loadStylesheet, Prod.exists, yields_readSource, yields_orElse, yields_pure]
  constructor
  · rintro ⟨registry, hschema, sheet, hstyle, source, _, ⟨hinput, -⟩, doc, hparse, checked,
      hchecked, rfl⟩
    have haccepted : check registry ⟨o.maxDepth, sheet⟩ source = .ok checked := by
      rw [check_eq_readThen, readThen_eq_ok_iff]
      exact ⟨doc, hparse, hchecked⟩
    exact ⟨registry, sheet, source, checked, ⟨hschema, hstyle, hinput, haccepted⟩, doc, hparse,
      rfl⟩
  · rintro ⟨registry, sheet, source, checked, h, doc, hparse, rfl⟩
    have hchecked := h.accepted
    rw [check_eq_readThen, readThen_of_parse hparse, mapError_eq_ok_iff] at hchecked
    exact ⟨registry, h.schema, sheet, h.style, source, _, ⟨h.input, rfl⟩, doc, hparse, checked,
      hchecked, rfl⟩

section run

variable (hread : parseArguments arguments = .ok (.run o))

include hread

theorem run_eq : Id.run (run s.inputs arguments) =
    match (execute s.inputs o).run with
    | .ok output => ⟨0, output, logWarning o.logLevel⟩
    | .error errors => ⟨1, "", logWarning o.logLevel ++ errors⟩ := by
  unfold run
  rw [hread]
  rfl

theorem run_of_yields (h : Yields (execute s.inputs o) output) :
    Id.run (run s.inputs arguments) = ⟨0, output, logWarning o.logLevel⟩ := by
  unfold Yields at h
  rw [run_eq hread, h]

theorem run_of_fails (h : ∀ output, ¬ Yields (execute s.inputs o) output) :
    ∃ errors, Id.run (run s.inputs arguments) = ⟨1, "", errors⟩ := by
  unfold Yields at h
  rw [run_eq hread]
  match hrun : (execute s.inputs o).run with
  | .ok output => exact absurd hrun (h output)
  | .error errors => exact ⟨_, rfl⟩

theorem exitCode_eq_zero_iff :
    (Id.run (run s.inputs arguments)).exitCode = 0 ↔
      ∃ output, Yields (execute s.inputs o) output := by
  by_cases h : ∃ output, Yields (execute s.inputs o) output
  · obtain ⟨output, hyields⟩ := h
    rw [run_of_yields hread hyields]
    exact iff_of_true rfl ⟨output, hyields⟩
  · obtain ⟨errors, hrun⟩ := run_of_fails hread (not_exists.mp h)
    rw [hrun]
    exact iff_of_false (by simp) h

theorem output_of_exitCode_ne_zero (h : (Id.run (run s.inputs arguments)).exitCode ≠ 0) :
    (Id.run (run s.inputs arguments)).output = "" := by
  rw [ne_eq, exitCode_eq_zero_iff hread] at h
  obtain ⟨errors, hrun⟩ := run_of_fails hread (not_exists.mp h)
  rw [hrun]

end run

/-- **The command line agrees with the check.** The options hold what the arguments give. A run
exits with 0 if and only if the schema loads, the stylesheet loads against it, the input is there
and is a text, and the check accepts it. Then it writes what the options ask for, and in every
other case nothing to standard output. -/
theorem run_agrees (s : Storage) (hread : parseArguments arguments = .ok (.run o))
    (hshow : o.printSchema = false) :
    let outcome := Id.run (run s.inputs arguments)
    (∃ items, Gives arguments items ∧ o.Holds items) ∧
    (outcome.exitCode = 0 ↔
      ∃ registry sheet source checked, s.Passes o registry sheet source checked) ∧
    (∀ registry sheet source checked, s.Passes o registry sheet source checked →
      o.Writes source checked outcome.output) ∧
    (outcome.exitCode ≠ 0 → outcome.output = "") := by
  intro outcome
  refine ⟨exists_items_of_parse hread, ?_, ?_, output_of_exitCode_ne_zero hread⟩
  · rw [exitCode_eq_zero_iff hread]
    constructor
    · rintro ⟨output, hyields⟩
      obtain ⟨registry, sheet, source, checked, h, -⟩ := (yields_execute hshow).mp hyields
      exact ⟨registry, sheet, source, checked, h⟩
    · rintro ⟨registry, sheet, source, checked, h⟩
      obtain ⟨output, hwrites⟩ := exists_writes h.accepted
      exact ⟨output, (yields_execute hshow).mpr ⟨_, _, _, _, h, hwrites⟩⟩
  · intro registry sheet source checked h
    obtain ⟨output, hwrites⟩ := exists_writes h.accepted
    have hyields := (yields_execute hshow).mpr ⟨_, _, _, _, h, hwrites⟩
    rw [show outcome = _ from run_of_yields hread hyields]
    exact hwrites

/-- The values are written in the order of their names, that of the stylesheet first. -/
theorem run_agrees_button :
    let look := "button \x7b color: red; \x7d"
    let source := "button \x7b text: \"OK\"; \x7d"
    let stored (name : String) : Except ReadError ByteArray :=
      if name = "look" then .ok look.toUTF8
      else if name = "main" then .ok source.toUTF8
      else .error .missing
    let s : Storage := ⟨stored, .ok "".toUTF8⟩
    let arguments := ["--style", "look", "--max-depth=1", "--dump", "main", "--format"]
    let o : Options := ⟨some "main", none, some "look", 1, true, true, false, "warn"⟩
    let outcome := Id.run (run s.inputs arguments)
    parseArguments arguments = .ok (.run o) ∧ o.printSchema = false ∧ outcome.exitCode = 0 ∧
      outcome.output = "button \x7b\n    text: \"OK\";\n\x7d\n" ++
        "button\n  color: color = #FF0000\n  text: string = \"OK\"\n" := by
  intro look source stored s arguments o outcome
  have hread : parseArguments arguments = .ok (.run o) := by decide +kernel
  let red : Assignment := ⟨⟨"color", ⟨9, 14⟩⟩, ⟨"red", ⟨16, 19⟩⟩, ⟨9, 20⟩⟩
  let rule : Declaration := ⟨⟨"button", ⟨0, 6⟩⟩, none, [red], [], ⟨0, 22⟩⟩
  let sheet : Stylesheet :=
    (Declaration.preorderAll [rule]).foldl (Stylesheet.addRule .builtin) .empty
  have hsheet : Stylesheet.parse .builtin look = .ok sheet := by
    have hlook : Document.parse look defaultMaxDepth = .ok ⟨[rule]⟩ := by cbv
    rw [Stylesheet.parse_eq_readThen, readThen_of_parse hlook, mapError_eq_ok_iff,
      Stylesheet.ofDeclarations_eq_settle, settle_eq_ok_iff]
    exact ⟨by decide +kernel, rfl⟩
  let label : Assignment := ⟨⟨"text", ⟨9, 13⟩⟩, ⟨"\"OK\"", ⟨15, 19⟩⟩, ⟨9, 20⟩⟩
  let button : Declaration := ⟨⟨"button", ⟨0, 6⟩⟩, none, [label], [], ⟨0, 22⟩⟩
  have hparse : Document.parse source 1 = .ok ⟨[button]⟩ := by cbv
  have herrors : (Validator.mk .builtin (some sheet)).errors [button] = [] := by decide +kernel
  have hchecked : check .builtin ⟨1, some sheet⟩ source = .ok _ :=
    check_eq_ok_iff.mpr ⟨_, hparse, herrors, rfl⟩
  have hpasses : s.Passes o .builtin (some sheet) source _ :=
    ⟨builtin_loads, ⟨look, sheet, rfl, hsheet, rfl⟩, rfl, hchecked⟩
  obtain ⟨-, hexit, hwrites, -⟩ := run_agrees s hread rfl
  refine ⟨hread, rfl, hexit.mpr ⟨_, _, _, _, hpasses⟩, ?_⟩
  obtain ⟨doc, hdoc, houtput⟩ := hwrites _ _ _ _ hpasses
  obtain rfl : (⟨[button]⟩ : Document) = doc := Except.ok.inj (hparse.symm.trans hdoc)
  rw [houtput]
  decide +kernel

end UiMarkup.CommandLine
