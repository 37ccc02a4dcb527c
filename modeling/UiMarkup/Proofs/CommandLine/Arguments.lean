import UiMarkup.CommandLine.Arguments
import UiMarkup.Proofs.Value.Numerals
import UiMarkup.Result

/-!
# What accepted arguments give

Arguments give flags, settings and the input, each in one or two words. When
they are accepted, the options hold what is given and nothing else: a flag is on
if it is there, and a setting has the one value that is there for it.
-/

namespace UiMarkup.CommandLine

/-! ## Items -/

def Flag.name : Flag → String
  | dump => "dump"
  | format => "format"
  | printSchema => "print-schema"

def Setting.name : Setting → String
  | schema => "schema"
  | style => "style"
  | maxDepth => "max-depth"
  | logLevel => "log-level"

inductive Item
  | flag (flag : Flag)
  | setting (setting : Setting) (value : String)
  | input (file : String)
deriving DecidableEq

/-- The items that arguments give, in order. -/
inductive Gives : List String → List Item → Prop
  | nil : Gives [] []
  | flag {rest items} (flag : Flag) (h : Gives rest items) :
      Gives (("--" ++ flag.name) :: rest) (.flag flag :: items)
  /-- The value stands behind an equals sign. -/
  | joined {rest items} (setting : Setting) (value : String) (h : Gives rest items) :
      Gives (("--" ++ setting.name ++ "=" ++ value) :: rest) (.setting setting value :: items)
  /-- The value is the next argument. -/
  | apart {rest items} (setting : Setting) (value : String) (hplain : isPlain value)
      (h : Gives rest items) :
      Gives (("--" ++ setting.name) :: value :: rest) (.setting setting value :: items)
  | input {rest items} (file : String) (hplain : isPlain file) (h : Gives rest items) :
      Gives (file :: rest) (.input file :: items)
  /-- Behind two hyphens all is input. -/
  | inputs (files : List String) : Gives ("--" :: files) (files.map .input)

/-- The options hold what the items give. -/
structure Options.Holds (o : Options) (items : List Item) : Prop where
  input : ∀ file, o.input = some file ↔ .input file ∈ items
  schema : ∀ file, o.schema = some file ↔ .setting .schema file ∈ items
  style : ∀ file, o.style = some file ↔ .setting .style file ∈ items
  maxDepth : ∀ text, .setting .maxDepth text ∈ items → Draft.number? text = some o.maxDepth
  defaultDepth : (∀ text, .setting .maxDepth text ∉ items) → o.maxDepth = defaultMaxDepth
  logLevel : ∀ level, .setting .logLevel level ∈ items → o.logLevel = level
  defaultLevel : (∀ level, .setting .logLevel level ∉ items) → o.logLevel = "warn"
  dump : o.dump ↔ .flag .dump ∈ items
  format : o.format ↔ .flag .format ∈ items
  printSchema : o.printSchema ↔ .flag .printSchema ∈ items

/-! ## Words -/

variable {text name : String} {value : Option String}

theorem text_of_endOfSwitches (h : Argument.ofText text = .endOfSwitches) : text = "--" := by
  unfold Argument.ofText at h
  split at h
  case h_1 htext => exact String.toList_inj.mp htext
  all_goals cases h

theorem text_of_long (h : Argument.ofText text = .long name value) :
    text = "--" ++ name ++ value.elim "" ("=" ++ ·) := by
  unfold Argument.ofText at h
  split at h
  case h_2 cs _ htext =>
    obtain ⟨d, hd, hcut⟩ := @exists_cutAt (· = '=') '=' rfl cs
    obtain rfl : d = '=' := by simpa using hd
    generalize cutAt (· = '=') cs = parts at h hcut
    obtain ⟨front, back⟩ := parts
    cases h
    apply String.toList_inj.mp
    rw [htext, ← hcut]
    cases back <;> simp
  all_goals cases h

theorem isPlain_of_plain {file : String} (h : Argument.ofText text = .plain file) :
    isPlain text := by
  unfold isPlain
  rw [h]

theorem name_of_flag {flag : Flag} (h : Switch.ofName? name = some (.flag flag)) :
    name = flag.name := by
  unfold Switch.ofName? at h
  split at h <;> simp at h <;> subst h <;> rfl

theorem name_of_setting {setting : Setting} (h : Switch.ofName? name = some (.setting setting)) :
    name = setting.name := by
  unfold Switch.ofName? at h
  split at h <;> simp at h <;> subst h <;> rfl

/-! ## Drafts -/

/-- The draft holds what the items gave so far. -/
structure Draft.Holds (d : Draft) (items : List Item) : Prop where
  input : ∀ file, d.input = some file ↔ .input file ∈ items
  schema : ∀ file, d.schema = some file ↔ .setting .schema file ∈ items
  style : ∀ file, d.style = some file ↔ .setting .style file ∈ items
  maxDepth : ∀ n, d.maxDepth = some n ↔
    ∃ text, .setting .maxDepth text ∈ items ∧ Draft.number? text = some n
  number : ∀ text, .setting .maxDepth text ∈ items → (Draft.number? text).isSome
  logLevel : ∀ level, d.logLevel = some level ↔ .setting .logLevel level ∈ items
  flags : ∀ flag, flag ∈ d.flags ↔ .flag flag ∈ items

variable {d d' : Draft} {items : List Item}

theorem holds_empty : Draft.empty.Holds [] := by
  constructor <;> simp [Draft.empty]

theorem holds_options (h : d.Holds items) : d.options.Holds items := by
  have hdepth (text : String) (hmem : .setting .maxDepth text ∈ items) :
      Draft.number? text = some d.options.maxDepth := by
    obtain ⟨n, hn⟩ := Option.isSome_iff_exists.mp (h.number text hmem)
    have hheld := (h.maxDepth n).mpr ⟨text, hmem, hn⟩
    simp [Draft.options, hheld, hn]
  have hdefaultDepth (hnone : ∀ text, .setting .maxDepth text ∉ items) :
      d.options.maxDepth = defaultMaxDepth := by
    have hfree : d.maxDepth = none := by
      simp [Option.eq_none_iff_forall_ne_some, h.maxDepth, hnone]
    simp [Draft.options, hfree]
  have hlevel (level : String) (hmem : .setting .logLevel level ∈ items) :
      d.options.logLevel = level := by
    simp [Draft.options, (h.logLevel level).mpr hmem]
  have hdefaultLevel (hnone : ∀ level, .setting .logLevel level ∉ items) :
      d.options.logLevel = "warn" := by
    have hfree : d.logLevel = none := by
      simp [Option.eq_none_iff_forall_ne_some, h.logLevel, hnone]
    simp [Draft.options, hfree]
  have hflag (flag : Flag) : d.flags.contains flag ↔ .flag flag ∈ items := by
    rw [List.contains_iff_mem, h.flags]
  exact ⟨h.input, h.schema, h.style, hdepth, hdefaultDepth, hlevel, hdefaultLevel, hflag _,
    hflag _, hflag _⟩

/-! ### One step -/

theorem once_eq_ok_iff {α : Type} {old new x : Option α} :
    Draft.once name old new text = .ok x ↔ old = none ∧ new.isSome ∧ x = new := by
  unfold Draft.once
  cases new <;> cases old <;> simp [eq_comm]

theorem holds_addFlag {flag : Flag} (h : d.Holds items) (hd : d.addFlag name flag = .ok d') :
    d'.Holds (items ++ [.flag flag]) := by
  unfold Draft.addFlag at hd
  split at hd
  · cases hd
  · cases hd
    constructor <;> simp +contextual [h.input, h.schema, h.style, h.maxDepth, h.number,
      h.logLevel, h.flags, or_comm]

theorem holds_setInput (h : d.Holds items) (hd : d.setInput text = .ok d') :
    d'.Holds (items ++ [.input text]) := by
  unfold Draft.setInput Draft.fileName? at hd
  split at hd
  · cases hd
  next hfree =>
    have hnone (file : String) : .input file ∉ items := by
      rw [← h.input]
      intro hfile
      simp [hfile] at hfree
    split at hd
    · cases hd
    next file hfile =>
      obtain rfl : text = file := by
        split at hfile <;> simp_all
      cases hd
      constructor <;> simp +contextual [hnone, h.schema, h.style, h.maxDepth, h.number,
        h.logLevel, h.flags, eq_comm]

theorem once_file_eq_ok_iff {old x : Option String} :
    Draft.once name old (Draft.fileName? text) text = .ok x ↔
      old = none ∧ text.isEmpty = false ∧ x = some text := by
  unfold Draft.fileName?
  rw [once_eq_ok_iff]
  split <;> simp_all

theorem holds_set {setting : Setting} (h : d.Holds items)
    (hd : d.set name text setting = .ok d') : d'.Holds (items ++ [.setting setting text]) := by
  cases setting with
  | schema =>
    obtain ⟨x, hx, rfl⟩ := map_eq_ok_iff.mp hd
    obtain ⟨hfree, -, rfl⟩ := once_file_eq_ok_iff.mp hx
    have hnone (file : String) : .setting .schema file ∉ items := by
      simp [← h.schema, hfree]
    constructor <;> simp +contextual [h.input, hnone, h.style, h.maxDepth, h.number, h.logLevel,
      h.flags, eq_comm]
  | style =>
    obtain ⟨x, hx, rfl⟩ := map_eq_ok_iff.mp hd
    obtain ⟨hfree, -, rfl⟩ := once_file_eq_ok_iff.mp hx
    have hnone (file : String) : .setting .style file ∉ items := by
      simp [← h.style, hfree]
    constructor <;> simp +contextual [h.input, h.schema, hnone, h.maxDepth, h.number, h.logLevel,
      h.flags, eq_comm]
  | maxDepth =>
    obtain ⟨x, hx, rfl⟩ := map_eq_ok_iff.mp hd
    obtain ⟨hfree, hnumber, rfl⟩ := once_eq_ok_iff.mp hx
    have hnone (text : String) : .setting .maxDepth text ∉ items := by
      intro hmem
      obtain ⟨n, hn⟩ := Option.isSome_iff_exists.mp (h.number text hmem)
      have := (h.maxDepth n).mpr ⟨text, hmem, hn⟩
      simp [hfree] at this
    constructor <;> simp +contextual [h.input, h.schema, h.style, hnone, hnumber, h.logLevel,
      h.flags]
  | logLevel =>
    obtain ⟨x, hx, rfl⟩ := map_eq_ok_iff.mp hd
    obtain ⟨hfree, -, rfl⟩ := once_eq_ok_iff.mp hx
    have hnone (level : String) : .setting .logLevel level ∉ items := by
      simp [← h.logLevel, hfree]
    constructor <;> simp +contextual [h.input, h.schema, h.style, h.maxDepth, h.number, hnone,
      h.flags, eq_comm]

/-! ## All arguments -/

variable {arguments : List String} {front : List Item} {o : Options}

theorem holds_readInputs (h : d.Holds front) (hread : readInputs d arguments = .ok d') :
    d'.Holds (front ++ arguments.map .input) := by
  induction arguments generalizing d front with
  | nil =>
    cases hread
    simpa using h
  | cons text rest ih =>
    obtain ⟨d₁, hset, hrest⟩ := bind_eq_ok_iff.mp hread
    simpa using ih (holds_setInput h hset) hrest

theorem exists_items (h : d.Holds front) (hread : readArguments d arguments = .ok (.run o)) :
    ∃ items, Gives arguments items ∧ o.Holds (front ++ items) := by
  -- Each case that goes on takes one item into the draft, and the others follow.
  fun_induction readArguments d arguments generalizing front with
  | case1 d =>
    cases hread
    exact ⟨[], .nil, by simpa using holds_options h⟩
  | case2 d text rest htext =>
    obtain ⟨d₁, hinputs, hrest⟩ := bind_eq_ok_iff.mp hread
    cases hrest
    rw [text_of_endOfSwitches htext]
    exact ⟨_, .inputs rest, holds_options (holds_readInputs h hinputs)⟩
  | case3 d text rest _ htext ih =>
    obtain ⟨d₁, hset, hrest⟩ := bind_eq_ok_iff.mp hread
    obtain ⟨items, hgives, hholds⟩ := ih d₁ (holds_setInput h hset) hrest
    exact ⟨_, hgives.input text (isPlain_of_plain htext), by simpa using hholds⟩
  | case9 d text name flag rest hname htext ih =>
    obtain ⟨d₁, hadd, hrest⟩ := bind_eq_ok_iff.mp hread
    obtain ⟨items, hgives, hholds⟩ := ih d₁ (holds_addFlag h hadd) hrest
    rw [text_of_long htext, name_of_flag hname]
    exact ⟨_, by simpa using hgives.flag flag, by simpa using hholds⟩
  | case11 d text name setting value rest hname htext ih =>
    obtain ⟨d₁, hset, hrest⟩ := bind_eq_ok_iff.mp hread
    obtain ⟨items, hgives, hholds⟩ := ih d₁ (holds_set h hset) hrest
    rw [text_of_long htext, name_of_setting hname]
    exact ⟨_, by simpa [String.append_assoc] using hgives.joined setting value,
      by simpa using hholds⟩
  | case12 d text name setting value rest hname hplain htext ih =>
    obtain ⟨d₁, hset, hrest⟩ := bind_eq_ok_iff.mp hread
    obtain ⟨items, hgives, hholds⟩ := ih d₁ (holds_set h hset) hrest
    rw [text_of_long htext, name_of_setting hname]
    exact ⟨_, by simpa using hgives.apart setting value hplain, by simpa using hholds⟩
  -- What is left asks for help or is no use of the command line.
  | _ => cases hread

theorem exists_items_of_parse (hread : parseArguments arguments = .ok (.run o)) :
    ∃ items, Gives arguments items ∧ o.Holds items := by
  simpa using exists_items holds_empty hread

end UiMarkup.CommandLine
