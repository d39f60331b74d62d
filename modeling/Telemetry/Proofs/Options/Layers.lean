/-
Settings, layer by layer.

A setting (`Setting`) has an option, a place in a file and a default, and its value is the one of
the first layer that gives it: the command line, the environment, the file (`Setting.value`).  The
layers of a program (`Sources`) are looked at for each setting by itself.

Settings are laid over each other before they are checked.  So what matters of a file is only that
it can be read (`Loaded`), and of settings only what is left in the end.
-/
import Telemetry.Options.Layers
import Telemetry.Proofs.Fault
import Telemetry.Proofs.Options.Arguments

namespace Telemetry

/-! ## Values by their kinds -/

namespace OptionValue

/-- The text that a value is. -/
def text? : OptionValue → Option String
  | text s => some s
  | _ => none

/-- The number that a value is. -/
def count? : OptionValue → Option Nat
  | count n => some n
  | _ => none

/-- The truth value that a value is. -/
def truth? : OptionValue → Option Bool
  | truth b => some b
  | _ => none

end OptionValue

namespace Given

variable (g : Given) (word : String)

theorem text?_eq : g.text? word = (g.value? word).bind OptionValue.text? := by
  rw [text?]
  rcases g.value? word with _ | (_ | _ | _) <;> rfl

theorem count?_eq : g.count? word = (g.value? word).bind OptionValue.count? := by
  rw [count?]
  rcases g.value? word with _ | (_ | _ | _) <;> rfl

theorem truth?_eq : g.truth? word = (g.value? word).bind OptionValue.truth? := by
  rw [truth?]
  rcases g.value? word with _ | (_ | _ | _) <;> rfl

end Given

namespace Flag

variable {f : Flag} {raw : String} {v : OptionValue}

theorem value?_textual (h : f.kind = .text ∨ f.kind = .path) (hv : f.value? raw = some v) :
    v = .text raw := by
  have hread := value?_eq_some_iff.mp hv
  rcases h with h | h
  · rw [h] at hread
    cases hread
    rfl
  · rw [h, ValueKind.read] at hread
    split at hread
    · cases hread
    · cases hread
      rfl

theorem value?_count (h : f.kind = .count) (hv : f.value? raw = some v) : ∃ n, v = .count n := by
  have hread := value?_eq_some_iff.mp hv
  rw [h, ValueKind.read] at hread
  split at hread
  · cases hread
    exact ⟨_, rfl⟩
  · cases hread

theorem value?_truth (h : f.kind = .truth) (hv : f.value? raw = some v) : ∃ b, v = .truth b := by
  have hread := value?_eq_some_iff.mp hv
  rw [h, ValueKind.read] at hread
  split at hread
  · cases hread
    exact ⟨true, rfl⟩
  · split at hread
    · cases hread
      exact ⟨false, rfl⟩
    · cases hread

end Flag

/-! ## Entries of a document -/

namespace Yaml

variable {names : List String} {y : Yaml}

/-- A node that a record with the named entries can be read from. -/
inductive IsRecord (names : List String) : Yaml → Prop where
  | blank {tag : Option String} : IsRecord names (scalar .plain tag "")
  | sequence {items : List Yaml} (short : items.length ≤ names.length) :
      IsRecord names (sequence items)
  | mapping {es : List (String × Yaml)} (known : ∀ e ∈ es, e.1 ∈ names)
      (once : (es.map (·.1)).Nodup) : IsRecord names (mapping es)

theorem exists_record?_iff : (∃ es, y.record? names = some es) ↔ y.IsRecord names := by
  constructor
  · rintro ⟨es, h⟩
    unfold record? at h
    split at h
    · exact .blank
    · cases h
    · split at h
      · rename_i hshort
        exact .sequence hshort
      · cases h
    · split at h
      · rename_i hentries
        exact .mapping hentries.1 hentries.2
      · cases h
  · rintro (_ | hshort | ⟨hknown, honce⟩)
    · exact ⟨[], rfl⟩
    · exact ⟨_, if_pos hshort⟩
    · exact ⟨_, if_pos ⟨hknown, honce⟩⟩

/-- What a record has under a name. -/
def under? (names : List String) (name : String) (y : Yaml) : Option Yaml :=
  (y.record? names).bind (entry name)

theorem under?_eq {es : List (String × Yaml)} (h : y.record? names = some es) (name : String) :
    y.under? names name = entry name es := by
  rw [under?, h, Option.bind_some]

theorem getD_eq_some_iff {α : Type} {read : Yaml → Option α} {default v : α} {name : String}
    {es : List (String × Yaml)} :
    getD read default name es = some v ↔
      (∀ y, entry name es = some y → ∃ w, read y = some w) ∧
        v = ((entry name es).bind read).getD default := by
  unfold getD
  cases entry name es with
  | none => simp [eq_comm]
  | some y =>
      cases hread : read y with
      | none => simp [hread]
      | some w => simp [hread, eq_comm]

end Yaml

/-! ## Settings -/

/-- The layers of a program: what its command line gives, what the variables of the environment are
set to, and the document of its file, if there is one. -/
structure Sources where
  line : List (Flag × String)
  environment : List (String × String)
  file : Option Yaml

/-- An option has the value that the line gives it, or else the one that the environment does, and
what counts of them is a value of the option. -/
structure Sources.Give (sources : Sources) (g : Given) (f : Flag) : Prop where
  value : g.value? f.word = ((f.given? sources.line).bind f.value?).or
    ((f.set? sources.environment).bind f.value?)
  reads : ∀ raw, f.given? sources.line = some raw → ∃ v, f.value? raw = some v
  asks : f.given? sources.line = none → ∀ raw, f.set? sources.environment = some raw →
    ∃ v, f.value? raw = some v

theorem Sources.give_of_parse {flags : List Flag} {arguments : List String} {sources : Sources}
    {g : Given} (hflags : Flag.Distinct flags)
    (h : Arguments.parse flags arguments sources.environment = .ok g)
    (htold : Says flags arguments sources.environment sources.line) {f : Flag} (hf : f ∈ flags) :
    sources.Give g f :=
  ⟨Arguments.value?_of_parse hflags htold.spells h hf,
    fun _ hraw => htold.reads _ (Arguments.mem_of_given? hflags htold.spells hf hraw),
    htold.asks f hf⟩

/-- A section of a document: the names of all of them, its own, and those of its entries. -/
structure Part where
  sections : List String
  name : String
  entries : List String

/-- A setting: the option that gives it, its place in a file, how it is read in either of them, and
what it is where nothing is said. -/
structure Setting (α : Type) where
  flag : Flag
  part : Part
  name : String
  ofValue : OptionValue → Option α
  ofYaml : Yaml → Option α
  default : α
  /-- Every value of the option is one of the setting. -/
  fits : ∀ raw v, flag.value? raw = some v → (ofValue v).isSome = true

namespace Setting

variable {α : Type} (x : Setting α)

/-- What a text says, on the line or in the environment. -/
def ofText? (raw : String) : Option α := (x.flag.value? raw).bind x.ofValue

/-- What the command line says. -/
def onLine? (sources : Sources) : Option α := (x.flag.given? sources.line).bind x.ofText?

/-- What the environment says. -/
def inEnvironment? (sources : Sources) : Option α :=
  (x.flag.set? sources.environment).bind x.ofText?

/-- What a section of the file says. -/
def inPart? (part : Option Yaml) : Option α :=
  (part.bind (Yaml.under? x.part.entries x.name)).bind x.ofYaml

/-- What the file says. -/
def inFile? (sources : Sources) : Option α :=
  x.inPart? (sources.file.bind (Yaml.under? x.part.sections x.part.name))

/-- A section says nothing of a setting, or says it as the setting is read. -/
def Fits (part : Yaml) : Prop :=
  ∀ y, part.under? x.part.entries x.name = some y → ∃ a, x.ofYaml y = some a

/-- The value of a setting: what the command line says, else the environment, else the file, else
the default. -/
def value (sources : Sources) : α :=
  ((x.onLine? sources).or ((x.inEnvironment? sources).or (x.inFile? sources))).getD x.default

variable {x} {sources : Sources}

theorem getD_eq_some_iff {part : Yaml} {es : List (String × Yaml)} {default v : α}
    (h : part.record? x.part.entries = some es) :
    Yaml.getD x.ofYaml default x.name es = some v ↔
      x.Fits part ∧ v = (x.inPart? (some part)).getD default := by
  rw [Yaml.getD_eq_some_iff, Fits, inPart?, Option.bind_some, Yaml.under?_eq h]

/-- What options are given is laid over what the file says. -/
theorem value_eq {g : Given} (h : sources.Give g x.flag) :
    x.value sources =
      ((g.value? x.flag.word).bind x.ofValue).getD (x.value ⟨[], [], sources.file⟩) := by
  have hfile : x.value ⟨[], [], sources.file⟩ = (x.inFile? sources).getD x.default := rfl
  rw [hfile, h.value, value, onLine?, inEnvironment?]
  cases hgiven : x.flag.given? sources.line with
  | some raw =>
      obtain ⟨v, hv⟩ := h.reads raw hgiven
      obtain ⟨a, ha⟩ := Option.isSome_iff_exists.mp (x.fits raw v hv)
      simp only [Option.bind_some, ofText?, hv, ha, Option.some_or, Option.getD_some]
  | none =>
      cases x.flag.set? sources.environment with
      | none => rfl
      | some raw =>
          cases hv : x.flag.value? raw with
          | none => simp [ofText?, hv]
          | some v =>
              obtain ⟨a, ha⟩ := Option.isSome_iff_exists.mp (x.fits raw v hv)
              simp [ofText?, hv, ha]

/-- A section that may be left out, which then changes nothing. -/
theorem elim_eq_some_iff {read : α → Yaml → Option α} {Strict : Yaml → Prop}
    (update : Option Yaml → α → α) {part : Option Yaml} {s t : α}
    (hread : ∀ s t y, read s y = some t ↔ Strict y ∧ t = update (some y) s)
    (hnone : ∀ s, update none s = s) :
    part.elim (some s) (read s) = some t ↔
      (∀ y, part = some y → Strict y) ∧ t = update part s := by
  cases part with
  | none => simp [hnone, eq_comm]
  | some y => simp [hread]

/-! ### Kinds of settings -/

section

variable (flag : Flag) (part : Part) (name : String)

/-- A setting that is a text. -/
def text (hkind : flag.kind = .text ∨ flag.kind = .path) (default : String) : Setting String :=
  ⟨flag, part, name, OptionValue.text?, Yaml.text?, default,
    fun _ _ hv => Flag.value?_textual hkind hv ▸ rfl⟩

/-- A setting that is a text or absent. -/
def optionalText (hkind : flag.kind = .text ∨ flag.kind = .path) : Setting (Option String) :=
  ⟨flag, part, name, fun v => v.text?.map some, Yaml.optionalText?, none,
    fun _ _ hv => Flag.value?_textual hkind hv ▸ rfl⟩

/-- A setting that is a number. -/
def count (hkind : flag.kind = .count) (default : Nat) : Setting Nat :=
  ⟨flag, part, name, OptionValue.count?, Yaml.nat? UInt64.size, default, fun _ _ hv => by
    obtain ⟨n, rfl⟩ := Flag.value?_count hkind hv
    rfl⟩

/-- A setting that is a truth value. -/
def truth (hkind : flag.kind = .truth) (default : Bool) : Setting Bool :=
  ⟨flag, part, name, OptionValue.truth?, Yaml.bool?, default, fun _ _ hv => by
    obtain ⟨b, rfl⟩ := Flag.value?_truth hkind hv
    rfl⟩

variable {flag part name} {sources : Sources} {g : Given} (h : sources.Give g flag)

include h

theorem value_text {hkind : flag.kind = .text ∨ flag.kind = .path} {default : String} :
    (text flag part name hkind default).value sources =
      (g.text? flag.word).getD ((text flag part name hkind default).value
        ⟨[], [], sources.file⟩) := by
  rw [value_eq (x := text flag part name hkind default) h, Given.text?_eq]
  rfl

theorem value_optionalText {hkind : flag.kind = .text ∨ flag.kind = .path} :
    (optionalText flag part name hkind).value sources =
      (g.text? flag.word).or ((optionalText flag part name hkind).value
        ⟨[], [], sources.file⟩) := by
  rw [value_eq (x := optionalText flag part name hkind) h, Given.text?_eq]
  show ((g.value? flag.word).bind fun v => v.text?.map some).getD _ = _
  cases g.value? flag.word with
  | none => rfl
  | some v => cases v <;> rfl

theorem value_count {hkind : flag.kind = .count} {default : Nat} :
    (count flag part name hkind default).value sources =
      (g.count? flag.word).getD ((count flag part name hkind default).value
        ⟨[], [], sources.file⟩) := by
  rw [value_eq (x := count flag part name hkind default) h, Given.count?_eq]
  rfl

theorem value_truth {hkind : flag.kind = .truth} {default : Bool} :
    (truth flag part name hkind default).value sources =
      (g.truth? flag.word).getD ((truth flag part name hkind default).value
        ⟨[], [], sources.file⟩) := by
  rw [value_eq (x := truth flag part name hkind default) h, Given.truth?_eq]
  rfl

omit h

variable (flag part name)

theorem value_of_textual (hkind : flag.kind = .text) (default : String) {raw : String}
    (hraw : (flag.given? sources.line).or (flag.set? sources.environment) = some raw) :
    (text flag part name (.inl hkind) default).value sources = raw ∧
      (optionalText flag part name (.inl hkind)).value sources = some raw := by
  have hvalue : flag.value? raw = some (.text raw) := by
    rw [Flag.value?_eq_some_iff, hkind, ValueKind.read]
  have htext : (text flag part name (.inl hkind) default).ofText? raw = some raw := by
    show (flag.value? raw).bind _ = _
    rw [hvalue]
    rfl
  have hoptional : (optionalText flag part name (.inl hkind)).ofText? raw = some (some raw) := by
    show (flag.value? raw).bind _ = _
    rw [hvalue]
    rfl
  have hfirst : ∀ {α : Type} (x : Setting α) (a : α), x.flag = flag → x.ofText? raw = some a →
      x.value sources = a := by
    rintro α x a rfl ha
    rw [value, onLine?, inEnvironment?]
    rcases Option.or_eq_some_iff.mp hraw with hline | ⟨hline, hset⟩
    · rw [hline, Option.bind_some, ha, Option.some_or, Option.getD_some]
    · rw [hline, hset, Option.bind_none, Option.none_or, Option.bind_some, ha, Option.some_or,
        Option.getD_some]
  exact ⟨hfirst _ _ rfl htext, hfirst _ _ rfl hoptional⟩

end

end Setting

/-! ## Files -/

namespace Layers

/-- The option that names a file. -/
def config : Flag := ⟨some 'c', "config", "CONFIG", .path⟩

/-- The path of the file that is named on the command line, or else in the environment. -/
def path? (line : List (Flag × String)) (environment : List (String × String)) : Option String :=
  (config.given? line).or (config.set? environment)

/-- The document that a file holds. -/
def document? (parse : String → Option Yaml) (path : String) (d : Disk) : Option Yaml :=
  ((d.read? path).bind Bytes.text?).bind parse

/-- The file that is named holds a document as it has to be, or none is named. -/
inductive Loaded (parse : String → Option Yaml) (Strict : Yaml → Prop) (d : Disk) :
    Option String → Option Yaml → Prop where
  | absent : Loaded parse Strict d none none
  | strict {path : String} {y : Yaml} (hy : document? parse path d = some y) (hstrict : Strict y) :
      Loaded parse Strict d (some path) (some y)

section

variable {α : Type} {parse : String → Option Yaml} {read : Yaml → Option α} {default : α}
  {overlay : Given → α → α} {validate : α → Result Unit} {g : Given} {d : Disk} {x : α}

theorem ofText_eq_ok_iff {text : String} :
    ofText parse read text = .ok x ↔ ∃ y, parse text = some y ∧ read y = some x := by
  rw [ofText, ← Option.bind_eq_some_iff]
  cases (parse text).bind read with
  | none => exact ⟨nofun, nofun⟩
  | some z =>
      exact ⟨fun h => congrArg some (Except.ok.inj h), fun h => congrArg _ (Option.some.inj h)⟩

theorem ofFile_eq_ok_iff {path : String} :
    ofFile parse read path d = .ok x ↔ ∃ y, document? parse path d = some y ∧ read y = some x := by
  rw [ofFile, document?]
  cases (d.read? path).bind Bytes.text? with
  | none => exact ⟨nofun, nofun⟩
  | some text => exact ofText_eq_ok_iff

theorem resolve_of_path {path : String} (hpath : g.text? "config" = some path) :
    resolve parse read default overlay validate g d = (ofFile parse read path d).bind fun z =>
      (validate (overlay g z)).bind fun _ => .ok (overlay g z) := by
  rw [resolve, hpath]
  rfl

/-- Settings come out exactly when the file can be read and what is left of all layers is valid:
what a file says is not checked before the other layers are laid over it. -/
theorem resolve_eq_ok_iff {Strict : Yaml → Prop} (base : Option Yaml → α)
    (hdefault : base none = default)
    (hread : ∀ {y x}, read y = some x ↔ Strict y ∧ x = base (some y)) :
    resolve parse read default overlay validate g d = .ok x ↔
      ∃ file, Loaded parse Strict d (g.text? "config") file ∧ x = overlay g (base file) ∧
        validate x = .ok () := by
  have hrest : ∀ z, ((validate (overlay g z)).bind fun _ => .ok (overlay g z) : Result α) = .ok x ↔
      x = overlay g z ∧ validate x = .ok () := by
    intro z
    rw [Result.bind_eq_ok_iff]
    constructor
    · rintro ⟨u, hvalid, hx⟩
      cases hx
      exact ⟨rfl, hvalid⟩
    · rintro ⟨rfl, hvalid⟩
      exact ⟨(), hvalid, rfl⟩
  cases hpath : g.text? "config" with
  | none =>
      have hresolve : resolve parse read default overlay validate g d =
          (validate (overlay g default)).bind fun _ => .ok (overlay g default) := by
        rw [resolve, hpath]
        rfl
      rw [hresolve, hrest, ← hdefault]
      constructor
      · exact fun h => ⟨none, .absent, h⟩
      · rintro ⟨file, hfile, h⟩
        cases hfile
        exact h
  | some path =>
      simp only [resolve_of_path hpath, Result.bind_eq_ok_iff (x := ofFile parse read path d),
        hrest, ofFile_eq_ok_iff, hread]
      constructor
      · rintro ⟨z, ⟨y, hy, hstrict, rfl⟩, h⟩
        exact ⟨some y, .strict hy hstrict, h⟩
      · rintro ⟨file, hfile, h⟩
        cases hfile with
        | @strict _ y hy hstrict => exact ⟨_, ⟨y, hy, hstrict, rfl⟩, h⟩

theorem resolve_eq_ofFile {path : String} (hpath : g.text? "config" = some path)
    (hover : ∀ x, overlay g x = x) :
    resolve parse read default overlay validate g d =
      (ofFile parse read path d).bind (valid validate) := by
  rw [resolve_of_path hpath]
  refine congrArg (ofFile parse read path d).bind (funext fun x => ?_)
  rw [hover, valid]
  cases validate x <;> rfl

theorem text?_config {sources : Sources} (h : sources.Give g config) :
    g.text? "config" = path? sources.line sources.environment := by
  have htext : ∀ {raw}, (∃ v, config.value? raw = some v) →
      (config.value? raw).bind OptionValue.text? = some raw := by
    rintro raw ⟨v, hv⟩
    rw [hv, Flag.value?_textual (.inr rfl) hv]
    rfl
  have hvalue : g.value? "config" = _ := h.value
  rw [Given.text?_eq, hvalue, path?]
  cases hgiven : config.given? sources.line with
  | some raw =>
      obtain ⟨v, hv⟩ := h.reads raw hgiven
      rw [Option.bind_some, Option.some_or, hv, Option.some_or, ← hv, htext ⟨v, hv⟩]
  | none =>
      rw [Option.bind_none, Option.none_or, Option.none_or]
      cases hset : config.set? sources.environment with
      | none => rfl
      | some raw => exact htext (h.asks hgiven raw hset)

variable {flags : List Flag} {arguments : List String} {environment : List (String × String)}
  {line : List (Flag × String)} {layered : Sources → α}

/-- Arguments that can be read are laid over a file. -/
theorem resolve_of_parse {Strict : Yaml → Prop} (hflags : Flag.Distinct flags)
    (hconfig : config ∈ flags) (hdefault : layered ⟨[], [], none⟩ = default)
    (hread : ∀ {y x}, read y = some x ↔ Strict y ∧ x = layered ⟨[], [], some y⟩)
    (hover : ∀ {g sources}, (∀ f ∈ flags, sources.Give g f) →
      overlay g (layered ⟨[], [], sources.file⟩) = layered sources)
    (h : Arguments.parse flags arguments environment = .ok g)
    (htold : Says flags arguments environment line) :
    resolve parse read default overlay validate g d = .ok x ↔
      ∃ file, Loaded parse Strict d (path? line environment) file ∧
        x = layered ⟨line, environment, file⟩ ∧ validate x = .ok () := by
  have hgive : ∀ file, ∀ f ∈ flags, Sources.Give ⟨line, environment, file⟩ g f :=
    fun file f hf => Sources.give_of_parse hflags h htold hf
  have hpath : g.text? "config" = path? line environment := text?_config (hgive none config hconfig)
  rw [resolve_eq_ok_iff (fun file => layered ⟨[], [], file⟩) hdefault hread, hpath]
  refine exists_congr fun file => and_congr_right fun _ => ?_
  rw [hover (hgive file)]

end

end Layers

end Telemetry
