/-
Command lines.

Every option takes one value, which follows it or is attached to it.  A value
that stands apart is looked at only when the next option, or the end, shows
that it is complete, so what an unknown option says wins over it.  Where the
command line is silent about an option, the environment is asked.
-/
import Telemetry.Text.Integer
import Telemetry.Text.Pieces

namespace Telemetry

/-- Why a command line is refused. -/
inductive ArgumentFault where
  /-- Something that is neither an option nor a value of one. -/
  | unknownArgument
  /-- A value is missing or not among those allowed. -/
  | invalidValue
  /-- A value is no number in range. -/
  | valueValidation
  /-- An option is given twice. -/
  | argumentConflict
  /-- A value is attached to an option that takes none. -/
  | tooManyValues
  /-- Not a refusal: the command line asks for help. -/
  | displayHelp
deriving DecidableEq, Repr

namespace ArgumentFault

def name : ArgumentFault → String
  | unknownArgument => "UnknownArgument"
  | invalidValue => "InvalidValue"
  | valueValidation => "ValueValidation"
  | argumentConflict => "ArgumentConflict"
  | tooManyValues => "TooManyValues"
  | displayHelp => "DisplayHelp"

end ArgumentFault

/-- What an option takes. -/
inductive ValueKind where
  /-- Any text. -/
  | text
  /-- A text that is not empty. -/
  | path
  /-- A natural number of 64 bits. -/
  | count
  /-- One of two truth values. -/
  | truth
deriving DecidableEq, Repr

/-- A value of an option. -/
inductive OptionValue where
  | text (s : String)
  | count (n : Nat)
  | truth (b : Bool)
deriving DecidableEq, Repr

/-- An option of a command line. -/
structure Flag where
  /-- The letter after one dash. -/
  letter : Option Char
  /-- The word after two dashes. -/
  word : String
  /-- The variable of the environment. -/
  envName : String
  kind : ValueKind
deriving DecidableEq, Repr

/-- The value that a text is for an option. -/
def ValueKind.read : ValueKind → String → Except ArgumentFault OptionValue
  | .text, s => .ok (.text s)
  | .path, s => if s = "" then .error .invalidValue else .ok (.text s)
  | .count, s =>
    match Integer.below? UInt64.size s with
    | some n => .ok (.count n)
    | none => .error .valueValidation
  | .truth, s =>
    if s = "true" then .ok (.truth true)
    else if s = "false" then .ok (.truth false)
    else .error .invalidValue

/-- Values by the words of their options. -/
abbrev Given := List (String × OptionValue)

namespace Given

def value? (g : Given) (word : String) : Option OptionValue := (g.find? (·.1 = word)).map (·.2)

def text? (g : Given) (word : String) : Option String :=
  match g.value? word with
  | some (.text s) => some s
  | _ => none

def count? (g : Given) (word : String) : Option Nat :=
  match g.value? word with
  | some (.count n) => some n
  | _ => none

def truth? (g : Given) (word : String) : Option Bool :=
  match g.value? word with
  | some (.truth b) => some b
  | _ => none

end Given

/-- A command line that is partly read. -/
structure Arguments where
  given : Given
  /-- The latest option, and its value once there is one. -/
  pending : Option (Flag × Option String)
  /-- Whether options are over. -/
  closed : Bool

namespace Arguments

def start : Arguments := ⟨[], none, false⟩

/-- Gives an option its value. -/
def assign (g : Given) (f : Flag) (raw : String) : Except ArgumentFault Given :=
  if (g.value? f.word).isSome then .error .argumentConflict
  else (f.kind.read raw).map fun v => (f.word, v) :: g

/-- Gives the latest option its value, which has to be there. -/
def settle (a : Arguments) : Except ArgumentFault Given :=
  match a.pending with
  | none => .ok a.given
  | some (_, none) => .error .invalidValue
  | some (f, some raw) => assign a.given f raw

/-- Begins an option, perhaps with a value attached to it. -/
def option (a : Arguments) (f : Flag) (attached : Option String) : Except ArgumentFault Arguments :=
  a.settle.bind fun g =>
    match attached with
    | some raw => (assign g f raw).map fun g => ⟨g, none, false⟩
    | none => .ok ⟨g, some (f, none), false⟩

/-- A request for help, once the latest option has its value. -/
def help {α : Type} (a : Arguments) : Except ArgumentFault α :=
  a.settle.bind fun _ => .error .displayHelp

/-- An argument that begins with two dashes. -/
def word (flags : List Flag) (a : Arguments) (cs : List Char) : Except ArgumentFault Arguments :=
  let (name, attached) := match Text.cut? '=' cs with
    | some (name, value) => (String.ofList name, some (String.ofList value))
    | none => (String.ofList cs, none)
  match flags.find? (·.word = name) with
  | some f => a.option f attached
  | none =>
    if name = "help" then
      if attached.isSome then .error .tooManyValues else a.help
    else .error .unknownArgument

/-- An argument that begins with one dash. -/
def letter (flags : List Flag) (a : Arguments) (c : Char) (rest : List Char) :
    Except ArgumentFault Arguments :=
  match flags.find? (·.letter = some c) with
  | some f =>
    a.option f (match rest with
      | [] => none
      | '=' :: value => some (String.ofList value)
      | value => some (String.ofList value))
  | none => if c = 'h' then a.help else .error .unknownArgument

def plain (a : Arguments) (s : String) : Except ArgumentFault Arguments :=
  match a.pending with
  | some (f, none) => .ok { a with pending := some (f, some s) }
  | _ => .error .unknownArgument

/-- Reads one argument. -/
def step (flags : List Flag) (a : Arguments) (s : String) : Except ArgumentFault Arguments :=
  if a.closed then .error .unknownArgument
  else
    match s.toList with
    | ['-', '-'] => .ok { a with closed := true }
    | '-' :: '-' :: cs => a.word flags cs
    | '-' :: c :: rest => a.letter flags c rest
    | _ => a.plain s

/-- Asks the environment about one option. -/
def ask (environment : List (String × String)) (g : Given) (f : Flag) :
    Except ArgumentFault Given :=
  if (g.value? f.word).isSome then .ok g
  else
    match environment.find? (·.1 = f.envName) with
    | some (_, raw) => assign g f raw
    | none => .ok g

/-- The values that a command line and an environment give. -/
def parse (flags : List Flag) (arguments : List String) (environment : List (String × String)) :
    Except ArgumentFault Given := do
  let a ← arguments.foldlM (step flags) start
  let g ← a.settle
  flags.foldlM (ask environment) g

end Arguments

end Telemetry
