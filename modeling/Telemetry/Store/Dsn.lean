/-
Where a database is: `sqlite:` and a path, or `:memory:`, and parameters.

A path may have escaped octets.  Parameters choose how the database is opened;
an unknown one, or an unknown choice, spoils the whole text.
-/
import Telemetry.Store.Locator

namespace Telemetry

/-- How a database is found and opened. -/
structure Dsn where
  /-- The name of the file. -/
  name : String
  /-- Whether the database lives in memory only. -/
  inMemory : Bool
  /-- Whether nothing may be written. -/
  readOnly : Bool
  /-- Whether the file never changes. -/
  immutable : Bool
  /-- The way the file is accessed, if one is asked for. -/
  access : Option String
deriving DecidableEq, Repr

namespace Dsn

/-- A part of a parameter: a plus is a blank, and octets may be escaped. -/
def formText (cs : List Char) : String :=
  Lossy.text (Percent.decode
    ((Bytes.ofText (String.ofList cs)).map fun x => if x = 43 then 32 else x))

def parameters (cs : List Char) : List (String × String) :=
  ((Text.splitChars '&' cs).filter (· ≠ [])).map fun piece =>
    match Text.cut? '=' piece with
    | some (name, value) => (formText name, formText value)
    | none => (formText piece, "")

def choose (d : Dsn) : String × String → Option Dsn
  | ("mode", "ro") => some { d with readOnly := true }
  | ("mode", "rw") | ("mode", "rwc") => some d
  | ("mode", "memory") => some { d with inMemory := true }
  | ("cache", "private") | ("cache", "shared") => some d
  | ("immutable", "true") | ("immutable", "1") => some { d with immutable := true }
  | ("immutable", "false") | ("immutable", "0") => some { d with immutable := false }
  | ("vfs", access) => some { d with access := some access }
  | _ => none

/-- Characters without a lead, however often it is repeated. -/
def dropLead (lead : List Char) (fuel : Nat) (cs : List Char) : List Char :=
  match fuel with
  | 0 => cs
  | fuel + 1 => if lead.isPrefixOf cs then dropLead lead fuel (cs.drop lead.length) else cs

/-- The place that the part before the parameters names. -/
def ofPlace? (cs : List Char) : Option Dsn :=
  if cs = ":memory:".toList then some ⟨"file:memory", true, false, false, none⟩
  else
    (Bytes.text? (Percent.decode (Bytes.ofText (String.ofList cs)))).map fun name =>
      ⟨name, false, false, false, none⟩

/-- The place and the choices that a text names. -/
def ofText? (s : String) : Option Dsn :=
  let cs := dropLead "sqlite://".toList s.length s.toList
  let cs := dropLead "sqlite:".toList s.length cs
  match Text.cut? '?' cs with
  | none => ofPlace? cs
  | some (place, rest) => (ofPlace? place).bind fun d => (parameters rest).foldlM choose d

/-- The options that are put behind the name of a file. -/
def options (d : Dsn) : List String :=
  (if d.immutable then ["immutable=true"] else []) ++ (d.access.map ("vfs=" ++ ·)).toList

/-- The name under which a database is opened, if it can be one.  With options it
is escaped, and they stand behind it. -/
def openName? (d : Dsn) : Option String :=
  let name := if d.options = [] then d.name
    else "file:" ++ String.ofList (Percent.encode Char.isAlphanum d.name.toList) ++ "?"
      ++ String.intercalate "&" d.options
  if name.toList.contains '\x00' then none else some name

/-- Where the database is and how it is opened; a missing file is made, unless
nothing may be written. -/
def locator? (d : Dsn) : Option Locator :=
  d.openName?.bind (Locator.ofName? (if d.readOnly then .read else .create) d.inMemory)

end Dsn

end Telemetry
