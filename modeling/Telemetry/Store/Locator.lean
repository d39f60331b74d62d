/-
The names that databases are opened under.

A name is a path, or `file:` with a path and options behind it, in which octets
may be escaped.  An escaped zero ends the part that it stands in.  The options
say how the file is accessed, what may be done to it, and that it never changes.
-/
import Telemetry.Text.Lossy
import Telemetry.Text.Percent
import Telemetry.Text.Pieces

namespace Telemetry

/-- What may be done to a file, at most. -/
inductive Rights where
  | nothing
  | read
  | write
  | create
deriving DecidableEq, Repr

/-- How much rights allow. -/
def Rights.level : Rights → Nat
  | nothing => 0
  | read => 1
  | write => 2
  | create => 3

/-- Where a database is and how it is opened. -/
structure Locator where
  /-- The path text of the file; an empty one stands for no file. -/
  path : String
  /-- The way the file is accessed. -/
  access : String
  rights : Rights
  /-- Whether no file was asked for. -/
  memory : Bool
  /-- Whether the file is never written to. -/
  immutable : Bool
deriving DecidableEq, Repr

namespace Locator

/-- The text of a part of a name. -/
def partText (cs : List Char) : String :=
  Lossy.text ((Percent.decode (Bytes.ofText (String.ofList cs))).takeWhile (· ≠ 0))

/-- What follows the host that a name may have, which is the local one. -/
def afterHost? : List Char → Option (List Char)
  | '/' :: '/' :: cs =>
    let host := cs.takeWhile (· ≠ '/')
    if host = [] ∨ host = "localhost".toList then some (cs.drop host.length) else none
  | cs => some cs

def options (cs : List Char) : List (String × String) :=
  ((Text.splitChars '&' cs).map fun piece =>
    match Text.cut? '=' piece with
    | some (name, value) => (partText name, partText value)
    | none => (partText piece, "")).filter (·.1 ≠ "")

/-- The rights that an option asks for; none are those of no file. -/
def rightsOf? : String → Option Rights
  | "ro" => some .read
  | "rw" => some .write
  | "rwc" => some .create
  | "memory" => some .nothing
  | _ => none

/-- The number at the beginning of a text. -/
def leadingNumber (s : String) : Nat :=
  (s.toList.takeWhile Char.isDigit).foldl (fun n c => n * 10 + (c.toNat - 48)) 0

/-- Whether an option is switched on. -/
def isOn (value : String) : Bool :=
  ["on", "yes", "true"].contains (Text.lower value) || leadingNumber value % 256 ≠ 0

/-- What one option chooses. -/
def choose (l : Locator) : String × String → Option Locator
  | ("vfs", access) => some { l with access }
  | ("cache", kind) => if kind = "shared" ∨ kind = "private" then some l else none
  | ("mode", mode) =>
    (rightsOf? mode).bind fun rights =>
      if l.memory ∨ rights.level ≤ l.rights.level then
        some { l with rights, memory := rights = .nothing }
      else none
  | _ => some l

/-- The locator of a name, given what may be done and whether no file was asked
for. -/
def ofName? (rights : Rights) (memory : Bool) (name : String) : Option Locator :=
  let plain : Locator := ⟨name, "unix", rights, memory, false⟩
  match name.toList with
  | 'f' :: 'i' :: 'l' :: 'e' :: ':' :: cs =>
    (afterHost? cs).bind fun cs =>
      let cs := cs.takeWhile (· ≠ '#')
      let (path, options) := match Text.cut? '?' cs with
        | some (path, rest) => (path, options rest)
        | none => (cs, [])
      let immutable := (options.find? (·.1 = "immutable")).any fun o => isOn o.2
      options.foldlM choose { plain with path := partText path, immutable }
  | _ => some plain

def fileAccesses : List String := ["unix", "unix-none", "unix-dotfile", "unix-excl"]

def memoryAccess : String := "memdb"

/-- Whether the way to access files exists. -/
def isAccessible (l : Locator) : Bool := l.access = memoryAccess || fileAccesses.contains l.access

/-- Whether no file is named. -/
def isUnnamed (l : Locator) : Bool := l.memory || l.path = "" || l.path = ":memory:"

/-- Whether the database is kept in no file. -/
def isFileless (l : Locator) : Bool := l.isUnnamed || l.access = memoryAccess

/-- Whether nothing may be written; what is not named may always change. -/
def isReadOnly (l : Locator) : Bool := l.rights = .read || (l.immutable && !l.isUnnamed)

end Locator

end Telemetry
