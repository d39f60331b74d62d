/-
The disk.

A path text is followed step by step: a step that is not the last one has to
lead to a directory, and a name may not be too long.  Where a text leads decides
what can be done there.  Writing touches nothing but the file it names, and
moving a file replaces what its new name stood for in one step.
-/
import Std.Data.ExtTreeMap
import Telemetry.Bytes
import Telemetry.Store.Holdings
import Telemetry.Store.PathText

namespace Telemetry

/-- The names that lead from the root to a place. -/
abbrev Path := List String

/-- What stands at a place. -/
inductive Node where
  | directory
  | file (content : Bytes)
  | database (tables : Holdings)

instance : Inhabited Node := ⟨.directory⟩

/-- Where a path text leads. -/
inductive Lead where
  /-- To a place where something stands. -/
  | found (place : Path) (node : Node)
  /-- To a place in a directory where nothing stands. -/
  | free (place : Path)
  /-- Nowhere: a directory on the way is missing. -/
  | missing
  /-- Nowhere, and no directory that could be made would change that. -/
  | barred

/-- Everything that is stored, by path from the root, and the directory one
stands in. -/
structure Disk where
  nodes : Std.ExtTreeMap Path Node
  current : Path

namespace Disk

def empty : Disk := ⟨∅, []⟩

instance : Inhabited Disk := ⟨empty⟩

def maxNameLength : Nat := 255

def maxTextLength : Nat := 4095

/-- Where steps lead from a directory. -/
def follow (d : Disk) (place : Path) : List String → Lead
  | [] => .found place .directory
  | "." :: rest => d.follow place rest
  | ".." :: rest => d.follow place.dropLast rest
  | name :: rest =>
    if maxNameLength < name.utf8ByteSize then .barred
    else
      let next := place ++ [name]
      match d.nodes[next]? with
      | some .directory => d.follow next rest
      | some node => if rest = [] then .found next node else .barred
      | none => if rest = [] then .free next else .missing

/-- Where a path text leads; with a slash at its end it cannot mean a file. -/
def lead (d : Disk) (text : String) : Lead :=
  if text = "" then .missing
  else if maxTextLength < text.utf8ByteSize ∨ text.toList.contains '\x00' then .barred
  else
    let start := if PathText.isAbsolute text then [] else d.current
    match d.follow start (PathText.steps text) with
    | .found place .directory => .found place .directory
    | .found place node => if PathText.endsInSlash text then .barred else .found place node
    | lead => lead

def put (d : Disk) (place : Path) (node : Node) : Disk :=
  { d with nodes := d.nodes.insert place node }

/-- How the octets of a database begin. -/
def databaseMark : Bytes := Bytes.ofText "SQLite format 3\x00"

/-- The content of a file; of a database no more than its beginning is told. -/
def read? (d : Disk) (text : String) : Option Bytes :=
  match d.lead text with
  | .found _ (.file content) => some content
  | .found _ (.database _) => some databaseMark
  | _ => none

/-- Makes a directory and those above it, within some steps; yields whether it is
there.  What was made on the way stays. -/
def makeDirsWithin : Nat → String → Disk → Bool × Disk
  | 0, _, d => (false, d)
  | fuel + 1, text, d =>
    if text = "" then (true, d)
    else
      match d.lead text with
      | .found _ .directory => (true, d)
      | .free place => (true, d.put place .directory)
      | .missing =>
        let (made, d) := makeDirsWithin fuel (PathText.parent text) d
        match made, d.lead text with
        | true, .found _ .directory => (true, d)
        | true, .free place => (true, d.put place .directory)
        | _, _ => (false, d)
      | _ => (false, d)

/-- Makes a directory and those above it; yields whether it is there. -/
def makeDirs (d : Disk) (text : String) : Bool × Disk := makeDirsWithin (text.length + 1) text d

/-- The place where a file can be put by a path text. -/
def place? (d : Disk) (text : String) : Option Path :=
  match d.lead text with
  | .found _ .directory => none
  | .found place _ => some place
  | .free place => if PathText.endsInSlash text then none else some place
  | _ => none

/-- Writes a file into a directory that exists. -/
def write? (d : Disk) (text : String) (content : Bytes) : Option Disk :=
  (d.place? text).map fun place => d.put place (.file content)

/-- Moves a file, replacing what is there unless it is a directory. -/
def move? (d : Disk) (source target : String) : Option Disk :=
  match d.lead source, d.place? target with
  | .found _ .directory, _ => none
  | .found old node, some new => some { d with nodes := (d.nodes.erase old).insert new node }
  | _, _ => none

/-- The names in a directory that lead to directories and files. -/
def names (d : Disk) (text : String) : List String :=
  match d.lead text with
  | .found place .directory =>
    d.nodes.toList.filterMap fun (p, node) =>
      match node with
      | .database _ => none
      | _ => if p.dropLast = place then p.getLast? else none
  | _ => []

end Disk

end Telemetry
