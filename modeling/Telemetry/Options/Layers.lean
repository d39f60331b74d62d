/-
Settings from layers.

Settings are read from a file, or are the defaults; what the command line and the environment give
is laid over them; only the result has to be valid.  How a text is parsed into a document is left
open here: `parse` is the library that does it.
-/
import Telemetry.Fault
import Telemetry.Options.Arguments
import Telemetry.Store.Disk
import Telemetry.Yaml.Basic

namespace Telemetry.Layers

def ofText {α : Type} (parse : String → Option Yaml) (read : Yaml → Option α) (text : String) :
    Result α :=
  match (parse text).bind read with
  | some x => .ok x
  | none => .error (.badRequest "invalid yaml: malformed settings")

def ofFile {α : Type} (parse : String → Option Yaml) (read : Yaml → Option α) (path : String)
    (d : Disk) : Result α :=
  match (d.read? path).bind Bytes.text? with
  | some text => ofText parse read text
  | none => .error (.internal ("read config " ++ path ++ " failed: unreadable file"))

/-- The settings of all layers: a file if one is named, else the defaults, with
the given values over them. -/
def resolve {α : Type} (parse : String → Option Yaml) (read : Yaml → Option α) (default : α)
    (overlay : Given → α → α) (validate : α → Result Unit) (given : Given) (d : Disk) :
    Result α := do
  let x ← match given.text? "config" with
    | some path => ofFile parse read path d
    | none => .ok default
  let x := overlay given x
  validate x
  .ok x

/-- Settings that have to be valid. -/
def valid {α : Type} (validate : α → Result Unit) (x : α) : Result α := (validate x).map fun _ => x

end Telemetry.Layers
