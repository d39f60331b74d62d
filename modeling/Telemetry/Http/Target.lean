/-
Targets of requests.

A target is a path, perhaps behind a scheme and a host and perhaps before a
query.  Only the path counts.  A path is matched as it is written; its segments
are decoded afterwards, where `%` and two hexadecimal digits stand for an octet
and any other `%` for itself.
-/
import Telemetry.Text.Percent
import Telemetry.Text.Pieces

namespace Telemetry.Http.Target

/-- What follows the first `://`, if a target has one before its path. -/
def afterScheme? : List Char → Option (List Char)
  | ':' :: '/' :: '/' :: rest => some rest
  | c :: rest => if c = '/' then none else afterScheme? rest
  | [] => none

def endsPath (c : Char) : Bool := c = '?' ∨ c = '#'

/-- The path of a target; a target that names only a host has the root. -/
def path (target : String) : String :=
  let written := match afterScheme? target.toList with
    | some rest => rest.dropWhile fun c => c ≠ '/' ∧ ¬ endsPath c
    | none => target.toList
  match written.takeWhile fun c => ¬ endsPath c with
  | [] => "/"
  | cs => String.ofList cs

/-- The text of a segment, if its octets are one. -/
def decode? (segment : String) : Option String :=
  Bytes.text? (Percent.decode (Bytes.ofText segment))

end Telemetry.Http.Target
