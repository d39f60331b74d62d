/-
Replies as JSON.

A reply is an object with the fields `message`, `error` and `hash`; a field that
is left out is an empty text, and an empty text is left out.
-/
import Telemetry.Reply
import Telemetry.Json.Reader
import Telemetry.Json.Writer

namespace Telemetry.Reply

/-- The names of the fields, in the order of the array form. -/
def names : List String := ["message", "error", "hash"]

/-- A text that may be left out. -/
def slot? : Option Json → Option String
  | none => some ""
  | some j => j.text?

/-- The reply that a document is: an object, or an array of the values in order. -/
def ofJson? (j : Json) : Option Reply :=
  match Json.slots? names j with
  | some [message, error, hash] => do
    let message ← slot? message
    let error ← slot? error
    let hash ← slot? hash
    some ⟨message, error, hash⟩
  | _ => none

/-- A text that is left out when it is empty. -/
def slotOf (s : String) : Option Json := if s = "" then none else some (Json.ofText s)

def toJson (r : Reply) : Json :=
  Json.record [("message", slotOf r.message), ("error", slotOf r.error), ("hash", slotOf r.hash)]

def parse? (b : Bytes) : Option Reply := (Json.parse? b).bind ofJson?

def encode (r : Reply) : Bytes := r.toJson.compact

end Telemetry.Reply
