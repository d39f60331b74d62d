/-
Replies.

Every answer that is not a metric is an envelope of three texts: what was done,
what went wrong, and a signature.  An empty text is absent.
-/
import Telemetry.Fault

namespace Telemetry

/-- The envelope of an answer. -/
structure Reply where
  /-- What was done. -/
  message : String
  /-- What went wrong. -/
  error : String
  /-- The signature, in hexadecimal. -/
  hash : String
deriving DecidableEq, Repr, Inhabited

namespace Reply

/-- The reply to a success. -/
def success (message : String) : Reply := ⟨message, "", ""⟩

def ofFault (f : Fault) : Reply := ⟨"", f.message, ""⟩

def isError (r : Reply) : Bool := r.error ≠ ""

/-- A text with its label; an empty text is left out. -/
def part (label text : String) : String :=
  if text = "" then "" else label ++ ":" ++ text ++ ";"

/-- The labelled texts that are present. -/
def asText (r : Reply) : String :=
  part "message" r.message ++ part "error" r.error ++ part "hash" r.hash

end Reply

end Telemetry
