/-
Requests and responses.
-/
import Telemetry.Http.Target

namespace Telemetry.Http

/-- A request; a header's value need not be text. -/
structure Request where
  method : String
  target : String
  headers : List (String × Bytes)
  body : Bytes
deriving Repr

namespace Request

/-- Whether an octet may occur in a header that is read as text. -/
def isVisible (x : UInt8) : Bool := x = 9 ∨ (32 ≤ x ∧ x < 127)

/-- The value of a header: of several with one name the first, and none if it is
not plain text. -/
def header? (r : Request) (name : String) : Option String :=
  match r.headers.find? fun (n, _) => Text.lower n = Text.lower name with
  | some (_, value) => if value.all isVisible then Bytes.text? value else none
  | none => none

def path (r : Request) : String := Target.path r.target

end Request

/-- A response. -/
structure Response where
  status : Nat
  contentType : Option String
  contentEncoding : Option String
  /-- The methods to use instead. -/
  allow : Option String
  body : Bytes
deriving Repr, DecidableEq

namespace Response

def empty (status : Nat) : Response := ⟨status, none, none, none, []⟩

/-- A response that shows text as it is. -/
def plain (status : Nat) (text : String) : Response :=
  ⟨status, some "text/plain; charset=utf-8", none, none, Bytes.ofText text⟩

/-- The response with its content left out. -/
def bodiless (r : Response) : Response := { r with body := [] }

end Response

end Telemetry.Http
