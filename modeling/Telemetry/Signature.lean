/-
Signatures.

What is signed is a canonical text: for a metric its identifier, kind and
number, for a reply its message and error.  The signature is the HMAC of that
text in hexadecimal.  A key without octets signs nothing, so there is no signer
for it.
-/
import Telemetry.Metric
import Telemetry.Reply
import Telemetry.Digest.Hmac
import Telemetry.Text.Hex

namespace Telemetry

namespace Metric

/-- The text that a metric's signature covers. -/
def canonical (m : Metric) : Result String :=
  match m.kind, m.delta, m.value with
  | .counter, some d, _ => .ok (m.id ++ ":counter:" ++ Integer.ofInt d.toInt)
  | .gauge, _, some v => .ok (m.id ++ ":gauge:" ++ v.fixed 6)
  | _, _, _ => .error m.missingField

end Metric

namespace Reply

/-- The text that a reply's signature covers. -/
def canonical (r : Reply) : String := "msg:" ++ r.message ++ ";err:" ++ r.error

end Reply

/-- A key to sign with. -/
structure Signer where
  /-- The octets of the key. -/
  key : Bytes
  nonempty : key ≠ []

namespace Signer

/-- The signer of a key, unless the key is empty. -/
def ofKey? (key : Bytes) : Option Signer :=
  if h : key = [] then none else some ⟨key, h⟩

/-- The signature of a text. -/
def sign (s : Signer) (text : String) : String :=
  Hex.encode (Hmac.code s.key (Bytes.ofText text))

/-- Whether a text bears a signature; digits of either case count. -/
def accepts (s : Signer) (text hash : String) : Bool :=
  Hex.decode? hash = some (Hmac.code s.key (Bytes.ofText text))

/-- Refuses a text that does not bear the signature. -/
def check (s : Signer) (text hash : String) : Result Unit :=
  if s.accepts text hash then .ok () else .error (.authFailed "invalid hash value")

def metricHash (s : Signer) (m : Metric) : Result String := m.canonical.map s.sign

/-- The metric with its signature in place of any earlier one. -/
def signMetric (s : Signer) (m : Metric) : Result Metric :=
  (s.metricHash m).map fun h => { m with hash := some h }

/-- Refuses a metric without a signature or with a wrong one. -/
def verifyMetric (s : Signer) (m : Metric) : Result Unit :=
  match m.hash with
  | none => .error (.authFailed s!"metric {m.id} is not signed")
  | some h => m.canonical.bind fun text => s.check text h

/-- The reply with its signature in place of any earlier one. -/
def signReply (s : Signer) (r : Reply) : Reply := { r with hash := s.sign r.canonical }

/-- Refuses a reply without a signature or with a wrong one. -/
def verifyReply (s : Signer) (r : Reply) : Result Unit :=
  if r.hash = "" then .error (.authFailed "response is not signed")
  else s.check r.canonical r.hash

/-- What is signed is accepted. -/
@[simp] theorem accepts_sign (s : Signer) (text : String) :
    s.accepts text (s.sign text) = true := by
  simp [accepts, sign]

@[simp] theorem check_sign (s : Signer) (text : String) : s.check text (s.sign text) = .ok () := by
  simp [check]

end Signer

end Telemetry
