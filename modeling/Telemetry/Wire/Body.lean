/-
Bodies of answers and of deliveries.

What a client accepts decides the form of the answer to it: JSON, or the short
text.  With a signer every metric and every reply is signed before it is
written.
-/
import Telemetry.Signature
import Telemetry.Wire.MetricJson
import Telemetry.Wire.ReplyJson
import Telemetry.Text.Pieces

namespace Telemetry

/-- The form of an answer. -/
inductive BodyFormat where
  | json | text | html
deriving DecidableEq, Repr, Inhabited

namespace BodyFormat

/-- The form that an `Accept` header asks for. -/
def ofAccept (header : Option String) : BodyFormat :=
  let accept := header.getD ""
  if Text.contains accept "html" then html
  else if Text.contains accept "json" then json
  else text

def name : BodyFormat → String
  | json => "json"
  | text => "text"
  | html => "html"

/-- The media type of a form. -/
def contentType : BodyFormat → String
  | json => "application/json"
  | text => "text/plain; charset=utf-8"
  | html => "text/html; charset=utf-8"

end BodyFormat

/-- Whether a header lists the gzip coding, with any parameters. -/
def listsGzip (header : String) : Bool :=
  (Text.splitChars ',' header.toList).any fun part =>
    Text.trimChars (Text.before ';' (Text.trimChars part)) = "gzip".toList

/-- What is signed when there is a signer. -/
def signedBy {α : Type} (sign : Signer → α → Result α) (signer : Option Signer) (x : α) :
    Result α :=
  match signer with
  | some s => sign s x
  | none => .ok x

namespace Metric

/-- The metric, signed if there is a signer. -/
def signed (signer : Option Signer) (m : Metric) : Result Metric :=
  signedBy Signer.signMetric signer m

/-- The octets of a metric in a form. -/
def inFormat (m : Metric) : BodyFormat → Bytes
  | .json => m.encode
  | .text | .html => Bytes.ofText m.asText

/-- The body that shows a metric. -/
def body (signer : Option Signer) (format : BodyFormat) (m : Metric) : Result Bytes :=
  (m.signed signer).map (·.inFormat format)

/-- The body that lists metrics, each of them signed. -/
def batchBody (signer : Option Signer) (ms : List Metric) : Result Bytes :=
  (ms.mapM (signed signer)).map encodeAll

end Metric

namespace Reply

/-- The reply, signed if there is a signer. -/
def signed (signer : Option Signer) (r : Reply) : Reply :=
  match signer with
  | some s => s.signReply r
  | none => r

/-- The octets of a reply in a form. -/
def inFormat (r : Reply) : BodyFormat → Bytes
  | .json => r.encode
  | .text | .html => Bytes.ofText r.asText

/-- The body that shows a reply. -/
def body (signer : Option Signer) (format : BodyFormat) (r : Reply) : Bytes :=
  (r.signed signer).inFormat format

end Reply

end Telemetry
