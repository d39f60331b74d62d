/-
Metrics as path segments: a kind, an identifier and perhaps a value.

Without a value the path asks for the metric.  A counter's value is an integer
numeral, a gauge's any numeral of a finite number.
-/
import Telemetry.Metric
import Telemetry.Binary64.Numeral

namespace Telemetry.Metric

/-- The reading of a kind that a text writes. -/
def readingOf? (kind : Kind) (raw : String) : Option Reading :=
  match kind with
  | .counter => (Integer.int64? raw).map .counter
  | .gauge => ((Binary64.ofNumeral? raw).filter Binary64.isFinite).map .gauge

/-- The metric of a path whose kind is known and whose identifier is not empty. -/
def ofValue (kind : Kind) (id : String) (value : String) : Result Metric :=
  if value = "" then .ok (.query id kind)
  else
    match readingOf? kind value with
    | some r => .ok (r.toMetric id)
    | none => .error (.badAttrValue s!"{kind.name} {id}: {value}")

/-- The metric that path segments name; a missing value is like an empty one. -/
def ofPath (kind id : String) (value : Option String) : Result Metric :=
  (Kind.ofName kind).bind fun kind =>
    if id = "" then .error (.badAttrValue "empty metric id")
    else ofValue kind id (value.getD "")

end Telemetry.Metric
