/-
Metrics as JSON.

A metric is an object with the fields `id`, `type`, `delta`, `value` and `hash`,
the last three optional.  Reading goes through a draft, which has the right
shape but may name an unknown kind: a text of the wrong shape is a bad request,
whatever else is wrong with it, and only a draft is asked for its kind, then
its identifier, then its value.
-/
import Telemetry.Metric
import Telemetry.Json.Reader
import Telemetry.Json.Writer

namespace Telemetry

/-- A metric whose kind is still a name. -/
structure Draft where
  id : String
  kind : String
  delta : Option Int64
  value : Option Binary64
  hash : Option String
deriving DecidableEq, Repr

namespace Draft

/-- The names of the fields, in the order of the array form. -/
def names : List String := ["id", "type", "delta", "value", "hash"]

/-- The draft that the values of the fields make. -/
def ofSlots? : List (Option Json) → Option Draft
  | [id, kind, delta, value, hash] => do
    let id ← id.bind Json.text?
    let kind ← kind.bind Json.text?
    let delta ← Json.optional Json.int64? delta
    let value ← Json.optional Json.binary64? value
    let hash ← Json.optional Json.text? hash
    some ⟨id, kind, delta, value, hash⟩
  | _ => none

/-- The draft that a document is: an object, or an array of the values in order. -/
def ofJson? (j : Json) : Option Draft := (Json.slots? names j).bind ofSlots?

/-- The metric of a draft; an empty signature is none. -/
def metric (d : Draft) : Result Metric :=
  (Kind.ofName d.kind).map fun kind => ⟨d.id, kind, d.delta, d.value, d.hash.filter (· ≠ "")⟩

/-- The metric of a draft, which has to be named. -/
def namedMetric (d : Draft) : Result Metric :=
  d.metric.bind fun m => if m.id = "" then .error (.badAttrValue "empty metric id") else .ok m

/-- The metric of a draft, which has to be named and complete. -/
def completeMetric (d : Draft) : Result Metric :=
  d.namedMetric.bind fun m => m.reading.map fun _ => m

end Draft

namespace Metric

def toJson (m : Metric) : Json :=
  Json.record [("id", some (Json.ofText m.id)), ("type", some (Json.ofText m.kind.name)),
    ("delta", m.delta.map Json.ofInt64), ("value", m.value.map Json.ofBinary64),
    ("hash", m.hash.map Json.ofText)]

/-- The complaint about a text that has not the shape of a metric. -/
def malformed : Fault := .badRequest "invalid metric json: malformed metric"

/-- The complaint about a text that has not the shape of a list of metrics. -/
def malformedBatch : Fault := .badRequest "invalid metrics batch json: malformed batch"

/-- The draft that octets write. -/
def draft (b : Bytes) : Result Draft :=
  match (Json.parse? b).bind Draft.ofJson? with
  | some d => .ok d
  | none => .error malformed

/-- A named metric, complete or not. -/
def decode (b : Bytes) : Result Metric := (draft b).bind Draft.namedMetric

/-- A named and complete metric. -/
def decodeUpdate (b : Bytes) : Result Metric := (draft b).bind Draft.completeMetric

/-- The drafts that an array writes. -/
def drafts? : Json → Option (List Draft)
  | .array items => items.mapM Draft.ofJson?
  | _ => none

/-- A list of named and complete metrics; the first one that is neither decides
the refusal. -/
def decodeBatch (b : Bytes) : Result (List Metric) :=
  match (Json.parse? b).bind drafts? with
  | some ds => ds.mapM Draft.completeMetric
  | none => .error malformedBatch

def encode (m : Metric) : Bytes := m.toJson.compact

def encodeAll (ms : List Metric) : Bytes := (Json.array (ms.map toJson)).compact

end Metric

end Telemetry
