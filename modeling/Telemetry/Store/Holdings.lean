/-
What a store holds: an amount for each counter and a level for each gauge.

Counters and gauges of one identifier have nothing to do with each other.  A
listing reads the counters first and the gauges afterwards; where others write
in between, it may show two different moments (`Holdings.listing`).
-/
import Std.Data.ExtTreeMap
import Telemetry.Metric

namespace Telemetry

/-- Amounts and levels by identifier. -/
structure Holdings where
  counters : Std.ExtTreeMap String Int64
  gauges : Std.ExtTreeMap String Binary64

namespace Holdings

def empty : Holdings := ⟨∅, ∅⟩

instance : Inhabited Holdings := ⟨empty⟩

/-- Writes a reading in place of what was held. -/
def put (h : Holdings) (id : String) : Reading → Holdings
  | .counter amount => { h with counters := h.counters.insert id amount }
  | .gauge level => { h with gauges := h.gauges.insert id level }

/-- What is held under a kind and an identifier. -/
def reading? (h : Holdings) (kind : Kind) (id : String) : Option Reading :=
  match kind with
  | .counter => h.counters[id]?.map .counter
  | .gauge => h.gauges[id]?.map .gauge

/-- The metric that a query asks for. -/
def lookup (h : Holdings) (query : Metric) : Result Metric :=
  match h.reading? query.kind query.id with
  | some r => .ok (r.toMetric query.id)
  | none => .error (.notFound (query.kind.name ++ " " ++ query.id))

def counterMetrics (h : Holdings) : List Metric :=
  h.counters.toList.map fun (id, amount) => .counter id amount

def gaugeMetrics (h : Holdings) : List Metric :=
  h.gauges.toList.map fun (id, level) => .gauge id level

/-- A listing whose counters are read at one moment and whose gauges at a later
one. -/
def listing (first second : Holdings) : List Metric := first.counterMetrics ++ second.gaugeMetrics

/-- Everything that is held. -/
def metrics (h : Holdings) : List Metric := listing h h

/-- Sets a counter that is held to zero. -/
def reset (h : Holdings) (id : String) : Result Holdings :=
  if id ∈ h.counters then .ok (h.put id (.counter 0))
  else .error (.notFound ("counter " ++ id))

/-- The complaint about a sum that leaves the range of amounts. -/
def overflow (id : String) : Fault := .badAttrValue ("counter " ++ id ++ " overflows i64")

/-- Metrics with their readings; the first incomplete one decides the refusal. -/
def readings (ms : List Metric) : Result (List (String × Reading)) :=
  ms.mapM fun m => m.reading.map fun r => (m.id, r)

end Holdings

end Telemetry
