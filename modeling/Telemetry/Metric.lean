/-
Metrics.

A metric has an identifier, a kind and, for its kind, a delta or a value.  What
travels may lack its field, carry the wrong one or both; `Metric.reading` is the
one place where that is decided, and it yields what can be stored: the amount
of a counter or the level of a gauge.
-/
import Telemetry.Fault
import Telemetry.Binary64.Fixed

namespace Telemetry

/-- What a metric measures. -/
inductive Kind where
  /-- A sum of deltas. -/
  | counter
  /-- A level, of which the latest counts. -/
  | gauge
deriving DecidableEq, Repr, Inhabited

namespace Kind

def name : Kind → String
  | counter => "counter"
  | gauge => "gauge"

def ofName (s : String) : Result Kind :=
  if s = counter.name then .ok counter
  else if s = gauge.name then .ok gauge
  else .error (.badType s)

@[simp] theorem ofName_name (k : Kind) : ofName k.name = .ok k := by
  cases k <;> rfl

/-- Counters come before gauges. -/
def rank : Kind → Nat
  | counter => 0
  | gauge => 1

end Kind

/-- A metric, complete or not. -/
structure Metric where
  /-- What the metric is called. -/
  id : String
  /-- What it measures. -/
  kind : Kind
  /-- The amount a counter grows by, or holds. -/
  delta : Option Int64
  /-- The level of a gauge. -/
  value : Option Binary64
  /-- The signature, in hexadecimal. -/
  hash : Option String
deriving DecidableEq, Repr, Inhabited

/-- What a complete metric says. -/
inductive Reading where
  | counter (amount : Int64)
  | gauge (level : Binary64)
deriving DecidableEq, Repr

namespace Reading

def kind : Reading → Kind
  | counter _ => .counter
  | gauge _ => .gauge

/-- The unsigned metric of a reading. -/
def toMetric (id : String) : Reading → Metric
  | counter amount => ⟨id, .counter, some amount, none, none⟩
  | gauge level => ⟨id, .gauge, none, some level, none⟩

end Reading

namespace Metric

/-- A counter with its amount. -/
def counter (id : String) (amount : Int64) : Metric := (Reading.counter amount).toMetric id

/-- A gauge with its level. -/
def gauge (id : String) (level : Binary64) : Metric := (Reading.gauge level).toMetric id

/-- A metric that asks for its field. -/
def query (id : String) (kind : Kind) : Metric := ⟨id, kind, none, none, none⟩

/-- Whether a metric carries no field at all. -/
def isQuery (m : Metric) : Bool := m.delta.isNone && m.value.isNone

/-- The complaint about a metric without the field of its kind. -/
def missingField (m : Metric) : Fault :=
  match m.kind with
  | .counter => .nullAttr s!"delta of counter {m.id}"
  | .gauge => .nullAttr s!"value of gauge {m.id}"

/-- What a metric says; it carries the field of its kind and no other. -/
def reading (m : Metric) : Result Reading :=
  match m.kind, m.delta, m.value with
  | .counter, _, some _ => .error (.badAttrValue s!"counter {m.id} carries a gauge value")
  | .counter, some d, none => .ok (.counter d)
  | .gauge, some _, _ => .error (.badAttrValue s!"gauge {m.id} carries a counter delta")
  | .gauge, none, some v => .ok (.gauge v)
  | _, none, none => .error m.missingField

/-- The number a metric shows: a counter's amount in full, a gauge's level with
three places, nothing where the field is missing. -/
def shown (m : Metric) : String :=
  match m.kind, m.delta, m.value with
  | .counter, some d, _ => Integer.ofInt d.toInt
  | .gauge, _, some v => v.fixed 3
  | _, _, _ => ""

/-- The number, and the signature after a semicolon. -/
def asText (m : Metric) : String :=
  m.shown ++ ((m.hash.filter (· ≠ "")).map (";" ++ ·)).getD ""

/-- Whether a metric comes first in the order of kinds, then of identifiers. -/
def le (a b : Metric) : Bool :=
  a.kind.rank < b.kind.rank ∨ (a.kind = b.kind ∧ (compare a.id b.id).isLE)

/-- Metrics in the order of kinds, then of identifiers. -/
def sort (ms : List Metric) : List Metric := ms.mergeSort le

@[simp] theorem reading_toMetric (id : String) (r : Reading) :
    (r.toMetric id).reading = .ok r := by
  cases r <;> rfl

theorem kind_of_reading {m : Metric} {r : Reading} (h : m.reading = .ok r) : r.kind = m.kind := by
  unfold reading at h
  split at h <;> simp_all [Reading.kind] <;> (cases h; rfl)

end Metric

end Telemetry
