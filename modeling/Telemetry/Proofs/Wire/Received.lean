/-
What is received of a metric.

A metric is written as JSON and read again.  Two things can happen to it on the way: an empty
hash is read as none (`Metric.received`), and its level is read of the number that is written
for it, which may be a neighbour of what it was (`Metric.Rereads`).  Everything else arrives as
it was (`Metric.rereads_of_decodeUpdate`).  A metric whose level reads back is refused only if
it is not complete, and arrives as it was but for the hash (`Metric.decodeUpdate_encode`).
-/
import Telemetry.Proofs.Wire.MetricJson

namespace Telemetry.Metric

/-- The metric that is read of a metric that is written. -/
def received (m : Metric) : Metric := { m with hash := m.hash.filter (· ≠ "") }

/-- The metric, unless it is incomplete. -/
def complete (m : Metric) : Result Metric := m.reading.map fun _ => m

theorem received_eq_self {m : Metric} (h : m.hash ≠ some "") : m.received = m := by
  have hfilter : m.hash.filter (· ≠ "") = m.hash := by
    cases hh : m.hash with
    | none => rfl
    | some s =>
        have hs : s ≠ "" := fun he => h (by rw [hh, he])
        simp [hs]
  rw [received, hfilter]

theorem reading_received (m : Metric) : m.received.reading = m.reading := rfl

theorem namedMetric_draft (m : Metric) :
    (⟨m.id, m.kind.name, m.delta, m.value, m.hash⟩ : Draft).namedMetric =
      if m.id = "" then .error (.badAttrValue "empty metric id") else .ok m.received := by
  rw [Draft.namedMetric, Draft.metric, Kind.ofName_name, Result.map_ok, Result.bind_ok]
  rfl

/-- The draft of a metric that has a name is completed to what is received of the metric. -/
theorem completeMetric_draft {m : Metric} (hid : m.id ≠ "") :
    (⟨m.id, m.kind.name, m.delta, m.value, m.hash⟩ : Draft).completeMetric =
      m.received.complete := by
  rw [Draft.completeMetric, namedMetric_draft, if_neg hid, Result.bind_ok]
  rfl

theorem decodeUpdate_encode {m : Metric} (hm : m.Finite) (hback : m.ReadsBack) (hid : m.id ≠ "") :
    decodeUpdate m.encode = m.received.complete := by
  rw [decodeUpdate, draft_of_readsBack hm hback, Result.bind_ok, completeMetric_draft hid]

/-- A metric is read as another one if this is what is received of it, at the level that is read
of the number that is written. -/
def Rereads (m n : Metric) : Prop :=
  m.level? = some n.value ∧ n = { m.received with value := n.value }

theorem rereads_of_decodeUpdate {m n : Metric} (hm : m.Finite) (h : decodeUpdate m.encode = .ok n) :
    m.Rereads n := by
  rw [decodeUpdate, draft_encode hm] at h
  cases hlevel : m.level? with
  | none =>
      rw [hlevel] at h
      cases h
  | some value =>
      rw [hlevel, Result.bind_ok, Draft.completeMetric,
        namedMetric_draft { m with value }] at h
      obtain ⟨k, hk, hcomplete⟩ := Result.bind_eq_ok_iff.mp h
      obtain ⟨-, -, rfl⟩ := Result.map_eq_ok_iff.mp hcomplete
      split at hk
      · cases hk
      · obtain rfl := Except.ok.inj hk
        exact ⟨hlevel, rfl⟩

end Telemetry.Metric
