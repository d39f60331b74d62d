/-
The store in memory.

A single update adds to a counter or replaces a gauge.  A batch is staged: the
sums of its counters are worked out beside the store and written only when none
of them leaves the range of amounts.
-/
import Telemetry.Store.Holdings

namespace Telemetry.Memory

def sum (id : String) (current delta : Int64) : Result Int64 :=
  match Integer.toInt64? (current.toInt + delta.toInt) with
  | some n => .ok n
  | none => .error (Holdings.overflow id)

def apply (h : Holdings) (id : String) : Reading → Result Holdings
  | .counter delta =>
    (sum id (h.counters[id]?.getD 0) delta).map fun n => h.put id (.counter n)
  | .gauge level => .ok (h.put id (.gauge level))

def update (h : Holdings) (m : Metric) : Result Holdings := m.reading.bind (apply h m.id)

/-- Sums that are worked out but not yet written. -/
abbrev Staged := Std.ExtTreeMap String Int64

/-- The amount that a counter would have. -/
def amount (h : Holdings) (staged : Staged) (id : String) : Int64 :=
  staged[id]?.getD (h.counters[id]?.getD 0)

/-- Adds one reading to the staged sums. -/
def stage (h : Holdings) (staged : Staged) : String × Reading → Result Staged
  | (id, .counter delta) => (sum id (amount h staged id) delta).map fun n => staged.insert id n
  | (_, .gauge _) => .ok staged

/-- Writes one gauge; counters are written from the staged sums. -/
def putGauge (h : Holdings) : String × Reading → Holdings
  | (_, .counter _) => h
  | (id, .gauge level) => h.put id (.gauge level)

/-- Writes staged sums. -/
def putStaged (h : Holdings) (staged : Staged) : Holdings :=
  staged.toList.foldl (fun h (id, n) => h.put id (.counter n)) h

/-- Applies a batch as a whole. -/
def updateAll (h : Holdings) (batch : List Metric) : Result Holdings := do
  let rs ← Holdings.readings batch
  let staged ← rs.foldlM (stage h) (∅ : Staged)
  .ok (rs.foldl putGauge (putStaged h staged))

/-- Writes metrics in place of what is held; counters are set, not added to. -/
def replaceAll (h : Holdings) (ms : List Metric) : Result Holdings :=
  (Holdings.readings ms).map fun rs => rs.foldl (fun h (id, r) => h.put id r) h

end Telemetry.Memory
