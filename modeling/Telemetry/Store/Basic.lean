/-
Stores.

A store is in memory or in a database; both are used alike.  An operation that
is refused leaves the store as it was, so it yields a store only when it
succeeds.
-/
import Telemetry.Store.Database
import Telemetry.Store.Memory
import Telemetry.Store.Snapshot

namespace Telemetry

/-- A place to keep metrics. -/
inductive Store where
  | memory (holdings : Holdings)
  | database (db : Database)

namespace Store

def inMemory : Store := memory .empty

instance : Inhabited Store := ⟨inMemory⟩

def name : Store → String
  | memory _ => "memory"
  | database _ => "sqlite"

/-- Makes a store ready for use. -/
def initialise (s : Store) (d : Disk) : Result Store :=
  match s with
  | memory h => .ok (memory h)
  | database db => (db.initialise d).map database

/-- The metric that a query asks for. -/
def lookup (s : Store) (query : Metric) : Result Metric :=
  match s with
  | memory h => h.lookup query
  | database db => db.lookup query

def metrics : Store → Result (List Metric)
  | memory h => .ok h.metrics
  | database db => db.metrics

/-- Adds to a counter or replaces a gauge. -/
def update (s : Store) (m : Metric) : Result Store :=
  match s with
  | memory h => (Memory.update h m).map memory
  | database db => (db.update m).map database

/-- Applies a batch as a whole. -/
def updateAll (s : Store) (batch : List Metric) : Result Store :=
  match s with
  | memory h => (Memory.updateAll h batch).map memory
  | database db => (db.updateAll batch).map database

/-- Sets a counter that is held to zero. -/
def reset (s : Store) (id : String) : Result Store :=
  match s with
  | memory h => (h.reset id).map memory
  | database db => (db.reset id).map database

/-- Writes metrics in place of what is held; counters are set, not added to. -/
def replaceAll (s : Store) (ms : List Metric) : Result Store :=
  match s with
  | memory h => (Memory.replaceAll h ms).map memory
  | database db => (db.replaceAll ms).map database

/-- Whether a store can be asked anything. -/
def available : Store → Result Unit
  | memory _ => .ok ()
  | database db => db.available

def close : Store → Store
  | memory h => memory h
  | database db => database db.close

/-- The disk with everything that a store keeps there. -/
def save (s : Store) (d : Disk) : Disk :=
  match s with
  | memory _ => d
  | database db => db.save d

/-- Writes a snapshot to a path; yields the number of metrics in it. -/
def dump (s : Store) (path : String) (d : Disk) : Result Nat × Disk :=
  match s.metrics with
  | .error f => (.error f, d)
  | .ok ms =>
    match Snapshot.dump path ms d with
    | (none, d) => (.ok ms.length, d)
    | (some f, d) => (.error f, d)

/-- Writes the metrics of a snapshot in place of what is held; yields their number. -/
def restore (s : Store) (path : String) (d : Disk) : Result (Nat × Store) := do
  let ms ← Snapshot.load path d
  let s ← s.replaceAll ms
  .ok (ms.length, s)

end Store

end Telemetry
