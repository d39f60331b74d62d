/-
Polling.

At every tick each source is asked for metrics.  A source that fails is passed
over; values that are not finite are left out, because no document can hold
them.  What remains is one batch for the store.
-/
import Telemetry.Loop
import Telemetry.Store.Basic

namespace Telemetry.Agent.Poller

/-- What one tick gathers from each source. -/
abbrev Samples := List (Result (List Metric))

def given : Result (List Metric) → List Metric
  | .ok ms => ms
  | .error _ => []

/-- Whether a metric carries no value or a finite one. -/
def isSound (m : Metric) : Bool := m.value.all Binary64.isFinite

/-- The batch of a tick. -/
def batch (samples : Samples) : List Metric := (samples.flatMap given).filter isSound

/-- Puts the batch of a tick into a store; yields its size. -/
def poll (samples : Samples) (s : Store) : Result (Nat × Store) :=
  (s.updateAll (batch samples)).map fun t => ((batch samples).length, t)

/-- The store after a tick; a refused batch leaves it as it was. -/
def tick (samples : Samples) (s : Store) : Store :=
  match poll samples s with
  | .ok (_, t) => t
  | .error _ => s

/-- A tick of the loop: the samples that come next, if any come. -/
def work (state : List Samples × Store) : List Samples × Store :=
  match state with
  | ([], s) => ([], tick [] s)
  | (samples :: rest, s) => (rest, tick samples s)

def run (state : List Samples × Store) (events : List (Loop.Event (List Samples × Store))) :
    Loop.Phase × List Samples × Store :=
  Loop.run work id (.running, state) events

end Telemetry.Agent.Poller
