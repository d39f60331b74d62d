/-
Reporting.

At every tick what the store holds is handed to a delivery.  Of every counter
that was acknowledged, the amount that was sent is taken off again; what came in
while the delivery was under way stays.  Gauges stay as they are, and after a
delivery that failed so does everything else.

A delivery works on a world of its own, and the store may change meanwhile.
-/
import Telemetry.Loop
import Telemetry.Store.Basic

namespace Telemetry.Agent.Reporter

/-- Sends metrics; yields the places of those that were acknowledged. -/
abbrev Delivery (σ : Type) := List Metric → Store × σ → Result (List Nat) × Store × σ

/-- Takes the amount of a counter off what is held.  The least amount has no
opposite, so the counter is set to zero instead. -/
def takeOff (s : Store) (id : String) (sent : Int64) : Result Store :=
  if sent = Int64.minValue then s.reset id else s.update (.counter id (-sent))

/-- The store once a metric that was sent is acknowledged. -/
def settle (s : Store) (m : Metric) : Store :=
  match m.kind, m.delta with
  | .counter, some sent =>
    if sent = 0 then s
    else
      match takeOff s m.id sent with
      | .ok t => t
      | .error _ => s
  | _, _ => s

def acknowledged (sent : List Metric) (places : List Nat) : List Metric :=
  let sent := sent.toArray
  places.filterMap fun i => sent[i]?

/-- The store once the metrics at places are acknowledged. -/
def settleAll (s : Store) (sent : List Metric) (places : List Nat) : Store :=
  (acknowledged sent places).foldl settle s

/-- Delivers metrics and settles; yields how many places were acknowledged. -/
def deliver {σ : Type} (delivery : Delivery σ) (sent : List Metric) (state : Store × σ) :
    Result Nat × Store × σ :=
  match delivery sent state with
  | (.ok places, s, w) => (.ok places.length, settleAll s sent places, w)
  | (.error f, s, w) => (.error f, s, w)

/-- Reports what a store holds, unless it holds nothing. -/
def report {σ : Type} (delivery : Delivery σ) (state : Store × σ) : Result Nat × Store × σ :=
  match state.1.metrics with
  | .error f => (.error f, state)
  | .ok [] => (.ok 0, state)
  | .ok (m :: rest) => deliver delivery (m :: rest) state

def run {σ : Type} (delivery : Delivery σ) (state : Store × σ)
    (events : List (Loop.Event (Store × σ))) : Loop.Phase × Store × σ :=
  Loop.run (fun state => (report delivery state).2) id (.starting, state) events

end Telemetry.Agent.Reporter
