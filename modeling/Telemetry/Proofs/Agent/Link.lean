/-
An agent and its server.

A tick of the reporter takes many steps: counters are read, then gauges, metrics are
sent, the server takes some of them, the reporter sees some of those acknowledged,
and each of these is settled.  Polls come in between, and what a delivery left behind
may reach the server when the delivery is long over.  A run is any sequence of such
events; an event that does not fit the moment does nothing, so every list of events
is a run.  Where nothing comes in between, the steps of a tick make up the
reporter's own report (`Link.run_tick_eq_report`).

A run writes a ledger: the batches that polls put in, and what the server took without
the reporter seeing it.
-/
import Telemetry.Agent.Poller
import Telemetry.Proofs.Agent.Settlement

namespace Telemetry.Agent

/-- How far a tick of the reporter is. -/
inductive Tick where
  /-- No tick is under way. -/
  | idle
  /-- The counters were read, the gauges not yet. -/
  | reading (first : Holdings)
  /-- Metrics were sent, and the server took those at some places. -/
  | sending (sent : List Metric) (taken : List Nat)
  /-- Acknowledged metrics are still to be settled. -/
  | settling (left : List Metric)

namespace Tick

/-- The delivery of a listing; there is none if nothing is held. -/
def ofListing : List Metric → Tick
  | [] => idle
  | m :: rest => sending (m :: rest) []

/-- The tick with metrics that are left to settle. -/
def ofLeft : List Metric → Tick
  | [] => idle
  | m :: rest => settling (m :: rest)

end Tick

/-- An agent, a server, and what goes on between them. -/
structure Link where
  agent : Store
  server : Store
  tick : Tick
  /-- For each delivery that is over, what the server did not take of it. -/
  adrift : List (List Metric)

/-- What a run of events adds to the ledger. -/
inductive Entry where
  /-- A batch that the agent took from a poll. -/
  | polled (batch : List Metric)
  /-- Metrics that the server took and the reporter did not see acknowledged. -/
  | unseen (taken : List Metric)

namespace Link

/-- What happens to an agent and its server. -/
inductive Event where
  | poll (samples : Poller.Samples)
  | readCounters
  | readGauges
  /-- The server is given the metrics at places: one of them by a call, all by a
  request. -/
  | give (places : List Nat)
  /-- The delivery ends with the metrics at places acknowledged; none are if it
  failed. -/
  | conclude (places : List Nat)
  | settle
  /-- Some metrics of a delivery that is over reach the server. -/
  | arrive (delivery : Nat) (late : List Metric)

open Reporter (acknowledged)

/-- The server takes metrics of the delivery, or refuses them as a whole. -/
def give (l : Link) (sent : List Metric) (taken places : List Nat) : Link :=
  if places.Nodup ∧ ∀ i ∈ places, i < sent.length ∧ i ∉ taken then
    match l.server.updateAll (acknowledged sent places) with
    | .ok s => { l with server := s, tick := .sending sent (places ++ taken) }
    | .error _ => l
  else l

/-- The reporter learns what was acknowledged; only what was taken can be. -/
def conclude (l : Link) (sent : List Metric) (taken places : List Nat) : Link × List Entry :=
  if places.Nodup ∧ ∀ i ∈ places, i ∈ taken then
    ({ l with
        tick := .ofLeft (acknowledged sent places)
        adrift := l.adrift ++ [acknowledged sent ((List.range sent.length).filter (· ∉ taken))] },
      [.unseen (acknowledged sent (taken.filter (· ∉ places)))])
  else (l, [])

/-- Metrics of a delivery that is over arrive; the server takes or refuses them. -/
def arrive (l : Link) (delivery : Nat) (late : List Metric) : Link × List Entry :=
  match l.adrift[delivery]? with
  | some ms =>
    if late.isSublist ms then
      match l.server.updateAll late with
      | .ok s => ({ l with server := s, adrift := l.adrift.eraseIdx delivery }, [.unseen late])
      | .error _ => (l, [])
    else (l, [])
  | none => (l, [])

/-- One event, and what it adds to the ledger. -/
def step (l : Link) : Event → Link × List Entry
  | .poll samples =>
    match Poller.poll samples l.agent with
    | .ok (_, s) => ({ l with agent := s }, [.polled (Poller.batch samples)])
    | .error _ => (l, [])
  | .readCounters =>
    match l.tick with
    | .idle => ({ l with tick := .reading l.agent.held }, [])
    | _ => (l, [])
  | .readGauges =>
    match l.tick with
    | .reading first => ({ l with tick := .ofListing (Holdings.listing first l.agent.held) }, [])
    | _ => (l, [])
  | .give places =>
    match l.tick with
    | .sending sent taken => (l.give sent taken places, [])
    | _ => (l, [])
  | .conclude places =>
    match l.tick with
    | .sending sent taken => l.conclude sent taken places
    | _ => (l, [])
  | .settle =>
    match l.tick with
    | .settling (m :: left) =>
      ({ l with agent := Reporter.settle l.agent m, tick := .ofLeft left }, [])
    | _ => (l, [])
  | .arrive delivery late => l.arrive delivery late

def run (l : Link) : List Event → Link × List Entry
  | [] => (l, [])
  | e :: rest =>
    let (l, new) := l.step e
    let (l, later) := l.run rest
    (l, new ++ later)

theorem run_cons (l : Link) (e : Event) (es : List Event) :
    (l.run (e :: es)).1 = ((l.step e).1.run es).1 := rfl

theorem run_append (l : Link) (es fs : List Event) :
    (l.run (es ++ fs)).1 = ((l.run es).1.run fs).1 := by
  induction es generalizing l with
  | nil => rfl
  | cons e es ih => rw [List.cons_append, run_cons, run_cons, ih]

/-! ## A tick without interruption -/

theorem run_settle (l : Link) (left : List Metric) :
    (({ l with tick := .ofLeft left } : Link).run (List.replicate left.length .settle)).1 =
      { l with agent := left.foldl Reporter.settle l.agent, tick := .idle } := by
  induction left generalizing l with
  | nil => rfl
  | cons m left ih =>
      rw [List.length_cons, List.replicate_succ, run]
      exact ih { l with agent := Reporter.settle l.agent m }

/-- The events of a tick in which nothing comes in between. -/
def tickEvents (gives : List (List Nat)) (places : List Nat) (settled : Nat) : List Event :=
  .readCounters :: .readGauges ::
    (gives.map .give ++ .conclude places :: List.replicate settled .settle)

/-- A tick without interruption is a report: the delivery is what the server takes,
and settling is the reporter's. -/
theorem run_tick_eq_report {l : Link} {h : Holdings} {server : Store} {sent : List Metric}
    {taken places : List Nat} (gives : List (List Nat)) {delivery : Reporter.Delivery Store}
    (hidle : l.tick = .idle) (hagent : l.agent = .memory h)
    (hsent : h.metrics = sent) (hne : sent ≠ [])
    (hgives : (({ l with tick := .sending sent [] } : Link).run (gives.map .give)).1 =
      { l with server := server, tick := .sending sent taken })
    (hplaces : places.Nodup ∧ ∀ i ∈ places, i ∈ taken)
    (hdelivery : delivery sent (l.agent, l.server) = (.ok places, l.agent, server)) :
    let l' := (l.run (tickEvents gives places (acknowledged sent places).length)).1
    (l'.agent, l'.server) = (Reporter.report delivery (l.agent, l.server)).2 ∧ l'.tick = .idle := by
  obtain ⟨m, rest, rfl⟩ := List.exists_cons_of_ne_nil hne
  have hreport : (Reporter.report delivery (l.agent, l.server)).2 =
      (Reporter.settleAll l.agent (m :: rest) places, server) := by
    have hmetrics : l.agent.metrics = .ok (m :: rest) := by rw [hagent, Store.metrics, hsent]
    simp only [Reporter.report, hmetrics, Reporter.deliver, hdelivery]
  have hread : (({ l with tick := .reading l.agent.held } : Link).step .readGauges).1 =
      { l with tick := .sending (m :: rest) [] } := by
    have hlisting : Holdings.listing l.agent.held l.agent.held = m :: rest := by
      rw [hagent]
      exact hsent
    simp only [step, hlisting, Tick.ofListing]
  have hcounters : (l.step .readCounters).1 = { l with tick := .reading l.agent.held } := by
    simp only [step, hidle]
  have hconcluded : (({ l with server := server, tick := .sending (m :: rest) taken } :
        Link).step (.conclude places)).1 =
      { l with
        server := server
        tick := .ofLeft (acknowledged (m :: rest) places)
        adrift := l.adrift ++
          [acknowledged (m :: rest) ((List.range (m :: rest).length).filter (· ∉ taken))] } := by
    simp only [step, conclude, if_pos hplaces]
  rw [hreport, tickEvents, run_cons, hcounters, run_cons, hread, run_append, hgives, run_cons,
    hconcluded]
  have hsettled := run_settle
    { l with
      server := server
      adrift := l.adrift ++
        [acknowledged (m :: rest) ((List.range (m :: rest).length).filter (· ∉ taken))] }
    (acknowledged (m :: rest) places)
  rw [hsettled]
  exact ⟨rfl, rfl⟩

end Link

end Telemetry.Agent
