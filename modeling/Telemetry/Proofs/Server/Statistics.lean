/-
What a server has counted.

Every request to a route and every frame is counted once, by the status that it is answered with;
metrics are counted by kind once the store has taken them; and a request that is refused is counted
by cause.  Each of these is done in another place, so it is said of one input first what its answer
adds to the counters (`Server.tallied_take`).  What a run adds follows: the counters are numbers of
inputs and of metrics, as far as they can show them (`Server.statistics_account`).

A counter is found by its labels, which are texts.  That requests to two routes, calls of two
methods and refusals for two causes are not counted together is up to these texts: the name of a
route is a path to it, so that headings are found by their names (`Server.Heading.ofName_name`),
and no two kinds or codes have one name.

What is applied of an order is what the store changes by (`Store.heed_applied`), so counters that
go by what was applied follow the store.  A request that no handler sees, though it gets past the
guard, adds nothing but its answer, and neither does a call that is refused.  From one input to a
run the way is always the same: what grows by one with some of the inputs grows by how many these
are (`Server.takeAll_counts`).
-/
import Telemetry.Proofs.Counters
import Telemetry.Proofs.Server.Contract
import Telemetry.Proofs.Store.InOrder
import Telemetry.Proofs.Text.Numeral

namespace Telemetry

/-! ## Labels -/

theorem Fault.Code.name_inj {c d : Fault.Code} : c.name = d.name ↔ c = d := by
  cases c <;> cases d <;> decide

namespace Statistics

theorem sort_requestLabels (route : String) (status : Nat) :
    Label.sort (requestLabels route status) = requestLabels route status :=
  Label.sort_pair (by decide)

theorem requestLabels_inj {route name : String} {status n : Nat} :
    Label.sort (requestLabels route status) = Label.sort (requestLabels name n) ↔
      (route, status) = (name, n) := by
  rw [sort_requestLabels, sort_requestLabels]
  simp [requestLabels, Integer.ofNat_inj]

theorem updateLabels_inj {k kind : Kind} :
    Label.sort (updateLabels k) = Label.sort (updateLabels kind) ↔ k = kind := by
  cases k <;> cases kind <;> simp [updateLabels, Kind.name]

theorem rejectionLabels_inj {c code : Fault.Code} :
    Label.sort (rejectionLabels c) = Label.sort (rejectionLabels code) ↔ c = code := by
  simp [rejectionLabels, Fault.Code.name_inj]

end Statistics

/-! ## Headings -/

namespace Server

/-- What requests and frames are counted under: a route, whatever its segments are; calls of a
method, or of none that is known; and octets that are no frame. -/
inductive Heading where
  | home | ping | update | updateAt | updates | value | valueAt
  | call (method : Option Method)
  | unreadable
deriving DecidableEq

namespace Heading

def ofRoute : Route → Heading
  | .home => home
  | .ping => ping
  | .update => update
  | .updateAt _ _ _ => updateAt
  | .updates => updates
  | .value => value
  | .valueAt _ _ => valueAt

/-- The name that is counted under a heading. -/
def name : Heading → String
  | home => Route.home.name
  | ping => Route.ping.name
  | update => Route.update.name
  | updateAt => (Route.updateAt ":kind" ":id" ":value").name
  | updates => Route.updates.name
  | value => Route.value.name
  | valueAt => (Route.valueAt ":kind" ":id").name
  | call method => "rpc:" ++ (method.map Method.name).getD "unknown"
  | unreadable => unreadableName

theorem name_ofRoute (route : Route) : (ofRoute route).name = route.name := by
  cases route <;> rfl

/-- The heading of a name.  That of a route is a path to it. -/
def ofName (name : String) : Heading :=
  match Route.ofPath? name with
  | some route => ofRoute route
  | none =>
    if name = unreadableName then unreadable
    else call (Method.all.find? fun method => "rpc:" ++ method.name = name)

theorem ofName_name (heading : Heading) : ofName heading.name = heading := by
  cases heading with
  | call method =>
      cases method with
      | none => decide
      | some method => cases method; decide
  | _ => decide

theorem name_inj {heading other : Heading} : heading.name = other.name ↔ heading = other :=
  ⟨fun h => by rw [← ofName_name heading, h, ofName_name], congrArg name⟩

end Heading

end Server

/-! ## What becomes of an input -/

namespace Store

/-- What is applied of an order that a store may refuse, if there is one. -/
def applied (s : Store) : Option Order → List Metric
  | some order =>
    match s.obey order with
    | .ok _ => order.written
    | .error _ => []
  | none => []

/-- Why what is asked of a store is refused, by the store or before. -/
def refusal? (s : Store) (asked : Result Order) : Option Fault :=
  match asked.bind s.obey with
  | .ok _ => none
  | .error f => some f

theorem heed_applied (s : Store) (order : Option Order) :
    s.applied order = [] ∧ s.heed order = s ∨
      s.updateAll (s.applied order) = .ok (s.heed order) := by
  cases order with
  | none => exact .inl ⟨rfl, rfl⟩
  | some order =>
      simp only [applied, heed]
      cases hobey : s.obey order with
      | error f => exact .inl ⟨rfl, rfl⟩
      | ok t =>
          cases order with
          | page =>
              cases hobey
              exact .inl ⟨rfl, rfl⟩
          | probe =>
              simp only [obey] at hobey
              split at hobey
              · cases hobey
                exact .inl ⟨rfl, rfl⟩
              · cases hobey
          | lookup query =>
              obtain ⟨_, -, rfl⟩ := Result.map_eq_ok_iff.mp hobey
              exact .inl ⟨rfl, rfl⟩
          | update m => exact .inr ((s.update_eq_updateAll m).symm.trans hobey)
          | updateAll batch => exact .inr hobey

theorem complete_of_updateAll {s t : Store} {batch : List Metric}
    (h : s.updateAll batch = .ok t) : ∀ m ∈ batch, m.Complete := by
  refine Holdings.exists_readings_iff_complete.mp ?_
  cases s with
  | memory k =>
      obtain ⟨_, h, -⟩ := Result.map_eq_ok_iff.mp h
      obtain ⟨rs, hrs, -⟩ := Result.bind_eq_ok_iff.mp h
      exact ⟨rs, hrs⟩
  | database db =>
      obtain ⟨_, h, -⟩ := Result.map_eq_ok_iff.mp h
      obtain ⟨rs, hrs, -⟩ := Result.bind_eq_ok_iff.mp h
      exact ⟨rs, hrs⟩

end Store

namespace Server

/-- What a request to a route asks of the store; nothing if it gets past the guard and no handler
sees it. -/
def asked? (s : Server) (r : Http.Request) : Option (Route × Result Order) :=
  (Route.ofPath? r.path).bind fun route =>
    match s.checkOrigin r with
    | .error f => some (route, .error f)
    | .ok () =>
      if route.takes r.method then route.plain?.map fun plain => (route, s.order r plain) else none

theorem asked?_eq_some_iff {s : Server} {r : Http.Request} {route : Route} {a : Result Order} :
    s.asked? r = some (route, a) ↔ s.Handled r route a := by
  constructor
  · intro h
    obtain ⟨found, hfound, h⟩ := Option.bind_eq_some_iff.mp h
    split at h
    · rename_i f horigin
      cases h
      exact .turnedAway hfound horigin
    · rename_i horigin
      split at h
      · rename_i htakes
        obtain ⟨plain, hplain, h⟩ := Option.map_eq_some_iff.mp h
        cases h
        exact .reached hfound horigin htakes hplain
      · cases h
  · intro h
    cases h with
    | turnedAway hroute horigin => simp only [asked?, hroute, Option.bind_some, horigin]
    | reached hroute horigin htakes hplain =>
        simp only [asked?, hroute, Option.bind_some, horigin, htakes, if_true, hplain,
          Option.map_some]

/-- Why a request is refused that is handled or turned away. -/
def refusal? (s : Server) : Input → Option Fault
  | .request r => (s.asked? r).bind fun a => s.store.refusal? a.2
  | .frame _ _ => none

/-- The metrics that are applied to the store for what came in. -/
def applied (s : Server) (input : Input) : List Metric := s.store.applied (s.orderOf input)

/-- What came in is counted under this, with the status that it is answered with. -/
def countedAs? (s : Server) : Input → Option (Heading × Nat)
  | .request r =>
    (Route.ofPath? r.path).map fun route => (Heading.ofRoute route, (s.serve r).1.status)
  | .frame peer raw =>
    match Frame.decode raw with
    | .ok f => some (.call (Method.ofNumber? f.method), statusOf (s.call peer f))
    | .error fault => some (.unreadable, fault.status)

end Server

/-! ## What an input adds -/

/-- What counters have grown by: an answer under a heading and a status, metrics that were applied,
and a refusal. -/
structure Statistics.Tallied (s t : Statistics) (counted : Option (Server.Heading × Nat))
    (applied : List Metric) (refused : Option Fault) : Prop where
  requests : t.requests =
    counted.elim s.requests fun c => s.requests.inc (requestLabels c.1.name c.2)
  updates : ∀ kind, t.updates.get (updateLabels kind) =
    s.updates.get (updateLabels kind) + UInt64.ofNat (applied.countP fun m => m.kind = kind)
  rejections : t.rejections =
    refused.elim s.rejections fun f => s.rejections.inc (rejectionLabels f.code)

namespace Statistics

variable {s t : Statistics}

theorem tallied_refl (s : Statistics) : s.Tallied s none [] none :=
  ⟨rfl, fun _ => (UInt64.add_zero _).symm, rfl⟩

theorem tallied_rejected (s : Statistics) (f : Fault) :
    s.Tallied (s.rejected f.code) none [] (some f) :=
  ⟨rfl, fun _ => (UInt64.add_zero _).symm, rfl⟩

theorem get_updated (s : Statistics) (k kind : Kind) (n : Nat) :
    (s.updated k n).updates.get (updateLabels kind) =
      s.updates.get (updateLabels kind) + UInt64.ofNat (if k = kind then n else 0) := by
  simp only [updated, Counters.get_add, updateLabels_inj]
  split
  · rfl
  · exact (UInt64.add_zero _).symm

theorem tallied_updated (s : Statistics) (m : Metric) :
    s.Tallied (s.updated m.kind 1) none [m] none := by
  refine ⟨rfl, fun kind => ?_, rfl⟩
  rw [get_updated, List.countP_singleton]
  simp only [decide_eq_true_eq]

/-- Of complete metrics those with a delta are the counters, and the others are the gauges. -/
theorem counterCount_eq {batch : List Metric} (h : ∀ m ∈ batch, m.Complete) :
    Server.counterCount batch = batch.countP (fun m => m.kind = .counter) ∧
      batch.length - Server.counterCount batch = batch.countP fun m => m.kind = .gauge := by
  have hdelta : Server.counterCount batch = batch.countP fun m => m.kind = .counter := by
    rw [Server.counterCount, ← List.countP_eq_length_filter]
    refine List.countP_congr fun m hm => ?_
    have hcomplete := h m hm
    rw [Metric.Complete] at hcomplete
    cases hkind : m.kind with
    | counter =>
        simp only [hkind] at hcomplete
        simp [hcomplete.1]
    | gauge =>
        simp only [hkind] at hcomplete
        simp [hcomplete.1]
  refine ⟨hdelta, ?_⟩
  have hother : batch.countP (fun m => m.kind = .gauge) =
      batch.countP fun m => ¬m.kind = .counter := by
    refine List.countP_congr fun m _ => ?_
    cases m.kind <;> decide
  have hlength := List.length_eq_countP_add_countP (fun m : Metric => decide (m.kind = .counter))
    (l := batch)
  simp only [decide_eq_true_eq] at hlength
  omega

theorem tallied_batch (s : Statistics) {batch : List Metric} (h : ∀ m ∈ batch, m.Complete) :
    s.Tallied ((s.updated .counter (Server.counterCount batch)).updated .gauge
      (batch.length - Server.counterCount batch)) none batch none := by
  obtain ⟨hcounters, hgauges⟩ := counterCount_eq h
  refine ⟨rfl, fun kind => ?_, rfl⟩
  rw [get_updated, get_updated, hgauges, hcounters]
  cases kind with
  | counter => exact UInt64.add_zero _
  | gauge =>
      change s.updates.get _ + 0 + _ = _
      rw [UInt64.add_zero]
      rfl

theorem Tallied.observe {applied : List Metric} {refused : Option Fault}
    (h : s.Tallied t none applied refused) (heading : Server.Heading) (status : Nat) :
    s.Tallied (t.observe heading.name status) (some (heading, status)) applied refused := by
  refine ⟨?_, h.updates, h.rejections⟩
  rw [Statistics.observe, h.requests]
  rfl

namespace Tallied

variable {counted : Option (Server.Heading × Nat)} {applied : List Metric} {refused : Option Fault}

theorem get_requests (h : s.Tallied t counted applied refused) (heading : Server.Heading)
    (status : Nat) :
    t.requests.get (requestLabels heading.name status) =
      s.requests.get (requestLabels heading.name status) +
        UInt64.ofNat (if counted = some (heading, status) then 1 else 0) := by
  rw [h.requests]
  cases counted with
  | none => exact (UInt64.add_zero _).symm
  | some c =>
      simp only [Option.elim_some, Counters.get_inc, requestLabels_inj,
        Server.Heading.name_inj, Option.some.injEq, Prod.ext_iff]
      split
      · rfl
      · exact (UInt64.add_zero _).symm

theorem total_requests (h : s.Tallied t counted applied refused) :
    t.requests.total = s.requests.total + UInt64.ofNat (if counted.isSome then 1 else 0) := by
  rw [h.requests]
  cases counted with
  | none => exact (UInt64.add_zero _).symm
  | some c => exact Counters.total_inc _ _

theorem get_rejections (h : s.Tallied t counted applied refused) (code : Fault.Code) :
    t.rejections.get (rejectionLabels code) = s.rejections.get (rejectionLabels code) +
      UInt64.ofNat (if refused.map Fault.code = some code then 1 else 0) := by
  rw [h.rejections]
  cases refused with
  | none => exact (UInt64.add_zero _).symm
  | some f =>
      simp only [Option.elim_some, Counters.get_inc, rejectionLabels_inj, Option.map_some,
        Option.some.injEq]
      split
      · rfl
      · exact (UInt64.add_zero _).symm

end Tallied

end Statistics

namespace Server

/-- An order that is carried out is counted by what is applied, and one that is refused by its
cause. -/
theorem tallied_fulfil (s : Server) (w : Wish) (order : Order) :
    s.stats.Tallied (s.fulfil w order).2.stats none (s.store.applied (some order))
      (s.store.refusal? (.ok order)) := by
  cases order with
  | page => exact s.stats.tallied_refl
  | probe =>
      simp only [fulfil, ping, Store.applied, Store.refusal?, Result.bind_ok, Store.obey]
      cases s.store.available with
      | error f => exact s.stats.tallied_rejected _
      | ok _ => exact s.stats.tallied_refl
  | lookup query =>
      simp only [fulfil, Server.lookup, Store.applied, Store.refusal?, Result.bind_ok, Store.obey]
      cases s.store.lookup query with
      | error f => exact s.stats.tallied_rejected f
      | ok m => exact s.stats.tallied_refl
  | update m =>
      simp only [fulfil, apply, Store.applied, Store.refusal?, Result.bind_ok, Store.obey]
      cases s.store.update m with
      | error f => exact s.stats.tallied_rejected f
      | ok t => exact s.stats.tallied_updated m
  | updateAll batch =>
      simp only [fulfil, applyAll, Store.applied, Store.refusal?, Result.bind_ok, Store.obey]
      cases htaken : s.store.updateAll batch with
      | error f => exact s.stats.tallied_rejected f
      | ok t => exact s.stats.tallied_batch (Store.complete_of_updateAll htaken)

theorem tallied_settle (s : Server) (w : Wish) (asked : Result Order) :
    s.stats.Tallied (s.settle w asked).2.stats none (s.store.applied asked.toOption)
      (s.store.refusal? asked) := by
  cases asked with
  | error f => exact s.stats.tallied_rejected f
  | ok order => exact s.tallied_fulfil w order

theorem tallied_respond (s : Server) {r : Http.Request} {route : Route}
    (hroute : Route.ofPath? r.path = some route) :
    s.stats.Tallied (s.respond r route).2.stats none (s.applied (.request r))
      (s.refusal? (.request r)) := by
  simp only [applied, orderOf, refusal?, asked?, hroute, Option.bind_some, respond_eq, routeOrder]
  cases s.checkOrigin r with
  | error f => exact s.stats.tallied_rejected f
  | ok _ =>
      simp only [admitted]
      split
      · rw [handle_eq]
        cases route.plain? with
        | none => exact s.stats.tallied_refl
        | some plain => exact s.tallied_settle _ (s.order r plain)
      · exact s.stats.tallied_refl

theorem tallied_answerFrame (s : Server) (peer : IpAddr) (f : Frame) :
    s.stats.Tallied (s.answerFrame peer f).2.stats
      (some (.call (Method.ofNumber? f.method), statusOf (s.call peer f)))
      (s.store.applied ((s.frameMetric peer f).map Order.update).toOption) none := by
  rw [answerFrame, call_eq]
  cases s.frameMetric peer f with
  | error fault => exact s.stats.tallied_refl.observe (.call (Method.ofNumber? f.method)) _
  | ok m =>
      simp only [Result.bind_ok, Result.map_ok, Except.toOption, Store.applied, Store.obey, apply]
      cases s.store.update m with
      | error fault => exact s.stats.tallied_refl.observe (.call (Method.ofNumber? f.method)) _
      | ok t => exact (s.stats.tallied_updated m).observe (.call (Method.ofNumber? f.method)) _

/-- What the answer to an input adds to the counters. -/
theorem tallied_take (s : Server) (input : Input) :
    s.stats.Tallied (s.take input).stats (s.countedAs? input) (s.applied input)
      (s.refusal? input) := by
  cases input with
  | request r =>
      cases hroute : Route.ofPath? r.path with
      | none =>
          simp only [take, serve, countedAs?, applied, orderOf, refusal?, asked?, hroute]
          exact s.stats.tallied_refl
      | some route =>
          have hrespond :=
            (s.tallied_respond hroute).observe (.ofRoute route) (s.serve r).1.status
          rw [Heading.name_ofRoute] at hrespond
          simp only [take, serve, countedAs?, hroute] at hrespond ⊢
          exact hrespond
  | frame peer raw =>
      simp only [take, answer, countedAs?, applied, orderOf, refusal?]
      cases Frame.decode raw with
      | error fault => exact s.stats.tallied_refl.observe .unreadable _
      | ok f => exact s.tallied_answerFrame peer f

theorem store_take_applied (s : Server) (input : Input) :
    s.applied input = [] ∧ (s.take input).store = s.store ∨
      s.store.updateAll (s.applied input) = .ok (s.take input).store := by
  rw [store_take]
  exact s.store.heed_applied (s.orderOf input)

theorem settle_of_refusal? {s : Server} {asked : Result Order} {f : Fault}
    (h : s.store.refusal? asked = some f) (w : Wish) : s.settle w asked = s.refuse w f := by
  rw [Store.refusal?] at h
  split at h
  · cases h
  · rename_i fault hfault
    cases h
    rcases Result.bind_eq_error_iff.mp hfault with rfl | ⟨order, rfl, hobey⟩
    · rfl
    · cases order with
      | page => cases hobey
      | probe =>
          simp only [Store.obey] at hobey
          split at hobey
          · cases hobey
          · rename_i hdown
            cases hobey
            simp only [settle, fulfil, ping, hdown]
            rfl
      | lookup query =>
          have hlookup := Result.map_eq_error_iff.mp hobey
          simp only [settle, fulfil, Server.lookup, hlookup]
          rfl
      | update m =>
          have hupdate : s.store.update m = .error f := hobey
          simp only [settle, fulfil, apply, hupdate]
          rfl
      | updateAll batch =>
          have hupdate : s.store.updateAll batch = .error f := hobey
          simp only [settle, fulfil, applyAll, hupdate]
          rfl

namespace Handled

variable {s : Server} {r : Http.Request} {route : Route} {asked : Result Order}

theorem refusal?_eq (h : s.Handled r route asked) :
    s.refusal? (.request r) = s.store.refusal? asked := by
  rw [refusal?, asked?_eq_some_iff.mpr h, Option.bind_some]

theorem response_of_refusal? (h : s.Handled r route asked) {f : Fault}
    (hf : s.refusal? (.request r) = some f) :
    (s.serve r).1 = route.dress r.method (s.complaint (.ofRequest r) f) := by
  rw [h.refusal?_eq] at hf
  rw [h.response, settle_of_refusal? hf]
  rfl

theorem status_of_refusal? (h : s.Handled r route asked) (hnone : s.refusal? (.request r) = none) :
    (s.serve r).1.status = 200 := by
  rw [h.refusal?_eq, Store.refusal?] at hnone
  rw [h.status]
  split at hnone
  · rename_i t ht
    rw [ht]
    rfl
  · cases hnone

end Handled

/-! ## What a run adds -/

/-- Whether what comes in is counted: a request to no route is not. -/
def Input.isCounted : Input → Bool
  | .request r => (Route.ofPath? r.path).isSome
  | .frame _ _ => true

theorem isSome_countedAs? (s : Server) (input : Input) :
    (s.countedAs? input).isSome = input.isCounted := by
  cases input with
  | request r => exact Option.isSome_map
  | frame peer raw =>
      rw [countedAs?]
      cases Frame.decode raw <;> rfl

/-- What comes in, and the servers that it comes to. -/
def history (s : Server) : List Input → List (Server × Input)
  | [] => []
  | input :: rest => (s, input) :: (s.take input).history rest

theorem map_snd_history (s : Server) (inputs : List Input) :
    (s.history inputs).map (·.2) = inputs := by
  induction inputs generalizing s with
  | nil => rfl
  | cons input rest ih => rw [history, List.map_cons, ih]

theorem takeAll_adds (value : Server → UInt64) (number : List (Server × Input) → Nat)
    (hnil : number [] = 0)
    (hcons : ∀ s input rest, value (s.take input) + UInt64.ofNat (number rest) =
      value s + UInt64.ofNat (number ((s, input) :: rest))) (s : Server) (inputs : List Input) :
    value (s.takeAll inputs) = value s + UInt64.ofNat (number (s.history inputs)) := by
  induction inputs generalizing s with
  | nil =>
      rw [history, hnil]
      exact (UInt64.add_zero _).symm
  | cons input rest ih =>
      rw [history, ← hcons]
      exact ih (s.take input)

theorem takeAll_counts (value : Server → UInt64) (counts : Server × Input → Prop)
    [DecidablePred counts]
    (hstep : ∀ s input, value (s.take input) =
      value s + UInt64.ofNat (if counts (s, input) then 1 else 0)) (s : Server)
    (inputs : List Input) :
    value (s.takeAll inputs) =
      value s + UInt64.ofNat ((s.history inputs).countP fun p => counts p) := by
  refine takeAll_adds value (List.countP fun p => counts p) List.countP_nil
    (fun s input rest => ?_) s inputs
  rw [hstep, List.countP_cons, UInt64.add_assoc, ← UInt64.ofNat_add, Nat.add_comm]
  simp only [decide_eq_true_eq]

theorem total_takeAll (s : Server) (inputs : List Input) :
    (s.takeAll inputs).stats.requests.total =
      s.stats.requests.total + UInt64.ofNat (inputs.countP Input.isCounted) := by
  have htotal := takeAll_counts (fun s => s.stats.requests.total)
    (fun p => (p.1.countedAs? p.2).isSome = true)
    (fun s input => (s.tallied_take input).total_requests) s inputs
  have hcount : (s.history inputs).countP (fun p => (p.1.countedAs? p.2).isSome = true) =
      inputs.countP Input.isCounted := by
    calc (s.history inputs).countP (fun p => (p.1.countedAs? p.2).isSome = true)
        = (s.history inputs).countP (Input.isCounted ∘ (·.2)) :=
          List.countP_congr fun p _ => by
            rw [isSome_countedAs?, decide_eq_true_eq]
            rfl
      _ = ((s.history inputs).map (·.2)).countP Input.isCounted := List.countP_map.symm
      _ = inputs.countP Input.isCounted := by rw [map_snd_history]
  rw [htotal, hcount]

def appliedIn (history : List (Server × Input)) : List Metric :=
  history.flatMap fun p => p.1.applied p.2

theorem appliedIn_cons (s : Server) (input : Input) (rest : List (Server × Input)) :
    appliedIn ((s, input) :: rest) = s.applied input ++ appliedIn rest := List.flatMap_cons

theorem updates_takeAll (s : Server) (inputs : List Input) (kind : Kind) :
    (s.takeAll inputs).stats.updates.get (Statistics.updateLabels kind) =
      s.stats.updates.get (Statistics.updateLabels kind) +
        UInt64.ofNat ((appliedIn (s.history inputs)).countP fun m => m.kind = kind) := by
  refine takeAll_adds (fun s => s.stats.updates.get (Statistics.updateLabels kind))
    (fun l => (appliedIn l).countP fun m : Metric => m.kind = kind) List.countP_nil
    (fun s input rest => ?_) s inputs
  rw [(s.tallied_take input).updates kind, appliedIn_cons, List.countP_append, UInt64.add_assoc,
    ← UInt64.ofNat_add]

/-- From fresh counters on, and as far as they can show it: all requests to a route and all frames
are counted, each under its heading and the status it is answered with; metrics are counted by kind
which the store has changed by; and by cause the requests are that were refused, and were answered
with this refusal.  Every other request that is handled was answered with a success. -/
theorem statistics_account (s : Server) (inputs : List Input) :
    let fresh : Server := { s with stats := .empty }
    let stats := (fresh.takeAll inputs).stats
    let history := fresh.history inputs
    stats.requests.total = UInt64.ofNat (inputs.countP Input.isCounted) ∧
      (∀ heading status, stats.requests.get (Statistics.requestLabels heading.name status) =
        UInt64.ofNat (history.countP fun p => p.1.countedAs? p.2 = some (heading, status))) ∧
      (∀ kind, stats.updates.get (Statistics.updateLabels kind) =
        UInt64.ofNat ((appliedIn history).countP fun m => m.kind = kind)) ∧
      (∀ code, stats.rejections.get (Statistics.rejectionLabels code) =
        UInt64.ofNat (history.countP fun p => (p.1.refusal? p.2).map Fault.code = some code)) ∧
      (∀ t input, (t, input) ∈ history →
        t.applied input = [] ∧ (t.take input).store = t.store ∨
          t.store.updateAll (t.applied input) = .ok (t.take input).store) ∧
      ∀ t r route asked, (t, .request r) ∈ history → t.Handled r route asked →
        Input.isCounted (.request r) = true ∧
          (∀ f, t.refusal? (.request r) = some f →
            (t.serve r).1 = route.dress r.method (t.complaint (.ofRequest r) f)) ∧
          (t.refusal? (.request r) = none → (t.serve r).1.status = 200) := by
  intro fresh stats history
  refine ⟨?_, fun heading status => ?_, fun kind => ?_, fun code => ?_,
    fun t input _ => t.store_take_applied input, fun t r route asked _ hhandled =>
      ⟨?_, fun f => hhandled.response_of_refusal?, hhandled.status_of_refusal?⟩⟩
  · rw [total_takeAll]
    exact UInt64.zero_add _
  · rw [takeAll_counts
      (fun s => s.stats.requests.get (Statistics.requestLabels heading.name status))
      (fun p => p.1.countedAs? p.2 = some (heading, status))
      (fun s input => (s.tallied_take input).get_requests heading status) fresh inputs]
    exact UInt64.zero_add _
  · rw [updates_takeAll]
    exact UInt64.zero_add _
  · rw [takeAll_counts (fun s => s.stats.rejections.get (Statistics.rejectionLabels code))
      (fun p => (p.1.refusal? p.2).map Fault.code = some code)
      (fun s input => (s.tallied_take input).get_rejections code) fresh inputs]
    exact UInt64.zero_add _
  · rw [Input.isCounted, hhandled.ofPath]
    rfl

end Server

end Telemetry
