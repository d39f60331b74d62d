/-
What comes in, and what the store is asked to do for it.

A server does nearly everything with a request or a frame before it asks its store: it looks
where it comes from, opens the body, decodes it and verifies what it finds.  What comes of
this is an order to the store, or a refusal.  The handlers do both in one go; here they are
taken apart (`Server.handle_eq`, `Server.call_eq`), so that what is true of orders can be
said once for all routes and for calls.  Nothing but an order changes the store
(`Server.store_take`).

What an order comes from is told by cases: one metric is written for a body or for segments, a batch
for a body only (`Server.order_eq_updateAll`), and what a frame has applied is the metric in it.
Beside the store a server changes in nothing but what it has counted, so two servers that were made
from the same settings differ in these two things only (`Server.Configured`).
-/
import Telemetry.Proofs.Store.Histories
import Telemetry.Server.Calls

namespace Telemetry

/-- What a store is asked to do for a client. -/
inductive Order where
  /-- To list everything, for the status page. -/
  | page
  /-- To tell whether it works. -/
  | probe
  /-- To look a metric up. -/
  | lookup (query : Metric)
  /-- To apply a metric. -/
  | update (m : Metric)
  /-- To apply a batch as a whole. -/
  | updateAll (batch : List Metric)

/-- The metrics that are handed to a store with an order, to be written. -/
def Order.written : Order → List Metric
  | .update m => [m]
  | .updateAll batch => batch
  | .page | .probe | .lookup _ => []

namespace Store

/-- The complaint about a store that does not work. -/
def down (f : Fault) : Fault := .unavailable ("DB is down: " ++ Server.downReason f)

/-- The store after an order, unless it refuses.  The status page also shows a store that
cannot list anything. -/
def obey (s : Store) : Order → Result Store
  | .page => .ok s
  | .probe =>
    match s.available with
    | .ok () => .ok s
    | .error f => .error (down f)
  | .lookup query => (s.lookup query).map fun _ => s
  | .update m => s.update m
  | .updateAll batch => s.updateAll batch

/-- The store after an order that it may refuse, if there is one. -/
def heed (s : Store) : Option Order → Store
  | some order =>
    match s.obey order with
    | .ok t => t
    | .error _ => s
  | none => s

/-- Nothing changes a store but metrics that are ordered to be written. -/
theorem heed_cases (s : Store) (order : Option Order) :
    s.heed order = s ∨
      (∃ m, order = some (.update m) ∧ s.updateAll [m] = .ok (s.heed order)) ∨
      ∃ batch, order = some (.updateAll batch) ∧ s.updateAll batch = .ok (s.heed order) := by
  cases order with
  | none => exact .inl rfl
  | some order =>
      cases order with
      | page => exact .inl rfl
      | probe =>
          simp only [heed, obey]
          cases s.available <;> exact .inl rfl
      | lookup query =>
          simp only [heed, obey]
          cases s.lookup query <;> exact .inl rfl
      | update m =>
          simp only [heed, obey, update_eq_updateAll]
          cases hm : s.updateAll [m] with
          | error f => exact .inl rfl
          | ok t => exact .inr (.inl ⟨m, rfl, hm⟩)
      | updateAll batch =>
          simp only [heed, obey]
          cases hbatch : s.updateAll batch with
          | error f => exact .inl rfl
          | ok t => exact .inr (.inr ⟨batch, rfl, hbatch⟩)

end Store

namespace Server

/-! ## Orders -/

/-- A route with its segments decoded, if they are texts. -/
def Route.plain? : Route → Option Route
  | .updateAt kind id last => do
    let kind ← Http.Target.decode? kind
    let id ← Http.Target.decode? id
    let last ← Http.Target.decode? last
    some (.updateAt kind id last)
  | .valueAt kind id => do
    let kind ← Http.Target.decode? kind
    let id ← Http.Target.decode? id
    some (.valueAt kind id)
  | route => some route

/-- Whether a route has segments of its own. -/
def Route.hasSegments : Route → Bool
  | .updateAt _ _ _ | .valueAt _ _ => true
  | _ => false

theorem Route.eq_of_plain? {route plain : Route} (h : route.plain? = some plain)
    (hplain : plain.hasSegments = false) : route = plain := by
  cases route with
  | updateAt kind id last =>
      simp only [plain?, Option.bind_eq_bind, Option.bind_eq_some_iff, Option.some.injEq] at h
      obtain ⟨_, _, _, _, _, _, rfl⟩ := h
      cases hplain
  | valueAt kind id =>
      simp only [plain?, Option.bind_eq_bind, Option.bind_eq_some_iff, Option.some.injEq] at h
      obtain ⟨_, _, _, _, rfl⟩ := h
      cases hplain
  | home | ping | update | updates | value => exact Option.some.inj h

def verified (s : Server) (m : Metric) : Result Metric := (s.verify m).map fun _ => m

def allVerified (s : Server) (batch : List Metric) : Result (List Metric) :=
  (batch.forM s.verify).map fun _ => batch

theorem eq_of_verified {s : Server} {m n : Metric} (h : s.verified m = .ok n) : m = n := by
  obtain ⟨_, _, heq⟩ := Result.map_eq_ok_iff.mp h
  exact heq

theorem eq_of_allVerified {s : Server} {batch ms : List Metric} (h : s.allVerified batch = .ok ms) :
    batch = ms := by
  obtain ⟨_, _, heq⟩ := Result.map_eq_ok_iff.mp h
  exact heq

/-- The metric of an update by segments.  With a key there are none of these. -/
def pathMetric (s : Server) (kind id value : String) : Result Metric :=
  (Metric.ofPath kind id (some value)).bind fun m =>
    if m.isQuery then .error (.nullAttr ("value of " ++ kind ++ " " ++ id))
    else if s.signer.isSome then .error unsignedPath
    else s.verified m

theorem pathMetric_eq_ok {s : Server} {kind id value : String} {m : Metric}
    (h : s.pathMetric kind id value = .ok m) :
    Metric.ofPath kind id (some value) = .ok m ∧ m.isQuery = false := by
  obtain ⟨n, hn, hrest⟩ := Result.bind_eq_ok_iff.mp h
  split at hrest
  · cases hrest
  · rename_i hquery
    split at hrest
    · cases hrest
    · obtain rfl := eq_of_verified hrest
      exact ⟨hn, Bool.eq_false_iff.mpr hquery⟩

/-- What a request to a decoded route orders. -/
def order (s : Server) (r : Http.Request) : Route → Result Order
  | .home => .ok .page
  | .ping => .ok .probe
  | .update => (((s.plainBody r).bind Metric.decodeUpdate).bind s.verified).map .update
  | .updates => (((s.plainBody r).bind Metric.decodeBatch).bind s.allVerified).map .updateAll
  | .value => ((s.plainBody r).bind Metric.decode).map fun m => .lookup (.query m.id m.kind)
  | .updateAt kind id value => (s.pathMetric kind id value).map .update
  | .valueAt kind id => (Metric.ofPath kind id none).map .lookup

theorem order_eq_update {s : Server} {r : Http.Request} {plain : Route} {m : Metric}
    (h : s.order r plain = .ok (.update m)) :
    (plain = .update ∧ ∃ b n, s.plainBody r = .ok b ∧ Metric.decodeUpdate b = .ok n ∧
        s.verified n = .ok m) ∨
      ∃ kind id value, plain = .updateAt kind id value ∧ s.pathMetric kind id value = .ok m := by
  cases plain with
  | home | ping => cases h
  | update =>
      obtain ⟨n, hn, heq⟩ := Result.map_eq_ok_iff.mp h
      cases heq
      obtain ⟨k, hk, hverified⟩ := Result.bind_eq_ok_iff.mp hn
      obtain ⟨b, hb, hdecode⟩ := Result.bind_eq_ok_iff.mp hk
      exact .inl ⟨rfl, b, k, hb, hdecode, hverified⟩
  | updateAt kind id last =>
      obtain ⟨n, hn, heq⟩ := Result.map_eq_ok_iff.mp h
      cases heq
      exact .inr ⟨kind, id, last, rfl, hn⟩
  | updates | value | valueAt kind id =>
      obtain ⟨_, _, heq⟩ := Result.map_eq_ok_iff.mp h
      cases heq

theorem order_eq_updateAll {s : Server} {r : Http.Request} {plain : Route} {ms : List Metric}
    (h : s.order r plain = .ok (.updateAll ms)) :
    plain = .updates ∧ ∃ b batch, s.plainBody r = .ok b ∧ Metric.decodeBatch b = .ok batch ∧
      s.allVerified batch = .ok ms := by
  cases plain with
  | home | ping => cases h
  | updates =>
      obtain ⟨n, hn, heq⟩ := Result.map_eq_ok_iff.mp h
      cases heq
      obtain ⟨k, hk, hverified⟩ := Result.bind_eq_ok_iff.mp hn
      obtain ⟨b, hb, hdecode⟩ := Result.bind_eq_ok_iff.mp hk
      exact ⟨rfl, b, k, hb, hdecode, hverified⟩
  | update | value | updateAt kind id last | valueAt kind id =>
      obtain ⟨_, _, heq⟩ := Result.map_eq_ok_iff.mp h
      cases heq

/-- The metric that a frame has applied. -/
def frameMetric (s : Server) (peer : IpAddr) (f : Frame) : Result Metric :=
  if f.isResponse then .error (.badRequest "unexpected response frame")
  else
    (s.checkPeer peer).bind fun _ =>
      match Method.ofNumber? f.method with
      | some .updateMetric => f.update.bind s.verified
      | none => .error (.badRequest ("unknown rpc method: " ++ Integer.ofNat f.method.toNat))

theorem frameMetric_eq_ok {s : Server} {peer : IpAddr} {f : Frame} {m : Metric}
    (h : s.frameMetric peer f = .ok m) :
    s.checkPeer peer = .ok () ∧ ∃ n, f.update = .ok n ∧ s.verified n = .ok m := by
  rw [frameMetric] at h
  split at h
  · cases h
  · obtain ⟨_, hpeer, hrest⟩ := Result.bind_eq_ok_iff.mp h
    split at hrest
    · exact ⟨hpeer, Result.bind_eq_ok_iff.mp hrest⟩
    · cases hrest

/-! ## Requests -/

/-- The response to an order, and the server after it. -/
def fulfil (s : Server) (w : Wish) : Order → Http.Response × Server
  | .page => (s.page, s)
  | .probe => s.conclude w s.ping
  | .lookup query => s.conclude w (s.lookup query)
  | .update m => s.conclude w ((s.apply m).map fun t => (.message savedText, t))
  | .updateAll batch => s.conclude w ((s.applyAll batch).map fun t => (.message batchSavedText, t))

/-- The response to what may be an order, and the server after it. -/
def settle (s : Server) (w : Wish) : Result Order → Http.Response × Server
  | .ok order => s.fulfil w order
  | .error f => s.refuse w f

/-- The name of the first segment that is no text. -/
def badName : Route → String
  | .updateAt kind id _ | .valueAt kind id =>
    if (Http.Target.decode? kind).isNone then "kind"
    else if (Http.Target.decode? id).isNone then "id"
    else "value"
  | _ => ""

/-- Verifying a metric and ordering it is what storing one metric does. -/
theorem settle_verified (s : Server) (w : Wish) (m : Metric) :
    s.settle w ((s.verified m).map .update) = s.conclude w (s.store1 m) := by
  rw [store1, save, verified]
  cases s.verify m <;> rfl

theorem settle_allVerified (s : Server) (w : Wish) (b : Bytes) :
    s.settle w (((Metric.decodeBatch b).bind s.allVerified).map .updateAll) =
      s.conclude w (s.updates b) := by
  rw [updates]
  cases Metric.decodeBatch b with
  | error f => rfl
  | ok batch =>
      change s.settle w ((s.allVerified batch).map .updateAll) =
        s.conclude w ((s.saveAll batch).bind fun t => .ok (.message batchSavedText, t))
      rw [saveAll, allVerified]
      cases batch.forM s.verify with
      | error f => rfl
      | ok _ =>
          simp only [Result.bind_ok, Result.map_ok, settle, fulfil]
          cases s.applyAll batch <;> rfl

theorem settle_pathMetric (s : Server) (w : Wish) (kind id last : String) :
    s.settle w ((s.pathMetric kind id last).map .update) =
      s.conclude w (s.updateAt kind id last) := by
  rw [updateAt, pathMetric]
  cases Metric.ofPath kind id (some last) with
  | error f => rfl
  | ok m =>
      change s.settle w (Except.map _ (if m.isQuery then _ else _)) =
        s.conclude w (if m.isQuery then _ else _)
      split
      · rfl
      · split
        · rfl
        · exact s.settle_verified w m

/-- A handler is its order and what comes of it. -/
theorem handle_eq (s : Server) (r : Http.Request) (route : Route) :
    s.handle r route =
      match route.plain? with
      | some plain => s.settle (.ofRequest r) (s.order r plain)
      | none => (badSegment (badName route), s) := by
  cases route with
  | home => rfl
  | ping => rfl
  | update =>
      simp only [handle, withBody, Route.plain?, order]
      cases s.plainBody r with
      | error f => rfl
      | ok b =>
          simp only [Result.bind_ok, update]
          cases Metric.decodeUpdate b with
          | error f => rfl
          | ok m => exact (s.settle_verified (.ofRequest r) m).symm
  | updates =>
      simp only [handle, withBody, Route.plain?, order]
      cases s.plainBody r with
      | error f => rfl
      | ok b => exact (s.settle_allVerified (.ofRequest r) b).symm
  | value =>
      simp only [handle, withBody, Route.plain?, order]
      cases s.plainBody r with
      | error f => rfl
      | ok b =>
          simp only [Result.bind_ok]
          rw [value]
          cases Metric.decode b <;> rfl
  | updateAt kind id last =>
      simp only [handle, Route.plain?, badName, segment]
      cases Http.Target.decode? kind with
      | none => rfl
      | some kind =>
          cases Http.Target.decode? id with
          | none => rfl
          | some id =>
              cases Http.Target.decode? last with
              | none => rfl
              | some last => exact (s.settle_pathMetric (.ofRequest r) kind id last).symm
  | valueAt kind id =>
      simp only [handle, Route.plain?, badName, segment]
      cases Http.Target.decode? kind with
      | none => rfl
      | some kind =>
          cases Http.Target.decode? id with
          | none => rfl
          | some id =>
              change s.conclude _ (s.valueAt kind id) = s.settle _ _
              rw [valueAt, order]
              cases Metric.ofPath kind id none <;> rfl

/-- The response as it is sent: without its content if only the headers were asked for, and
with the right methods if the method is wrong. -/
def Route.dress (route : Route) (method : String) (response : Http.Response) : Http.Response :=
  if route.takes method then if method = "HEAD" then response.bodiless else response
  else { response with allow := some route.allow }

/-- What is sent, and the server after it, if the guard lets a request to a route pass. -/
def admitted (s : Server) (r : Http.Request) (route : Route) : Http.Response × Server :=
  if route.takes r.method then s.handle r route else (.empty 405, s)

/-- A request to a route is guarded, and only what is sent then depends on the method. -/
theorem respond_eq (s : Server) (r : Http.Request) (route : Route) :
    s.respond r route =
      match s.checkOrigin r with
      | .ok () => (route.dress r.method (s.admitted r route).1, (s.admitted r route).2)
      | .error f =>
        (route.dress r.method (s.complaint (.ofRequest r) f), (s.refuse (.ofRequest r) f).2) := by
  simp only [respond, guarded, Route.dress, admitted]
  cases s.checkOrigin r <;> split <;> rfl

/-! ## Calls -/

theorem call_eq (s : Server) (peer : IpAddr) (f : Frame) :
    s.call peer f =
      (s.frameMetric peer f).bind fun m => (s.apply m).map fun t => (.success savedText, t) := by
  rw [call, frameMetric]
  split
  · rfl
  · cases s.checkPeer peer with
    | error fault => rfl
    | ok _ =>
        simp only [Result.bind_ok]
        cases Method.ofNumber? f.method with
        | none => rfl
        | some method =>
            cases method
            change (f.update.bind fun m => (s.save m).bind fun t => .ok (_, t)) = _
            cases f.update with
            | error fault => rfl
            | ok m =>
                simp only [Result.bind_ok, verified, save]
                cases s.verify m with
                | error fault => rfl
                | ok _ =>
                    simp only [Result.bind_ok, Result.map_ok]
                    cases s.apply m <;> rfl

/-! ## The store -/

/-- What comes in at a server. -/
inductive Input where
  | request (r : Http.Request)
  | frame (peer : IpAddr) (raw : Bytes)

/-- The server after it has answered what came in. -/
def take (s : Server) : Input → Server
  | .request r => (s.serve r).2
  | .frame peer raw => (s.answer peer raw).2

theorem take_request (s : Server) (r : Http.Request) : s.take (.request r) = (s.serve r).2 := rfl

/-- The server after it has answered one thing after the other. -/
def takeAll (s : Server) (inputs : List Input) : Server := inputs.foldl take s

/-- What the store is asked to do for a request to a route, if it is asked at all. -/
def routeOrder (s : Server) (r : Http.Request) (route : Route) : Option Order :=
  match s.checkOrigin r with
  | .ok () =>
    if route.takes r.method then route.plain?.bind fun plain => (s.order r plain).toOption else none
  | .error _ => none

/-- What the store is asked to do for what came in, if it is asked at all. -/
def orderOf (s : Server) : Input → Option Order
  | .request r => (Route.ofPath? r.path).bind (s.routeOrder r)
  | .frame peer raw => (((Frame.decode raw).bind (s.frameMetric peer)).map .update).toOption

/-- Where an order comes from: a request past the guard, or a frame. -/
theorem orderOf_eq_some {s : Server} {input : Input} {order : Order}
    (h : s.orderOf input = some order) :
    (∃ r route plain, input = .request r ∧ Route.ofPath? r.path = some route ∧
        route.plain? = some plain ∧ s.checkOrigin r = .ok () ∧ s.order r plain = .ok order) ∨
      ∃ peer raw f m, input = .frame peer raw ∧ Frame.decode raw = .ok f ∧
        s.frameMetric peer f = .ok m ∧ order = .update m := by
  cases input with
  | request r =>
      obtain ⟨route, hroute, hrest⟩ := Option.bind_eq_some_iff.mp h
      simp only [routeOrder] at hrest
      split at hrest
      · rename_i horigin
        split at hrest
        · obtain ⟨plain, hplain, horder⟩ := Option.bind_eq_some_iff.mp hrest
          exact .inl ⟨r, route, plain, rfl, hroute, hplain, horigin,
            Result.toOption_eq_some_iff.mp horder⟩
        · cases hrest
      · cases hrest
  | frame peer raw =>
      obtain ⟨m, hm, rfl⟩ := Result.map_eq_ok_iff.mp (Result.toOption_eq_some_iff.mp h)
      obtain ⟨f, hf, hmetric⟩ := Result.bind_eq_ok_iff.mp hm
      exact .inr ⟨peer, raw, f, m, rfl, hf, hmetric, rfl⟩

/-- A server that differs from another one in its store and in what it counted only. -/
def Becomes (s : Server) (store : Store) (t : Server) : Prop :=
  ∃ stats, t = { s with store, stats }

theorem becomes_refl (s : Server) : s.Becomes s.store s := ⟨s.stats, rfl⟩

theorem becomes_fulfil (s : Server) (w : Wish) (order : Order) :
    s.Becomes (s.store.heed (some order)) (s.fulfil w order).2 := by
  cases order with
  | page => exact s.becomes_refl
  | probe =>
      simp only [fulfil, ping, Store.heed, Store.obey]
      cases s.store.available with
      | error f => exact ⟨_, rfl⟩
      | ok _ => exact s.becomes_refl
  | lookup query =>
      simp only [fulfil, Server.lookup, Store.heed, Store.obey]
      cases s.store.lookup query with
      | error f => exact ⟨_, rfl⟩
      | ok m => exact s.becomes_refl
  | update m =>
      simp only [fulfil, apply, Store.heed, Store.obey]
      cases s.store.update m with
      | error f => exact ⟨_, rfl⟩
      | ok t => exact ⟨_, rfl⟩
  | updateAll batch =>
      simp only [fulfil, applyAll, Store.heed, Store.obey]
      cases s.store.updateAll batch with
      | error f => exact ⟨_, rfl⟩
      | ok t => exact ⟨_, rfl⟩

theorem becomes_handle (s : Server) (r : Http.Request) (route : Route) :
    s.Becomes (s.store.heed (route.plain?.bind fun plain => (s.order r plain).toOption))
      (s.handle r route).2 := by
  rw [handle_eq]
  cases route.plain? with
  | none => exact s.becomes_refl
  | some plain =>
      simp only [Option.bind_some]
      cases s.order r plain with
      | error f => exact ⟨_, rfl⟩
      | ok order => exact s.becomes_fulfil _ order

theorem becomes_respond (s : Server) (r : Http.Request) (route : Route) :
    s.Becomes (s.store.heed (s.routeOrder r route)) (s.respond r route).2 := by
  rw [respond_eq, routeOrder]
  cases s.checkOrigin r with
  | error f => exact ⟨_, rfl⟩
  | ok _ =>
      simp only [admitted]
      split
      · exact s.becomes_handle r route
      · exact s.becomes_refl

theorem becomes_answerFrame (s : Server) (peer : IpAddr) (f : Frame) :
    s.Becomes (s.store.heed ((s.frameMetric peer f).map Order.update).toOption)
      (s.answerFrame peer f).2 := by
  rw [answerFrame, call_eq]
  cases s.frameMetric peer f with
  | error fault => exact ⟨_, rfl⟩
  | ok m =>
      simp only [Result.bind_ok, Result.map_ok, Except.toOption, Store.heed, Store.obey, apply]
      cases s.store.update m with
      | error fault => exact ⟨_, rfl⟩
      | ok t => exact ⟨_, rfl⟩

/-- What comes in changes nothing but the store, as it orders, and what was counted. -/
theorem becomes_take (s : Server) (input : Input) :
    s.Becomes (s.store.heed (s.orderOf input)) (s.take input) := by
  cases input with
  | request r =>
      simp only [take, serve, orderOf]
      cases Route.ofPath? r.path with
      | none => exact s.becomes_refl
      | some route =>
          obtain ⟨stats, h⟩ := s.becomes_respond r route
          simp only [Option.bind_some, h]
          exact ⟨_, rfl⟩
  | frame peer raw =>
      simp only [take, answer, orderOf]
      cases Frame.decode raw with
      | error fault => exact ⟨_, rfl⟩
      | ok f => exact s.becomes_answerFrame peer f

theorem store_take (s : Server) (input : Input) :
    (s.take input).store = s.store.heed (s.orderOf input) := by
  obtain ⟨stats, h⟩ := s.becomes_take input
  rw [h]

theorem subnet_take (s : Server) (input : Input) : (s.take input).subnet = s.subnet := by
  obtain ⟨stats, h⟩ := s.becomes_take input
  rw [h]

/-! ## Settings -/

/-- A server made from settings, whatever it holds and has counted since. -/
def Configured (settings : Settings) (d : Disk) (s : Server) : Prop :=
  ∃ store t, ofSettings settings store d = .ok t ∧ t.Becomes s.store s

namespace Configured

variable {settings : Settings} {d : Disk} {s t : Server}

theorem start {store : Store} (h : ofSettings settings store d = .ok s) :
    Configured settings d s := ⟨store, s, h, s.becomes_refl⟩

theorem take (h : Configured settings d s) (input : Input) :
    Configured settings d (s.take input) := by
  obtain ⟨store, t, hmade, stats, hs⟩ := h
  obtain ⟨stats', hnext⟩ := s.becomes_take input
  refine ⟨store, t, hmade, stats', ?_⟩
  rw [hnext, hs]

theorem takeAll (h : Configured settings d s) (inputs : List Input) :
    Configured settings d (s.takeAll inputs) := by
  induction inputs generalizing s with
  | nil => exact h
  | cons input rest ih => exact ih (h.take input)

theorem parts (h : Configured settings d s) :
    made (Unsealer.ofFile · d) (Settings.present settings.cryptoKey) = .ok s.unsealer ∧
      made Subnet.parse (Settings.present settings.trustedSubnet) = .ok s.subnet ∧
      s.signer = settings.key.bind fun k => Signer.ofKey? (Bytes.ofText k) := by
  obtain ⟨store, t, hmade, stats, hs⟩ := h
  obtain ⟨unsealer, hunsealer, hrest⟩ := Result.bind_eq_ok_iff.mp hmade
  obtain ⟨subnet, hsubnet, hserver⟩ := Result.bind_eq_ok_iff.mp hrest
  cases hserver
  rw [hs]
  exact ⟨hunsealer, hsubnet, rfl⟩

theorem becomes (hs : Configured settings d s) (ht : Configured settings d t) :
    s.Becomes t.store t := by
  obtain ⟨hunsealer, hsubnet, hsigner⟩ := hs.parts
  obtain ⟨hunsealer', hsubnet', hsigner'⟩ := ht.parts
  have hu := Except.ok.inj (hunsealer.symm.trans hunsealer')
  have hn := Except.ok.inj (hsubnet.symm.trans hsubnet')
  refine ⟨t.stats, ?_⟩
  rw [hu, hn, hsigner, ← hsigner']

theorem signer (h : Configured settings d s) {key : String} (hkey : settings.key = some key)
    (hne : key ≠ "") : ∃ signer, s.signer = some signer ∧ signer.key = Bytes.ofText key := by
  have hoctets : Bytes.ofText key ≠ [] := fun he => hne (Bytes.ofText_injective he)
  refine ⟨⟨Bytes.ofText key, hoctets⟩, ?_, rfl⟩
  rw [h.parts.2.2, hkey, Option.bind_some, Signer.ofKey?, dif_neg hoctets]

theorem subnet (h : Configured settings d s) {cidr : String}
    (hcidr : settings.trustedSubnet = some cidr) (hne : cidr ≠ "") :
    ∃ n, s.subnet = some n ∧ Subnet.parse cidr = .ok n := by
  have hpresent : Settings.present settings.trustedSubnet = some cidr := by
    rw [hcidr, Settings.present, Option.filter_some, if_pos (decide_eq_true hne)]
  have hmade := h.parts.2.1
  rw [hpresent] at hmade
  obtain ⟨n, hn, hsome⟩ := Result.map_eq_ok_iff.mp hmade
  exact ⟨n, hsome.symm, hn⟩

end Configured

end Server

end Telemetry
