/-
One update in every form.

A metric can be sent alone in a body, as a batch of one, in a call, or without a key as segments.
Each of these has a decoder of its own, and a batch also its own way into the store.  What is read
of the metric decides: the store takes it or refuses it (`Server.outcome`), and the sender is told
so, in a response or in a reply, for the same cause.

The first three forms are JSON, and the same is read of all of them.  Segments are read as the
metric says.  So the forms agree about a metric without a level and about one whose level reads
back (`Server.forms_agree`).  About other levels they do not: a numeral in a segment is rounded
once, and the same numeral in JSON more than once, so that one gauge can end up at two levels
(`Server.eleventh_forms_differ`).

A metric with both fields can be sent in a body, in a batch and in a call, which all refuse it;
segments cannot say what it says.
-/
import Telemetry.Proofs.Server.Calls
import Telemetry.Proofs.Server.Contract
import Telemetry.Proofs.Signature.Canonical
import Telemetry.Proofs.Store.Apart
import Telemetry.Proofs.Wire.Elements

namespace Telemetry.Server

variable {s : Server} {m : Metric} {r : Http.Request}

/-! ## Outcomes -/

/-- The store with what was read of a metric, or why it is refused. -/
def outcome (s : Server) (arrived : Result Metric) : Result Store :=
  (arrived.bind s.verified).bind s.store.update

/-- The sender of an input is told of an outcome, and of the cause of a refusal: by the status of
a response, or by the error of a reply. -/
def Tells (s : Server) (outcome : Result Store) : Input → Prop
  | .request r =>
    match outcome with
    | .ok _ => (s.serve r).1.status = 200
    | .error f => ∃ g : Fault, g.code = f.code ∧ (s.serve r).1 = s.complaint (.ofRequest r) g
  | .frame peer raw =>
    ∃ (f : Frame) (envelope : Reply), (s.answer peer raw).1 = f.reply envelope.encode ∧
      match outcome with
      | .ok _ => envelope.error = ""
      | .error f => ∃ g : Fault, g.code = f.code ∧ envelope.error = g.message

/-- An input leads to an outcome, and its sender is told. -/
def Ends (s : Server) (outcome : Result Store) (input : Input) : Prop :=
  (s.take input).store = outcome.toOption.getD s.store ∧ s.Tells outcome input

/-- Outcomes that are told apart by no more than the text of a refusal. -/
inductive Alike : Result Store → Result Store → Prop
  | same (outcome : Result Store) : Alike outcome outcome
  | refused {f g : Fault} : f.code = g.code → Alike (.error f) (.error g)

theorem Ends.alike {input : Input} {a b : Result Store} (h : s.Ends a input) (hab : Alike a b) :
    s.Ends b input := by
  cases hab with
  | same => exact h
  | refused hcode =>
      obtain ⟨hstore, htells⟩ := h
      refine ⟨hstore, ?_⟩
      cases input with
      | request r =>
          obtain ⟨k, hk, hresponse⟩ := htells
          exact ⟨k, hk.trans hcode, hresponse⟩
      | frame peer raw =>
          obtain ⟨frame, envelope, hreply, k, hk, herror⟩ := htells
          exact ⟨frame, envelope, hreply, k, hk.trans hcode, herror⟩

theorem settle_of_error {w : Wish} {asked : Result Order} {f : Fault}
    (h : asked.bind s.store.obey = .error f) : (s.settle w asked).1 = s.complaint w f := by
  rcases Result.bind_eq_error_iff.mp h with rfl | ⟨order, rfl, hobey⟩
  · rfl
  · cases order with
    | page => cases hobey
    | probe =>
        simp only [Store.obey] at hobey
        simp only [settle, fulfil, ping]
        cases havailable : s.store.available with
        | ok _ =>
            rw [havailable] at hobey
            cases hobey
        | error g =>
            rw [havailable] at hobey
            cases hobey
            rfl
    | lookup query =>
        have hlookup := Result.map_eq_error_iff.mp hobey
        simp only [settle, fulfil, lookup, hlookup]
        rfl
    | update m =>
        have hupdate : s.store.update m = .error f := hobey
        simp only [settle, fulfil, apply, hupdate]
        rfl
    | updateAll batch =>
        have hupdate : s.store.updateAll batch = .error f := hobey
        simp only [settle, fulfil, applyAll, hupdate]
        rfl

theorem status_settle_update {w : Wish} {t : Store} {asked : Result Metric}
    (h : asked.bind s.store.update = .ok t) : (s.settle w (asked.map .update)).1.status = 200 := by
  obtain ⟨m, rfl, hupdate⟩ := Result.bind_eq_ok_iff.mp h
  simp only [Result.map_ok, settle, fulfil, apply, hupdate]
  rfl

theorem fst_settle_updateAll {w : Wish} {t : Store} {asked : Result (List Metric)}
    (h : asked.bind s.store.updateAll = .ok t) :
    (s.settle w (asked.map .updateAll)).1 = s.accept w (.message batchSavedText) := by
  obtain ⟨batch, rfl, hupdate⟩ := Result.bind_eq_ok_iff.mp h
  simp only [Result.map_ok, settle, fulfil, applyAll, hupdate]
  rfl

/-- What is sent with a method that the route takes, and not for the headers only, is sent as it
is. -/
theorem dress_eq_self {route : Route} {method : String} (htakes : route.takes method = true)
    (hhead : method ≠ "HEAD") (response : Http.Response) :
    route.dress method response = response := by
  rw [Route.dress, if_pos htakes, if_neg hhead]

theorem Handled.ends {route : Route} {asked : Result Order} (h : s.Handled r route asked)
    (htakes : route.takes r.method = true) (hhead : r.method ≠ "HEAD")
    (hstatus : ∀ t, asked.bind s.store.obey = .ok t →
      (s.settle (.ofRequest r) asked).1.status = 200) :
    s.Ends (asked.bind s.store.obey) (.request r) := by
  have hresponse : (s.serve r).1 = (s.settle (.ofRequest r) asked).1 := by
    rw [h.response, dress_eq_self htakes hhead]
  rw [Ends, take_request]
  cases houtcome : asked.bind s.store.obey with
  | ok t =>
      rw [Tells, hresponse]
      exact ⟨h.store_of_ok houtcome, hstatus t houtcome⟩
  | error f =>
      rw [Tells, hresponse]
      exact ⟨h.store_of_error houtcome, f, rfl, settle_of_error houtcome⟩

/-- Octets that are read as a frame lead to their verdict. -/
theorem ends_frame (s : Server) (peer : IpAddr) (raw : Bytes) :
    s.Ends (s.verdict peer raw) (.frame peer raw) := by
  cases h : s.verdict peer raw with
  | ok store =>
      obtain ⟨hreply, hstore⟩ := answer_of_ok h
      exact ⟨hstore, _, _, hreply, Reply.error_signed _ _⟩
  | error fault =>
      obtain ⟨⟨envelope, hreply, herror⟩, hstore⟩ := answer_of_error h
      exact ⟨hstore, _, envelope, hreply, fault, rfl, herror⟩

/-! ## Forms -/

/-- A request of a method to a route, from an allowed origin. -/
structure Reaches (s : Server) (r : Http.Request) (method : String) (route : Route) : Prop where
  method : r.method = method
  route : Route.ofPath? r.path = some route
  origin : s.checkOrigin r = .ok ()

/-- The forms in which a metric is sent: alone in a body, as a batch in a body, in a call, and as
segments. -/
inductive Form where
  | body | batch | call | segments

/-- What is read of a metric in a form.  Segments are read as a metric if they say what it says. -/
def Form.read (m : Metric) : Form → Result Metric
  | .segments => .ok m
  | .body | .batch | .call => Metric.decodeUpdate m.encode

/-- An input sends a metric in a form, from an allowed origin; as segments only to a server without
a key. -/
inductive Submits (s : Server) (m : Metric) : Form → Input → Prop
  | body {r : Http.Request} : s.Reaches r "POST" .update → s.plainBody r = .ok m.encode →
      Submits s m .body (.request r)
  | batch {r : Http.Request} : s.Reaches r "POST" .updates →
      s.plainBody r = .ok (Metric.encodeAll [m]) → Submits s m .batch (.request r)
  | call {peer : IpAddr} (seq : Option UInt32) : s.checkPeer peer = .ok () →
      Submits s m .call (.frame peer (Frame.request Frame.updateMethod seq m.encode).encode)
  | segments {r : Http.Request} {kind id last value : String} {n : Metric} : s.signer = none →
      s.Reaches r "POST" (.updateAt kind id last) → Http.Target.decode? kind = some m.kind.name →
      Http.Target.decode? id = some m.id → Http.Target.decode? last = some value →
      Metric.ofPath m.kind.name m.id (some value) = .ok n → n.reading = m.reading →
      Submits s m .segments (.request r)

/-- A request to write that reaches its handler leads to the outcome of what it asks. -/
theorem Reaches.ends {route plain : Route} (h : s.Reaches r "POST" route)
    (hread : route.isRead = false) (hplain : route.plain? = some plain)
    (hstatus : ∀ t, (s.order r plain).bind s.store.obey = .ok t →
      (s.settle (.ofRequest r) (s.order r plain)).1.status = 200) :
    s.Ends ((s.order r plain).bind s.store.obey) (.request r) := by
  have htakes : route.takes r.method = true := by
    rw [h.method, Route.takes, Route.methods, hread]
    rfl
  have hhead : r.method ≠ "HEAD" := by rw [h.method]; decide
  exact (Handled.reached h.route h.origin htakes hplain).ends htakes hhead hstatus

theorem allVerified_singleton (s : Server) (m : Metric) :
    s.allVerified [m] = (s.verified m).map ([·]) := by
  have hone : [m].forM s.verify = (s.verify m).bind fun _ => .ok () := rfl
  rw [allVerified, verified, hone]
  cases s.verify m <;> rfl

theorem ends_body (h : s.Reaches r "POST" .update) (hbody : s.plainBody r = .ok m.encode) :
    s.Ends (s.outcome (Metric.decodeUpdate m.encode)) (.request r) := by
  have hasked : s.order r .update =
      ((Metric.decodeUpdate m.encode).bind s.verified).map .update := by
    rw [order, hbody, Result.bind_ok]
  have houtcome : (s.order r .update).bind s.store.obey =
      s.outcome (Metric.decodeUpdate m.encode) := by
    rw [hasked, outcome]
    cases (Metric.decodeUpdate m.encode).bind s.verified <;> rfl
  rw [← houtcome]
  refine h.ends rfl rfl fun t ht => ?_
  rw [houtcome] at ht
  rw [hasked, status_settle_update ht]

/-- What a batch of one leads to is what its metric leads to. -/
theorem alike_batch (s : Server) (hfinite : m.Finite) :
    Alike (((Metric.decodeBatch (Metric.encodeAll [m])).bind s.allVerified).bind s.store.updateAll)
      (s.outcome (Metric.decodeUpdate m.encode)) := by
  cases hread : Metric.decodeUpdate m.encode with
  | error f =>
      obtain ⟨g, hg, hcode⟩ := Metric.decodeBatch_singleton_error hfinite hread
      rw [hg]
      exact .refused hcode
  | ok n =>
      have hbatch : Metric.decodeBatch (Metric.encodeAll [m]) = .ok [n] := by
        rw [Metric.decodeBatch_encodeAll (List.forall_mem_singleton.mpr hfinite), List.map_singleton,
          hread, List.map_singleton]
      rw [hbatch, Result.bind_ok, allVerified_singleton, outcome, Result.bind_ok]
      cases s.verified n with
      | error f => exact .same _
      | ok k =>
          rw [Result.map_ok, Result.bind_ok, Result.bind_ok, s.store.update_eq_updateAll]
          exact .same _

theorem ends_batch (hfinite : m.Finite) (h : s.Reaches r "POST" .updates)
    (hbody : s.plainBody r = .ok (Metric.encodeAll [m])) :
    s.Ends (s.outcome (Metric.decodeUpdate m.encode)) (.request r) := by
  refine Ends.alike ?_ (s.alike_batch hfinite)
  have hasked : s.order r .updates =
      ((Metric.decodeBatch (Metric.encodeAll [m])).bind s.allVerified).map .updateAll := by
    rw [order, hbody, Result.bind_ok]
  have houtcome : (s.order r .updates).bind s.store.obey =
      ((Metric.decodeBatch (Metric.encodeAll [m])).bind s.allVerified).bind s.store.updateAll := by
    rw [hasked]
    cases (Metric.decodeBatch (Metric.encodeAll [m])).bind s.allVerified <;> rfl
  rw [← houtcome]
  refine h.ends rfl rfl fun t ht => ?_
  rw [houtcome] at ht
  rw [hasked, fst_settle_updateAll ht]
  rfl

theorem verdict_request (m : Metric) {peer : IpAddr} (seq : Option UInt32)
    (hpeer : s.checkPeer peer = .ok ()) :
    s.verdict peer (Frame.request Frame.updateMethod seq m.encode).encode =
      s.outcome (Metric.decodeUpdate m.encode) := by
  have hmetric : s.frameMetric peer (Frame.request Frame.updateMethod seq m.encode) =
      (Metric.decodeUpdate m.encode).bind s.verified := by
    rw [frameMetric, if_neg (by rw [Frame.isResponse_request]; exact Bool.false_ne_true), hpeer,
      Result.bind_ok]
    rfl
  rw [verdict, Frame.decode_encode_request, Result.bind_ok, hmetric, outcome]

theorem ends_call (m : Metric) {peer : IpAddr} (seq : Option UInt32)
    (hpeer : s.checkPeer peer = .ok ()) :
    s.Ends (s.outcome (Metric.decodeUpdate m.encode))
      (.frame peer (Frame.request Frame.updateMethod seq m.encode).encode) := by
  rw [← verdict_request m seq hpeer]
  exact s.ends_frame peer _

theorem named_of_ofPath {kind : Kind} {id : String} {value : Option String} {n : Metric}
    (h : Metric.ofPath kind.name id value = .ok n) : n.id = id ∧ n.kind = kind := by
  rw [Metric.ofPath, Kind.ofName_name, Result.bind_ok] at h
  split at h
  · cases h
  · rw [Metric.ofValue] at h
    split at h
    · cases h
      exact ⟨rfl, rfl⟩
    · split at h
      · rename_i reading hreading
        cases h
        cases kind with
        | counter =>
            obtain ⟨d, -, rfl⟩ := Option.map_eq_some_iff.mp hreading
            exact ⟨rfl, rfl⟩
        | gauge =>
            obtain ⟨x, -, rfl⟩ := Option.map_eq_some_iff.mp hreading
            exact ⟨rfl, rfl⟩
      · cases h

theorem isQuery_eq_false {n : Metric} (hfield : m.HasField) (hreading : n.reading = m.reading) :
    n.isQuery = false := by
  rw [Bool.eq_false_iff]
  intro hquery
  obtain ⟨hdelta, hvalue⟩ := Bool.and_eq_true_iff.mp hquery
  obtain ⟨subject, hmissing⟩ : ∃ subject, n.reading = .error (.nullAttr subject) := by
    rw [Metric.reading, Option.isNone_iff_eq_none.mp hdelta, Option.isNone_iff_eq_none.mp hvalue,
      Metric.missingField]
    cases n.kind <;> exact ⟨_, rfl⟩
  rw [hmissing] at hreading
  obtain ⟨id, kind, delta, value, hash⟩ := m
  cases kind with
  | counter =>
      obtain ⟨d, rfl⟩ := Option.isSome_iff_exists.mp hfield
      cases value <;> cases hreading
  | gauge =>
      obtain ⟨x, rfl⟩ := Option.isSome_iff_exists.mp hfield
      cases delta <;> cases hreading

theorem ends_segments {kind id last value : String} {n : Metric} (hfield : m.HasField)
    (hsigner : s.signer = none) (h : s.Reaches r "POST" (.updateAt kind id last))
    (hkind : Http.Target.decode? kind = some m.kind.name)
    (hid : Http.Target.decode? id = some m.id) (hlast : Http.Target.decode? last = some value)
    (hpath : Metric.ofPath m.kind.name m.id (some value) = .ok n)
    (hreading : n.reading = m.reading) : s.Ends (s.outcome (.ok m)) (.request r) := by
  have hplain : (Route.updateAt kind id last).plain? =
      some (.updateAt m.kind.name m.id value) := by
    simp only [Route.plain?, hkind, hid, hlast, Option.bind_eq_bind, Option.bind_some]
  have hverified : ∀ n, s.verified n = .ok n := fun n => by rw [verified, verify, hsigner]; rfl
  have hquery := isQuery_eq_false hfield hreading
  have hasked : s.order r (.updateAt m.kind.name m.id value) =
      (.ok n : Result Metric).map .update := by
    rw [order, pathMetric, hpath, Result.bind_ok, hquery, if_neg Bool.false_ne_true, hsigner,
      if_neg (by decide), hverified]
  have houtcome : (.ok n : Result Metric).bind s.store.update = s.outcome (.ok m) := by
    rw [outcome, Result.bind_ok, Result.bind_ok, hverified, Result.bind_ok]
    exact s.store.update_congr (named_of_ofPath hpath).1 hreading
  have hobeyed : (s.order r (.updateAt m.kind.name m.id value)).bind s.store.obey =
      s.outcome (.ok m) := by
    rw [hasked, ← houtcome]
    rfl
  rw [← hobeyed]
  refine h.ends rfl hplain fun t ht => ?_
  rw [hobeyed, ← houtcome] at ht
  rw [hasked, status_settle_update ht]

/-- Every form of a metric leads to the outcome of what is read of it. -/
theorem Submits.ends (hfield : m.HasField) (hfinite : m.Finite) {form : Form} {input : Input}
    (h : s.Submits m form input) : s.Ends (s.outcome (form.read m)) input := by
  cases h with
  | body hreaches hbody => exact ends_body hreaches hbody
  | batch hreaches hbody => exact ends_batch hfinite hreaches hbody
  | call seq hpeer => exact ends_call m seq hpeer
  | segments hsigner hreaches hkind hname hlast hpath hreading =>
      exact ends_segments hfield hsigner hreaches hkind hname hlast hpath hreading

/-- If the level reads back, every form leads to the same outcome. -/
theorem Submits.outcome_eq (hid : m.id ≠ "") (hfinite : m.Finite) (hback : m.ReadsBack)
    {form : Form} {input : Input} (h : s.Submits m form input) :
    s.outcome (form.read m) = s.outcome (Metric.decodeUpdate m.encode) := by
  cases h with
  | body | batch | call => rfl
  | segments hsigner =>
      have hverified : ∀ n, s.verified n = .ok n := fun n => by rw [verified, verify, hsigner]; rfl
      have hsame : s.store.update m.received = s.store.update m := s.store.update_congr rfl rfl
      rw [Metric.decodeUpdate_encode hfinite hback hid, Form.read, outcome, outcome, Result.bind_ok,
        hverified, Result.bind_ok, Metric.complete, Metric.reading_received]
      cases hr : m.reading with
      | error f =>
          rw [Store.update_eq_applyAll, hr]
          rfl
      | ok reading => rw [Result.map_ok, Result.bind_ok, hverified, Result.bind_ok, hsame]

/-! ## Look-ups -/

/-- The forms in which a metric is asked for by its kind and its identifier: as segments, or with
any metric of this kind and identifier in a body. -/
inductive Asks (s : Server) (m : Metric) : Http.Request → Prop
  | segments {r : Http.Request} {kind id : String} : s.Reaches r "GET" (.valueAt kind id) →
      Http.Target.decode? kind = some m.kind.name → Http.Target.decode? id = some m.id → Asks s m r
  | body {r : Http.Request} {b : Bytes} {n : Metric} : s.Reaches r "POST" .value →
      s.plainBody r = .ok b → Metric.decode b = .ok n → n.kind = m.kind → n.id = m.id → Asks s m r

/-- The response to a look-up. -/
def found (s : Server) (w : Wish) : Result Metric → Http.Response
  | .ok m => s.accept w (.metric m)
  | .error f => s.complaint w f

/-- A request that is handled as a look-up is answered with what is found. -/
theorem Handled.finds {route : Route} {query : Metric}
    (h : s.Handled r route (.ok (.lookup query))) (htakes : route.takes r.method = true)
    (hhead : r.method ≠ "HEAD") :
    (s.serve r).2.store = s.store ∧
      (s.serve r).1 = s.found (.ofRequest r) (s.store.lookup query) := by
  rw [h.response, dress_eq_self htakes hhead]
  simp only [settle, fulfil, lookup]
  cases hlookup : s.store.lookup query with
  | ok n =>
      have hobey : (Except.ok (.lookup query) : Result Order).bind s.store.obey = .ok s.store := by
        rw [Result.bind_ok, Store.obey, hlookup, Result.map_ok]
      exact ⟨h.store_of_ok hobey, rfl⟩
  | error f =>
      have hobey : (Except.ok (.lookup query) : Result Order).bind s.store.obey = .error f := by
        rw [Result.bind_ok, Store.obey, hlookup]
        rfl
      exact ⟨h.store_of_error hobey, rfl⟩

theorem Asks.finds (hid : m.id ≠ "") (h : s.Asks m r) :
    (s.serve r).2.store = s.store ∧
      (s.serve r).1 = s.found (.ofRequest r) (s.store.lookup (.query m.id m.kind)) := by
  cases h with
  | @segments kind id hreaches hkind hname =>
      have hplain : (Route.valueAt kind id).plain? = some (.valueAt m.kind.name m.id) := by
        simp only [Route.plain?, hkind, hname, Option.bind_eq_bind, Option.bind_some]
      have htakes : (Route.valueAt kind id).takes r.method = true := by rw [hreaches.method]; rfl
      have hhead : r.method ≠ "HEAD" := by rw [hreaches.method]; decide
      have hasked : s.order r (.valueAt m.kind.name m.id) =
          .ok (.lookup (.query m.id m.kind)) := by
        rw [order, Metric.ofPath, Kind.ofName_name, Result.bind_ok, if_neg hid]
        rfl
      exact (hasked ▸ Handled.reached hreaches.route hreaches.origin htakes hplain).finds htakes
        hhead
  | @body b n hreaches hbody hdecode hkind hname =>
      have htakes : Route.value.takes r.method = true := by rw [hreaches.method]; rfl
      have hhead : r.method ≠ "HEAD" := by rw [hreaches.method]; decide
      have hasked : s.order r .value = .ok (.lookup (.query m.id m.kind)) := by
        rw [order, hbody, Result.bind_ok, hdecode, Result.map_ok, hkind, hname]
      exact (hasked ▸ Handled.reached hreaches.route hreaches.origin htakes rfl).finds htakes
        hhead

/-- Whatever form a metric is sent in, what is read of it decides to which store it leads and what
its sender is told: that it was saved, or for which cause it was not.  This is the same in every
form if the level reads back, and nothing but the level can be read otherwise.  And whatever form
it is asked for in, the same metric is shown, or the same complaint. -/
theorem forms_agree {s : Server} {m : Metric} (hid : m.id ≠ "") (hfield : m.HasField)
    (hfinite : m.Finite) :
    (∀ form input, s.Submits m form input →
      (s.take input).store = (s.outcome (form.read m)).toOption.getD s.store ∧
        s.Tells (s.outcome (form.read m)) input ∧
        (m.ReadsBack → s.outcome (form.read m) = s.outcome (Metric.decodeUpdate m.encode))) ∧
    (∀ n, Metric.decodeUpdate m.encode = .ok n → m.Rereads n) ∧
    ∀ r, s.Asks m r → (s.serve r).2.store = s.store ∧
      (s.serve r).1 = s.found (.ofRequest r) (s.store.lookup (.query m.id m.kind)) := by
  refine ⟨fun form input h => ?_, fun n => Metric.rereads_of_decodeUpdate hfinite,
    fun r h => h.finds hid⟩
  obtain ⟨hstore, htells⟩ := h.ends hfield hfinite
  exact ⟨hstore, htells, fun hback => h.outcome_eq hid hfinite hback⟩

/-- A server without a key whose counter is at its limit. -/
def fullServer : Server :=
  ⟨.memory (Holdings.empty.put "a b" (.counter Int64.maxValue)), none, none, none, .empty⟩

def jsonRequest (path : String) (body : Bytes) : Http.Request :=
  ⟨"POST", path, [("content-type", Bytes.ofText "application/json")], body⟩

/-- One more for the counter, in each form. -/
def growthInput : Form → Input
  | .body => .request (jsonRequest "/update/" (Metric.counter "a b" 1).encode)
  | .batch => .request (jsonRequest "/updates/" (Metric.encodeAll [.counter "a b" 1]))
  | .call => .frame (.v4 0) (Frame.updateRequest 7 (.counter "a b" 1)).encode
  | .segments => .request ⟨"POST", "/update/counter/a%20b/+01", [], []⟩

/-- The counter, asked for as segments and in a body. -/
def growthRequests : List Http.Request :=
  [⟨"GET", "/value/counter/a%20b", [], []⟩,
    jsonRequest "/value/" (Metric.query "a b" .counter).encode]

/-- In each form the server refuses it for the same reason, and in each form it shows the
counter. -/
theorem forms_agree_growth :
    (Metric.counter "a b" 1).id ≠ "" ∧ (Metric.counter "a b" 1).HasField ∧
      (Metric.counter "a b" 1).Finite ∧
      (∀ form, fullServer.Submits (.counter "a b" 1) form (growthInput form) ∧
        (fullServer.take (growthInput form)).store = fullServer.store ∧
        fullServer.Tells (.error (Holdings.overflow "a b")) (growthInput form)) ∧
      ∀ r ∈ growthRequests, fullServer.Asks (.counter "a b" 1) r ∧
        (fullServer.serve r).1 =
          fullServer.accept (.ofRequest r) (.metric (.counter "a b" Int64.maxValue)) := by
  have hid : (Metric.counter "a b" 1).id ≠ "" := by decide
  have hfield : (Metric.counter "a b" 1).HasField := rfl
  have hfinite : (Metric.counter "a b" 1).Finite := nofun
  obtain ⟨hforms, -, hasks⟩ := forms_agree (s := fullServer) hid hfield hfinite
  refine ⟨hid, hfield, hfinite, fun form => ?_, fun r hr => ?_⟩
  · have hsubmits : fullServer.Submits (.counter "a b" 1) form (growthInput form) := by
      cases form with
      | body => exact .body ⟨rfl, by decide +kernel, rfl⟩ rfl
      | batch => exact .batch ⟨rfl, by decide +kernel, rfl⟩ rfl
      | call => exact .call (some 7) rfl
      | segments =>
          have hroute : Route.ofPath? "/update/counter/a%20b/+01" =
              some (.updateAt "counter" "a%20b" "+01") := by decide +kernel
          have hlast : Http.Target.decode? "+01" = some "+01" := by decide +kernel
          exact .segments (n := .counter "a b" 1) rfl ⟨rfl, hroute, rfl⟩ (by decide +kernel)
            (by decide +kernel) hlast rfl rfl
    have hread : Metric.decodeUpdate (Metric.counter "a b" 1).encode = .ok (.counter "a b" 1) :=
      Metric.decodeUpdate_encode nofun nofun hid
    have houtcome : fullServer.outcome (form.read (.counter "a b" 1)) =
        .error (Holdings.overflow "a b") := by
      cases form <;> simp only [Form.read, hread] <;> rfl
    obtain ⟨hstore, htells, -⟩ := hforms form _ hsubmits
    rw [houtcome] at hstore htells
    exact ⟨hsubmits, hstore, htells⟩
  · have hasked : fullServer.Asks (.counter "a b" 1) r := by
      simp only [growthRequests, List.mem_cons, List.not_mem_nil, or_false] at hr
      rcases hr with rfl | rfl
      · have hroute : Route.ofPath? "/value/counter/a%20b" = some (.valueAt "counter" "a%20b") := by
          decide +kernel
        exact .segments ⟨rfl, hroute, rfl⟩ (by decide +kernel) (by decide +kernel)
      · exact .body (n := .query "a b" .counter) ⟨rfl, by decide +kernel, rfl⟩ rfl
          (Metric.decode_encode nofun nofun hid nofun) rfl rfl
    exact ⟨hasked, (hasks r hasked).2⟩

/-- The double next to one eleventh, a gauge at this level, and a server to send it to. -/
def eleventh : Binary64 := ⟨0x3fb745d1745d1746⟩

def eleventhGauge : Metric := .gauge "g" eleventh

def freeServer : Server := ⟨.inMemory, none, none, none, .empty⟩

/-- The numeral of the level is the same in JSON and in the segment that are sent.  The segment is
read as the level, and the JSON as its neighbour. -/
theorem eleventh_forms_differ :
    let body := Input.request (jsonRequest "/update/" eleventhGauge.encode)
    let segments := Input.request ⟨"POST", "/update/gauge/g/0.09090909090909091", [], []⟩
    eleventhGauge.id ≠ "" ∧ eleventhGauge.HasField ∧ eleventhGauge.Finite ∧
      freeServer.Submits eleventhGauge .body body ∧
      freeServer.Submits eleventhGauge .segments segments ∧
      (freeServer.take body).store.held.gauges.toList = [("g", ⟨0x3fb745d1745d1747⟩)] ∧
      (freeServer.take segments).store.held.gauges.toList = [("g", eleventh)] := by
  intro body segments
  have hfinite : eleventhGauge.Finite := by
    intro x hx
    obtain rfl := Option.some.inj hx
    decide
  have hroute : Route.ofPath? "/update/gauge/g/0.09090909090909091" =
      some (.updateAt "gauge" "g" "0.09090909090909091") := by decide +kernel
  have hread : Metric.ofPath "gauge" "g" (some "0.09090909090909091") = .ok eleventhGauge := by
    decide +kernel
  have hdecoded : ∀ text ∈ ["gauge", "g", "0.09090909090909091"],
      Http.Target.decode? text = some text := by decide +kernel
  refine ⟨by decide, rfl, hfinite, .body ⟨rfl, by decide +kernel, rfl⟩ (by decide +kernel), ?_,
    by decide +kernel, by decide +kernel⟩
  exact .segments rfl ⟨rfl, hroute, rfl⟩ (hdecoded _ (by decide)) (hdecoded _ (by decide))
    (hdecoded _ (by decide)) hread rfl

end Telemetry.Server
