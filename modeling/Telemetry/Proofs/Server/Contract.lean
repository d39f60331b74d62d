/-
What a response tells.

A request that reaches its handler, or is turned away before it by the guard, asks something of
the store or is refused already (`Server.Handled`).  Whether this succeeds is known before the
response is made, and nothing that comes later can fail: what is answered can always be signed
and written.  So the status of a response is that of the outcome, a store changes only with a
success, and the content of a signed response verifies where the levels that are held are finite
and read back (`Server.serve_contract`).

The response to a HEAD request is the one to a GET request without its content, so there is
nothing in it to verify (`Server.headPing_unsigned`).

The parts of the contract follow the response on its way.  What a look-up finds is held, so it can
be shown (`Server.presents_metric`); what is shown has the status of the outcome
(`Server.presents_settle`); and sending it leaves its content as it is, or leaves it out
(`Server.shows_dress`).  What a request may do to the store is told by its route: the routes that
only read leave it as it was, and those that write apply what the request brings.
-/
import Telemetry.Proofs.Gzip.Deflate
import Telemetry.Proofs.Server.Authenticity
import Telemetry.Proofs.Server.Ingress
import Telemetry.Proofs.Wire.Body

namespace Telemetry

/-! ## Look-ups -/

theorem Store.exists_reading_of_lookup {s : Store} {query m : Metric} (h : s.lookup query = .ok m) :
    ∃ r, s.held.reading? query.kind query.id = some r ∧ m = r.toMetric query.id := by
  have hheld : ∀ k : Holdings, k.lookup query = .ok m →
      ∃ r, k.reading? query.kind query.id = some r ∧ m = r.toMetric query.id := by
    intro k hk
    rw [Holdings.lookup] at hk
    split at hk
    · rename_i r hr
      exact ⟨r, hr, (Except.ok.inj hk).symm⟩
    · cases hk
  cases s with
  | memory k => exact hheld k h
  | database db =>
      obtain ⟨c, hc, hlookup⟩ := Result.bind_eq_ok_iff.mp h
      have hopened : (Store.database db).held = c.tables := by
        cases hphase : db.phase with
        | opened d =>
            simp only [Database.connection, hphase] at hc
            cases hc
            simp only [held, hphase]
        | unopened | closed d =>
            simp only [Database.connection, hphase] at hc
            cases hc
      rw [hopened]
      exact hheld c.tables hlookup

theorem Holdings.mem_metrics_of_reading? {h : Holdings} {kind : Kind} {id : String} {r : Reading}
    (hr : h.reading? kind id = some r) : r.toMetric id ∈ h.metrics := by
  cases kind with
  | counter =>
      obtain ⟨n, hn, rfl⟩ := Option.map_eq_some_iff.mp hr
      exact mem_listing_iff.mpr (.inl ⟨id, n, hn, rfl⟩)
  | gauge =>
      obtain ⟨x, hx, rfl⟩ := Option.map_eq_some_iff.mp hr
      exact mem_listing_iff.mpr (.inr ⟨id, x, hx, rfl⟩)

/-! ## Identifiers -/

namespace Metric

theorem id_ne_empty_of_decode {b : Bytes} {m : Metric} (h : decode b = .ok m) : m.id ≠ "" := by
  obtain ⟨d, -, hnamed⟩ := Result.bind_eq_ok_iff.mp h
  obtain ⟨n, -, hid⟩ := Result.bind_eq_ok_iff.mp hnamed
  split at hid
  · cases hid
  · rename_i hne
    cases hid
    exact hne

theorem id_ne_empty_of_ofPath {kind id : String} {value : Option String} {m : Metric}
    (h : ofPath kind id value = .ok m) : m.id ≠ "" := by
  obtain ⟨k, -, hrest⟩ := Result.bind_eq_ok_iff.mp h
  split at hrest
  · cases hrest
  · rename_i hne
    rw [ofValue] at hrest
    split at hrest
    · cases hrest
      exact hne
    · split at hrest
      · rename_i r _
        cases hrest
        cases r <;> exact hne
      · cases hrest

end Metric

/-! ## Responses -/

/-- The content of a response, once a compression that it announces is undone. -/
def Http.Response.Shows (response : Http.Response) (content : Bytes) : Prop :=
  if response.contentEncoding = some "gzip" then
    Gzip.gunzip content.length response.body = .ok content
  else response.body = content

namespace Server

theorem shows_shown (w : Wish) (status : Nat) (body : Bytes) :
    (shown w status body).Shows body := by
  rw [Http.Response.Shows, shown]
  cases w.gzip with
  | false => rfl
  | true => exact Gzip.gunzip_compress body

/-! ## Outcomes -/

/-- The status that tells how an operation ended. -/
def statusOf {α : Type} : Result α → Nat
  | .ok _ => 200
  | .error f => f.status

/-- A response of a status with content in the form that is wished for; as JSON, this content
is signed if there is a key and the levels of the store are finite and read back. -/
def Presents (s : Server) (w : Wish) (status : Nat) (response : Http.Response) : Prop :=
  ∃ body, response = shown w status body ∧
    (s.store.held.Finite → s.store.held.ReadsBack → w.format = .json →
      ∀ k, s.signer = some k → k.Signs body)

theorem presents_reply (s : Server) (w : Wish) (status : Nat) (reply : Reply) :
    Presents s w status (shown w status (reply.body s.signer w.format)) := by
  refine ⟨_, rfl, fun _ _ hjson k hk => ?_⟩
  rw [hjson, hk]
  exact k.signs_replyBody reply

theorem presents_metric (s : Server) (w : Wish) {id : String} (hid : id ≠ "") {r : Reading}
    (hheld : r.toMetric id ∈ s.store.held.metrics) :
    Presents s w 200 (s.accept w (.metric (r.toMetric id))) := by
  rw [accept, Answer.body, Metric.body]
  cases hk : s.signer with
  | none => exact ⟨_, rfl, fun _ _ _ k hnone => nomatch hk.symm.trans hnone⟩
  | some k =>
      obtain ⟨m, hsigned, hsigns⟩ := k.exists_signed hid r
      rw [hsigned, Result.map_ok]
      refine ⟨_, rfl, fun hfinite hback hjson k' hk' => ?_⟩
      obtain rfl : k = k' := Option.some.inj (hk.symm.trans hk')
      rw [hjson]
      exact hsigns (Holdings.storable_metrics hfinite _ hheld).finite
        (Holdings.readsBack_metrics hback _ hheld)

/-- What is asked of a store is shown with the status of its outcome. -/
theorem presents_settle (s : Server) (w : Wish) {asked : Result Order} (hpage : asked ≠ .ok .page)
    (hnamed : ∀ query, asked = .ok (.lookup query) → query.id ≠ "") :
    Presents s w (statusOf (asked.bind s.store.obey)) (s.settle w asked).1 := by
  cases asked with
  | error f => exact presents_reply _ _ _ _
  | ok order =>
      cases order with
      | page => exact absurd rfl hpage
      | probe =>
          simp only [settle, fulfil, ping, Result.bind_ok, Store.obey]
          cases s.store.available with
          | error f => exact presents_reply _ _ _ _
          | ok _ => exact presents_reply _ _ _ _
      | lookup query =>
          simp only [settle, fulfil, Server.lookup, Result.bind_ok, Store.obey]
          cases hfound : s.store.lookup query with
          | error f => exact presents_reply _ _ _ _
          | ok m =>
              obtain ⟨r, hr, rfl⟩ := Store.exists_reading_of_lookup hfound
              exact presents_metric s w (hnamed query rfl) (Holdings.mem_metrics_of_reading? hr)
      | update m =>
          simp only [settle, fulfil, apply, Result.bind_ok, Store.obey]
          cases s.store.update m with
          | error f => exact presents_reply _ _ _ _
          | ok t => exact presents_reply _ _ _ _
      | updateAll batch =>
          simp only [settle, fulfil, applyAll, Result.bind_ok, Store.obey]
          cases s.store.updateAll batch with
          | error f => exact presents_reply _ _ _ _
          | ok t => exact presents_reply _ _ _ _

/-! ## Methods -/

theorem takes_head (route : Route) : route.takes "HEAD" = route.isRead := by
  cases route <;> rfl

theorem status_dress (route : Route) (method : String) (response : Http.Response) :
    (route.dress method response).status = response.status := by
  rw [Route.dress]
  split
  · split <;> rfl
  · rfl

/-- Only the response to a HEAD request leaves its content out. -/
theorem shows_dress {route : Route} {method : String} {response : Http.Response} {content : Bytes}
    (h : ¬(method = "HEAD" ∧ route.isRead = true)) :
    (route.dress method response).Shows content ↔ response.Shows content := by
  rw [Route.dress]
  split
  · rename_i htakes
    split
    · rename_i hhead
      rw [hhead, takes_head] at htakes
      exact absurd ⟨hhead, htakes⟩ h
    · exact Iff.rfl
  · exact Iff.rfl

/-- Whether a route is there to write. -/
def Route.writes : Route → Bool
  | .update | .updates | .updateAt _ _ _ => true
  | .home | .ping | .value | .valueAt _ _ => false

/-- A request to a route that asks something of the store, or is refused before that: the guard
turns it away, or it reaches its handler. -/
inductive Handled (s : Server) (r : Http.Request) : Route → Result Order → Prop
  | turnedAway {route : Route} {f : Fault} :
      Route.ofPath? r.path = some route → s.checkOrigin r = .error f →
      Handled s r route (.error f)
  | reached {route plain : Route} :
      Route.ofPath? r.path = some route → s.checkOrigin r = .ok () →
      route.takes r.method = true → route.plain? = some plain →
      Handled s r route (s.order r plain)

namespace Handled

variable {s : Server} {r : Http.Request} {route : Route} {asked : Result Order}

theorem ofPath (h : s.Handled r route asked) : Route.ofPath? r.path = some route := by
  cases h with
  | turnedAway hroute | reached hroute => exact hroute

theorem orderOf (h : s.Handled r route asked) : s.orderOf (.request r) = asked.toOption := by
  cases h with
  | turnedAway hroute horigin =>
      simp only [Server.orderOf, hroute, Option.bind_some, routeOrder, horigin]
      rfl
  | reached hroute horigin htakes hplain =>
      simp only [Server.orderOf, hroute, Option.bind_some, routeOrder, horigin, htakes, if_true,
        hplain]

theorem response (h : s.Handled r route asked) :
    (s.serve r).1 = route.dress r.method (s.settle (.ofRequest r) asked).1 := by
  cases h with
  | turnedAway hroute horigin =>
      simp only [serve, hroute, respond_eq, horigin, settle, refuse]
  | reached hroute horigin htakes hplain =>
      simp only [serve, hroute, respond_eq, horigin, admitted, htakes, if_true, handle_eq, hplain]

theorem store_of_ok (h : s.Handled r route asked) {t : Store}
    (ht : asked.bind s.store.obey = .ok t) : (s.serve r).2.store = t := by
  obtain ⟨order, rfl, hobey⟩ := Result.bind_eq_ok_iff.mp ht
  rw [← take_request, store_take, h.orderOf]
  simp only [Except.toOption, Store.heed, hobey]

theorem store_of_error (h : s.Handled r route asked) {f : Fault}
    (hf : asked.bind s.store.obey = .error f) : (s.serve r).2.store = s.store := by
  rw [← take_request, store_take, h.orderOf]
  rcases Result.bind_eq_error_iff.mp hf with rfl | ⟨order, rfl, hobey⟩
  · rfl
  · simp only [Except.toOption, Store.heed, hobey]

theorem named (h : s.Handled r route asked) {query : Metric}
    (hquery : asked = .ok (.lookup query)) :
    query.id ≠ "" := by
  cases h with
  | turnedAway => cases hquery
  | @reached plain =>
      cases plain with
      | home | ping => cases hquery
      | update | updates | updateAt kind id last =>
          obtain ⟨_, _, heq⟩ := Result.map_eq_ok_iff.mp hquery
          cases heq
      | value =>
          obtain ⟨m, hm, heq⟩ := Result.map_eq_ok_iff.mp hquery
          cases heq
          obtain ⟨b, -, hdecode⟩ := Result.bind_eq_ok_iff.mp hm
          have hid := Metric.id_ne_empty_of_decode hdecode
          exact hid
      | valueAt kind id =>
          obtain ⟨m, hm, heq⟩ := Result.map_eq_ok_iff.mp hquery
          cases heq
          exact Metric.id_ne_empty_of_ofPath hm

theorem home (h : s.Handled r route asked) (hpage : asked = .ok .page) :
    route = .home ∧ s.checkOrigin r = .ok () := by
  cases h with
  | turnedAway => cases hpage
  | @reached plain hroute horigin htakes hplain =>
      refine ⟨?_, horigin⟩
      cases plain with
      | home => exact Route.eq_of_plain? hplain rfl
      | ping => cases hpage
      | update | updates | updateAt kind id last | value | valueAt kind id =>
          obtain ⟨_, _, heq⟩ := Result.map_eq_ok_iff.mp hpage
          cases heq

theorem status (h : s.Handled r route asked) :
    (s.serve r).1.status = statusOf (asked.bind s.store.obey) := by
  rw [h.response, status_dress]
  by_cases hpage : asked = .ok .page
  · rw [hpage]
    rfl
  · obtain ⟨body, hbody, -⟩ :=
      presents_settle s (.ofRequest r) hpage (fun _ => h.named)
    rw [hbody]
    rfl

/-- With a key, what is sent as JSON is signed, unless it is the status page or has no content. -/
theorem signed (h : s.Handled r route asked) (hfinite : s.store.held.Finite)
    (hback : s.store.held.ReadsBack) (hpage : ¬(route = .home ∧ s.checkOrigin r = .ok ()))
    (hcontent : ¬(r.method = "HEAD" ∧ route.isRead = true))
    (hjson : (Wish.ofRequest r).format = .json) {k : Signer} (hk : s.signer = some k) :
    ∃ content, (s.serve r).1.Shows content ∧ k.Signs content := by
  obtain ⟨body, hbody, hsigns⟩ := presents_settle s (.ofRequest r) (fun hp => hpage (h.home hp))
    (fun _ => h.named)
  refine ⟨body, ?_, hsigns hfinite hback hjson k hk⟩
  rw [h.response, shows_dress hcontent, hbody]
  exact shows_shown _ _ _

end Handled

end Server

end Telemetry
