/-
Only what is signed changes the store of a server with a key.

There are four ways to bring metrics to a server: by segments, in a body, in a batch and in
a frame.  With a key the first is closed, and the others lead to the store only when every
metric carries the code of its own canonical text under this key (`Metric.Signed`).  A batch
is verified as a whole before any of it is written.

Each order to write is traced to what was carried in: one metric that was verified, or a batch
all of which was.  A batch in which something is not signed changes nothing, and neither do
segments.
-/
import Telemetry.Proofs.Server.Orders

namespace Telemetry

/-! ## Signatures -/

/-- A metric that carries the code of its own canonical text under a key. -/
def Metric.Signed (key : Bytes) (m : Metric) : Prop :=
  ∃ hash text, m.hash = some hash ∧ m.canonical = .ok text ∧
    Hex.decode? hash = some (Hmac.code key (Bytes.ofText text))

theorem Signer.check_eq_ok_iff {s : Signer} {text hash : String} :
    s.check text hash = .ok () ↔ Hex.decode? hash = some (Hmac.code s.key (Bytes.ofText text)) := by
  rw [check, Result.ite_eq_ok_iff, accepts]
  exact decide_eq_true_iff

theorem Signer.verifyMetric_eq_ok_iff {s : Signer} {m : Metric} :
    s.verifyMetric m = .ok () ↔ m.Signed s.key := by
  rw [verifyMetric]
  cases hhash : m.hash with
  | none =>
      refine ⟨nofun, ?_⟩
      rintro ⟨hash, text, hsome, -⟩
      rw [hhash] at hsome
      cases hsome
  | some hash =>
      simp only [Result.bind_eq_ok_iff, check_eq_ok_iff]
      constructor
      · rintro ⟨text, htext, hcode⟩
        exact ⟨hash, text, hhash, htext, hcode⟩
      · rintro ⟨hash', text, hsome, htext, hcode⟩
        rw [hhash] at hsome
        cases hsome
        exact ⟨text, htext, hcode⟩

namespace Server

variable {s : Server} {signer : Signer}

theorem verified_eq_ok_iff (hs : s.signer = some signer) {m n : Metric} :
    s.verified m = .ok n ↔ m.Signed signer.key ∧ m = n := by
  rw [verified, verify, hs, Result.map_eq_ok_iff]
  constructor
  · rintro ⟨_, hverify, rfl⟩
    exact ⟨Signer.verifyMetric_eq_ok_iff.mp hverify, rfl⟩
  · rintro ⟨hsigned, rfl⟩
    exact ⟨(), Signer.verifyMetric_eq_ok_iff.mpr hsigned, rfl⟩

/-- A batch is verified when each of its metrics is signed. -/
theorem allVerified_eq_ok_iff (hs : s.signer = some signer) {batch ms : List Metric} :
    s.allVerified batch = .ok ms ↔ (∀ m ∈ batch, m.Signed signer.key) ∧ batch = ms := by
  have hverify : ∀ m, s.verify m = .ok () ↔ m.Signed signer.key := fun m => by
    rw [verify, hs]
    exact Signer.verifyMetric_eq_ok_iff
  rw [allVerified, Result.map_eq_ok_iff]
  constructor
  · rintro ⟨_, hall, rfl⟩
    exact ⟨fun m hm => (hverify m).mp (Result.forM_eq_ok_iff.mp hall m hm), rfl⟩
  · rintro ⟨hall, rfl⟩
    exact ⟨(), Result.forM_eq_ok_iff.mpr fun m hm => (hverify m).mpr (hall m hm), rfl⟩

/-- With a key nothing is updated by segments. -/
theorem pathMetric_ne_ok (hs : s.signer = some signer) (kind id value : String) (m : Metric) :
    s.pathMetric kind id value ≠ .ok m := by
  intro h
  obtain ⟨n, -, hrest⟩ := Result.bind_eq_ok_iff.mp h
  split at hrest
  · cases hrest
  · rw [hs] at hrest
    cases hrest

/-! ## What is carried -/

/-- What comes in carries metrics to be written, in a form that has room for signatures: one
in a body, a batch in a body, or one in a frame. -/
inductive Carries (s : Server) : Input → List Metric → Prop
  | body {r : Http.Request} {b : Bytes} {m : Metric} :
      Route.ofPath? r.path = some .update → s.plainBody r = .ok b →
      Metric.decodeUpdate b = .ok m → Carries s (.request r) [m]
  | batch {r : Http.Request} {b : Bytes} {ms : List Metric} :
      Route.ofPath? r.path = some .updates → s.plainBody r = .ok b →
      Metric.decodeBatch b = .ok ms → Carries s (.request r) ms
  | frame {peer : IpAddr} {raw : Bytes} {f : Frame} {m : Metric} :
      Frame.decode raw = .ok f → f.update = .ok m → Carries s (.frame peer raw) [m]

theorem carries_of_update (hs : s.signer = some signer) {input : Input} {m : Metric}
    (h : s.orderOf input = some (.update m)) : s.Carries input [m] ∧ m.Signed signer.key := by
  rcases orderOf_eq_some h with ⟨r, route, plain, rfl, hroute, hplain, -, horder⟩ |
    ⟨peer, raw, f, n, rfl, hf, hmetric, heq⟩
  · rcases order_eq_update horder with ⟨rfl, b, n, hb, hn, hverified⟩ | ⟨kind, id, value, -, hpath⟩
    · obtain ⟨hsigned, rfl⟩ := (verified_eq_ok_iff hs).mp hverified
      obtain rfl := Route.eq_of_plain? hplain rfl
      exact ⟨.body hroute hb hn, hsigned⟩
    · exact absurd hpath (pathMetric_ne_ok hs kind id value m)
  · cases heq
    obtain ⟨-, n, hn, hverified⟩ := frameMetric_eq_ok hmetric
    obtain ⟨hsigned, rfl⟩ := (verified_eq_ok_iff hs).mp hverified
    exact ⟨.frame hf hn, hsigned⟩

theorem carries_of_updateAll (hs : s.signer = some signer) {input : Input} {ms : List Metric}
    (h : s.orderOf input = some (.updateAll ms)) :
    s.Carries input ms ∧ ∀ m ∈ ms, m.Signed signer.key := by
  rcases orderOf_eq_some h with ⟨r, route, plain, rfl, hroute, hplain, -, horder⟩ |
    ⟨_, _, _, _, _, _, _, heq⟩
  · obtain ⟨rfl, b, batch, hb, hbatch, hverified⟩ := order_eq_updateAll horder
    obtain ⟨hsigned, rfl⟩ := (allVerified_eq_ok_iff hs).mp hverified
    obtain rfl := Route.eq_of_plain? hplain rfl
    exact ⟨.batch hroute hb hbatch, hsigned⟩
  · cases heq

/-- What comes in at a server with a key leaves the store as it was, or applies to it signed
metrics that were carried in. -/
theorem store_take_signed (hs : s.signer = some signer) (input : Input) :
    (s.take input).store = s.store ∨
      ∃ ms, s.Carries input ms ∧ (∀ m ∈ ms, m.Signed signer.key) ∧
        s.store.updateAll ms = .ok (s.take input).store := by
  rw [store_take]
  rcases s.store.heed_cases (s.orderOf input) with
    hkept | ⟨m, horder, htaken⟩ | ⟨ms, horder, htaken⟩
  · exact .inl hkept
  · obtain ⟨hcarries, hsigned⟩ := carries_of_update hs horder
    exact .inr ⟨[m], hcarries, List.forall_mem_singleton.mpr hsigned, htaken⟩
  · obtain ⟨hcarries, hsigned⟩ := carries_of_updateAll hs horder
    exact .inr ⟨ms, hcarries, hsigned, htaken⟩

/-- A batch in which something is not signed changes nothing. -/
theorem store_take_unsigned (hs : s.signer = some signer) {r : Http.Request}
    (hroute : Route.ofPath? r.path = some .updates) {b : Bytes} (hb : s.plainBody r = .ok b)
    {ms : List Metric} (hms : Metric.decodeBatch b = .ok ms)
    (hunsigned : ∃ m ∈ ms, ¬m.Signed signer.key) : (s.take (.request r)).store = s.store := by
  rcases store_take_signed hs (.request r) with hkept | ⟨ms', hcarries, hsigned, -⟩
  · exact hkept
  · obtain ⟨m, hm, hnot⟩ := hunsigned
    cases hcarries with
    | body hupdate _ _ => exact absurd (hroute.symm.trans hupdate) nofun
    | batch _ hb' hms' =>
        cases hb.symm.trans hb'
        cases hms.symm.trans hms'
        exact absurd (hsigned m hm) hnot

theorem store_take_segments (hs : s.signer = some signer) {r : Http.Request}
    {kind id value : String} (hroute : Route.ofPath? r.path = some (.updateAt kind id value)) :
    (s.take (.request r)).store = s.store := by
  rcases store_take_signed hs (.request r) with hkept | ⟨ms, hcarries, -⟩
  · exact hkept
  · cases hcarries with
    | body hupdate _ _ => exact absurd (hroute.symm.trans hupdate) nofun
    | batch hupdates _ _ => exact absurd (hroute.symm.trans hupdates) nofun

/-! ## Runs -/

/-- After everything that came in the store is the first one with signed batches applied in
turn. -/
theorem store_takeAll_signed {settings : Settings} {d : Disk} (h : Configured settings d s)
    {key : String} (hkey : settings.key = some key) (hne : key ≠ "") (inputs : List Input) :
    ∃ batches : List (List Metric),
      (∀ ms ∈ batches, ∀ m ∈ ms, m.Signed (Bytes.ofText key)) ∧
        batches.foldlM Store.updateAll s.store = .ok (s.takeAll inputs).store := by
  induction inputs generalizing s with
  | nil => exact ⟨[], fun _ h => absurd h List.not_mem_nil, rfl⟩
  | cons input rest ih =>
      obtain ⟨signer, hs, hoctets⟩ := h.signer hkey hne
      obtain ⟨batches, hsigned, hrest⟩ := ih (h.take input)
      rcases store_take_signed hs input with hkept | ⟨ms, -, hms, htaken⟩
      · rw [hkept] at hrest
        exact ⟨batches, hsigned, hrest⟩
      · refine ⟨ms :: batches, List.forall_mem_cons.mpr ⟨?_, hsigned⟩, ?_⟩
        · rw [← hoctets]
          exact hms
        · rw [List.foldlM_cons, htaken]
          exact hrest

/-- At every moment of a run of a server with a key, what comes in leaves the store as it was,
or applies to it metrics that it carries, each with the code of its own canonical text under
the key; a batch in which one is not signed so, and an update by segments, change nothing. -/
theorem authentic_takeAll {settings : Settings} {d : Disk} (h : Configured settings d s)
    {key : String} (hkey : settings.key = some key) (hne : key ≠ "") (before : List Input)
    (input : Input) :
    let t := s.takeAll before
    let octets := Bytes.ofText key
    ((t.take input).store = t.store ∨ ∃ ms, t.Carries input ms ∧
        (∀ m ∈ ms, m.Signed octets) ∧ t.store.updateAll ms = .ok (t.take input).store) ∧
      (∀ r b ms, input = .request r → Route.ofPath? r.path = some .updates →
        t.plainBody r = .ok b → Metric.decodeBatch b = .ok ms → (∃ m ∈ ms, ¬m.Signed octets) →
          (t.take input).store = t.store) ∧
      ∀ r kind id value, input = .request r →
        Route.ofPath? r.path = some (.updateAt kind id value) →
          (t.take input).store = t.store := by
  intro t octets
  obtain ⟨signer, hs, hoctets⟩ := (h.takeAll before).signer hkey hne
  refine ⟨?_, ?_, ?_⟩
  · have hstep := store_take_signed hs input
    rwa [hoctets] at hstep
  · rintro r b ms rfl hroute hb hms hunsigned
    rw [← show signer.key = octets from hoctets] at hunsigned
    exact store_take_unsigned hs hroute hb hms hunsigned
  · rintro r kind id value rfl hroute
    exact store_take_segments hs hroute

def keySettings : Settings := { Settings.default with key := some "secret" }

/-- A server in memory that these settings make. -/
def keyServer : Server :=
  ⟨.inMemory, Signer.ofKey? (Bytes.ofText "secret"), none, none, .empty⟩

def signedRequest : Http.Request :=
  ⟨"POST", "/update/", [("content-type", Bytes.ofText "application/json")],
    Bytes.ofText ("\x7b\"id\":\"a\",\"type\":\"counter\",\"delta\":1,\"hash\":" ++
      "\"6a89e29f7f1069266ef8ae5db86855a9f9c2ec7c0a19e3a946ab313d90300a66\"\x7d")⟩

/-- Its metric is held afterwards, and so it was signed; an unsigned update by segments that
came before has left nothing. -/
theorem authentic_signedRequest :
    Configured keySettings .empty keyServer ∧ keySettings.key = some "secret" ∧ "secret" ≠ "" ∧
      let t := keyServer.takeAll [.request ⟨"POST", "/update/counter/b/1", [], []⟩]
      (t.take (.request signedRequest)).store.held.counters.toList = [("a", 1)] ∧
        ∃ ms, t.Carries (.request signedRequest) ms ∧
          (∀ m ∈ ms, m.Signed (Bytes.ofText "secret")) ∧
          t.store.updateAll ms = .ok (t.take (.request signedRequest)).store := by
  have hconfigured : Configured keySettings .empty keyServer :=
    .start (show ofSettings keySettings .inMemory .empty = .ok keyServer from rfl)
  have hheld : ((keyServer.takeAll [.request ⟨"POST", "/update/counter/b/1", [], []⟩]).take
      (.request signedRequest)).store.held.counters.toList = [("a", 1)] := by decide +kernel
  have hempty : (keyServer.takeAll
      [.request ⟨"POST", "/update/counter/b/1", [], []⟩]).store.held.counters.toList = [] := by
    decide +kernel
  refine ⟨hconfigured, rfl, by decide, hheld, ?_⟩
  rcases (authentic_takeAll hconfigured rfl (by decide)
    [.request ⟨"POST", "/update/counter/b/1", [], []⟩] (.request signedRequest)).1 with hkept | hms
  · rw [hkept, hempty] at hheld
    cases hheld
  · exact hms

end Server

end Telemetry
