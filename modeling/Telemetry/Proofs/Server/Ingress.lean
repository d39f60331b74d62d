/-
Nothing comes in that cannot be kept.

A metric reaches a store by segments, in a body, in a batch, in a frame or with a snapshot.
Each of these ways lets only metrics through that are complete and have finite levels
(`Metric.Storable`): what is written is asked for its reading before the store is, and neither
JSON nor a numeral of a segment yields a level that is not finite.  So a store in memory
refuses no metric for what it is, only for a sum that is out of range
(`Memory.updateAll_refusal`), and whatever it holds can be dumped, and is restored as it was
where its levels read back (`Server.store_survives`).

A draft that makes a complete metric makes one that can be stored, and so do segments that say
what to write, and an entry of a snapshot.  What comes in leaves all levels finite, and so does
the start, whatever snapshot there is.
-/
import Telemetry.Proofs.Server.Orders
import Telemetry.Proofs.Store.Recovery
import Telemetry.Proofs.Store.RoundTrip
import Telemetry.Server.Lifecycle

namespace Telemetry

/-! ## What is decoded -/

theorem Draft.hash_ne_empty {d : Draft} {m : Metric} (h : d.metric = .ok m) : m.hash ≠ some "" := by
  obtain ⟨kind, -, rfl⟩ := Result.map_eq_ok_iff.mp h
  intro hhash
  exact absurd rfl (of_decide_eq_true (Option.filter_eq_some_iff.mp hhash).2)

theorem Draft.storable_of_completeMetric {d : Draft} {m : Metric}
    (hd : ∀ x, d.value = some x → x.isFinite = true) (h : d.completeMetric = .ok m) :
    m.Storable := by
  obtain ⟨n, hn, hcomplete⟩ := Result.bind_eq_ok_iff.mp h
  obtain ⟨r, hr, rfl⟩ := Result.map_eq_ok_iff.mp hcomplete
  obtain ⟨k, hk, hnamed⟩ := Result.bind_eq_ok_iff.mp hn
  have hkn : k = n := by
    split at hnamed
    · cases hnamed
    · exact Except.ok.inj hnamed
  subst hkn
  refine ⟨⟨r, hr⟩, ?_, hash_ne_empty hk⟩
  obtain ⟨kind, -, rfl⟩ := Result.map_eq_ok_iff.mp hk
  exact hd

namespace Metric

theorem storable_of_decodeUpdate {b : Bytes} {m : Metric} (h : decodeUpdate b = .ok m) :
    m.Storable := by
  obtain ⟨d, hd, hcomplete⟩ := Result.bind_eq_ok_iff.mp h
  refine Draft.storable_of_completeMetric (fun x hx => ?_) hcomplete
  rw [draft] at hd
  split at hd
  · rename_i e he
    cases hd
    obtain ⟨j, -, hj⟩ := Option.bind_eq_some_iff.mp he
    exact Draft.isFinite_of_ofJson? hj hx
  · cases hd

theorem exists_of_mem_drafts? {j : Json} {ds : List Draft} (h : drafts? j = some ds) {d : Draft}
    (hd : d ∈ ds) : ∃ item, Draft.ofJson? item = some d := by
  cases j with
  | array items =>
      simp only [drafts?] at h
      induction items generalizing ds with
      | nil => cases h; exact absurd hd List.not_mem_nil
      | cons item items ih =>
          rw [List.mapM_cons] at h
          obtain ⟨e, he, hrest⟩ := Option.bind_eq_some_iff.mp h
          obtain ⟨es, hes, heq⟩ := Option.bind_eq_some_iff.mp hrest
          obtain rfl := Option.some.inj heq
          rcases List.mem_cons.mp hd with rfl | hmem
          · exact ⟨item, he⟩
          · exact ih hmem hes
  | _ => cases h

theorem storable_of_decodeBatch {b : Bytes} {ms : List Metric} (h : decodeBatch b = .ok ms) :
    ∀ m ∈ ms, m.Storable := by
  rw [decodeBatch] at h
  split at h
  · rename_i ds hds
    intro m hm
    obtain ⟨d, hd, hcomplete⟩ := Result.exists_of_mem_mapM h hm
    obtain ⟨j, -, hj⟩ := Option.bind_eq_some_iff.mp hds
    obtain ⟨item, hitem⟩ := exists_of_mem_drafts? hj hd
    exact Draft.storable_of_completeMetric (fun x => Draft.isFinite_of_ofJson? hitem) hcomplete
  · cases h

theorem storable_of_ofPath {kind id value : String} {m : Metric}
    (h : ofPath kind id (some value) = .ok m) (hquery : m.isQuery = false) : m.Storable := by
  obtain ⟨kind, -, hrest⟩ := Result.bind_eq_ok_iff.mp h
  split at hrest
  · cases hrest
  · rw [Option.getD_some, ofValue] at hrest
    split at hrest
    · cases hrest
      cases hquery
    · split at hrest
      · rename_i r hr
        cases hrest
        refine ⟨⟨r, reading_toMetric id r⟩, ?_, ?_⟩
        · cases kind with
          | counter =>
              obtain ⟨n, -, rfl⟩ := Option.map_eq_some_iff.mp hr
              exact nofun
          | gauge =>
              obtain ⟨x, hx, rfl⟩ := Option.map_eq_some_iff.mp hr
              rintro _ ⟨⟩
              exact (Option.filter_eq_some_iff.mp hx).2
        · cases r <;> exact nofun
      · cases hrest

end Metric

theorem Snapshot.storable_entry {j : Json} {m : Metric} (h : entry? j = some m) : m.Storable := by
  obtain ⟨⟨d, -, hmetric⟩, hcomplete⟩ := entry?_eq_some_iff_draft.mp h
  exact ⟨hcomplete, finite_entry h, Draft.hash_ne_empty hmetric⟩

theorem Snapshot.storable_of_load {path : String} {d : Disk} {ms : List Metric}
    (h : load path d = .ok ms) : ∀ m ∈ ms, m.Storable := by
  rw [load] at h
  split at h
  · cases h
  · split at h
    · rename_i hdecode
      cases h
      obtain ⟨items, -, rfl⟩ := Option.map_eq_some_iff.mp hdecode
      intro m hm
      obtain ⟨j, -, hj⟩ := List.mem_filterMap.mp hm
      exact storable_entry hj
    · cases h

/-! ## What is refused -/

theorem Holdings.readings_complete {ms : List Metric}
    (hms : ∀ m ∈ ms, ∃ r, m.reading = .ok r) :
    ∃ rs, readings ms = .ok rs ∧ ∀ r ∈ rs, ∃ m ∈ ms, m.id = r.1 := by
  induction ms with
  | nil => exact ⟨[], rfl, fun _ h => absurd h List.not_mem_nil⟩
  | cons m ms ih =>
      obtain ⟨r, hr⟩ := hms m List.mem_cons_self
      obtain ⟨rest, hrest, hids⟩ := ih fun n hn => hms n (List.mem_cons_of_mem m hn)
      refine ⟨(m.id, r) :: rest, readings_cons_eq_ok_iff.mpr ⟨r, rest, hr, hrest, rfl⟩, ?_⟩
      intro x hx
      rcases List.mem_cons.mp hx with rfl | hx
      · exact ⟨m, List.mem_cons_self, rfl⟩
      · obtain ⟨n, hn, hid⟩ := hids x hx
        exact ⟨n, List.mem_cons_of_mem m hn, hid⟩

namespace Memory

theorem apply_refusal {h : Holdings} {id : String} {r : Reading} {f : Fault}
    (hf : apply h id r = .error f) : f = Holdings.overflow id := by
  cases r with
  | counter d =>
      have hsum := Result.map_eq_error_iff.mp hf
      rw [sum] at hsum
      split at hsum
      · cases hsum
      · exact (Except.error.inj hsum).symm
  | gauge level => cases hf

theorem applyAll_refusal {h : Holdings} {rs : List (String × Reading)} {f : Fault}
    (hf : applyAll h rs = .error f) : ∃ r ∈ rs, f = Holdings.overflow r.1 := by
  induction rs generalizing h with
  | nil => cases hf
  | cons r rs ih =>
      rw [applyAll_cons] at hf
      rcases Result.bind_eq_error_iff.mp hf with hr | ⟨k, -, hrest⟩
      · exact ⟨r, List.mem_cons_self, apply_refusal hr⟩
      · obtain ⟨x, hx, hoverflow⟩ := ih hrest
        exact ⟨x, List.mem_cons_of_mem r hx, hoverflow⟩

/-- A store in memory refuses complete metrics only for a sum that is out of range. -/
theorem updateAll_refusal {h : Holdings} {batch : List Metric}
    (hcomplete : ∀ m ∈ batch, ∃ r, m.reading = .ok r) {f : Fault}
    (hf : updateAll h batch = .error f) : ∃ m ∈ batch, f = Holdings.overflow m.id := by
  obtain ⟨rs, hrs, hids⟩ := Holdings.readings_complete hcomplete
  rw [updateAll_eq, hrs] at hf
  obtain ⟨r, hr, hoverflow⟩ := applyAll_refusal hf
  obtain ⟨m, hm, hid⟩ := hids r hr
  exact ⟨m, hm, by rw [hoverflow, hid]⟩

end Memory

namespace Server

/-! ## What is handed over -/

/-- Whatever is handed to the store to be written can be stored. -/
theorem storable_written {s : Server} {input : Input} {order : Order}
    (h : s.orderOf input = some order) : ∀ m ∈ order.written, m.Storable := by
  have hone : ∀ m : Metric, m.Storable → ∀ n ∈ (Order.update m).written, n.Storable := by
    intro m hm n hn
    rwa [List.mem_singleton.mp hn]
  rcases orderOf_eq_some h with ⟨r, route, plain, rfl, -, -, -, horder⟩ |
    ⟨peer, raw, f, m, rfl, -, hmetric, rfl⟩
  · cases order with
    | page | probe | lookup query => exact fun m hm => absurd hm List.not_mem_nil
    | update m =>
        refine hone m ?_
        rcases order_eq_update horder with ⟨-, b, n, -, hn, hverified⟩ | ⟨kind, id, value, -, hpath⟩
        · obtain rfl := eq_of_verified hverified
          exact Metric.storable_of_decodeUpdate hn
        · obtain ⟨hm, hquery⟩ := pathMetric_eq_ok hpath
          exact Metric.storable_of_ofPath hm hquery
    | updateAll batch =>
        obtain ⟨-, b, ms, -, hms, hverified⟩ := order_eq_updateAll horder
        obtain rfl := eq_of_allVerified hverified
        exact Metric.storable_of_decodeBatch hms
  · obtain ⟨-, n, hn, hverified⟩ := frameMetric_eq_ok hmetric
    obtain rfl := eq_of_verified hverified
    exact hone n (Metric.storable_of_decodeUpdate hn)

/-! ## What is held -/

/-- A server in memory all of whose levels are finite. -/
def Sound (s : Server) : Prop := ∃ h, s.store = .memory h ∧ h.Finite

/-- What comes in leaves all levels finite. -/
theorem Sound.take {s : Server} (hs : s.Sound) (input : Input) : (s.take input).Sound := by
  obtain ⟨h, hstore, hh⟩ := hs
  have hwritten : ∀ batch, (∀ m ∈ batch, m.Storable) →
      s.store.updateAll batch = .ok (s.store.heed (s.orderOf input)) → (s.take input).Sound := by
    intro batch hbatch hupdate
    rw [hstore] at hupdate
    obtain ⟨k, hk, hheed⟩ := Result.map_eq_ok_iff.mp hupdate
    refine ⟨k, ?_, Memory.finite_updateAll hh (fun m hm => (hbatch m hm).finite) hk⟩
    rw [store_take, hstore, hheed]
  rcases s.store.heed_cases (s.orderOf input) with hkept | ⟨m, horder, hm⟩ | ⟨ms, horder, hms⟩
  · exact ⟨h, by rw [store_take, hkept, hstore], hh⟩
  · exact hwritten [m] (storable_written horder) hm
  · exact hwritten ms (storable_written horder) hms

theorem Sound.takeAll {s : Server} (hs : s.Sound) (inputs : List Input) :
    (s.takeAll inputs).Sound := by
  induction inputs generalizing s with
  | nil => exact hs
  | cons input rest ih => exact ih (hs.take input)

/-- A server that keeps no database begins with what its path shows, or with nothing. -/
theorem openStore_eq_reopen {s : Settings} (hs : s.dsn = none) (d : Disk) :
    openStore s d = .ok (.memory (Dumped.reopen s.storeFile s.restore d)) := by
  have hmemory : ∀ n store, Store.inMemory.restore s.storeFile d = .ok (n, store) →
      store = .memory store.held := by
    intro n store hrestore
    obtain ⟨ms, _, hrest⟩ := Result.bind_eq_ok_iff.mp hrestore
    obtain ⟨store, hreplace, hstore⟩ := Result.bind_eq_ok_iff.mp hrest
    cases hstore
    obtain ⟨k, _, rfl⟩ := Result.map_eq_ok_iff.mp hreplace
    rfl
  simp only [openStore, hs]
  cases hrestores : s.restore with
  | false => rfl
  | true =>
      cases hload : Store.inMemory.restore s.storeFile d with
      | error f =>
          simp only [if_true, Dumped.reopen, hload]
          rfl
      | ok loaded =>
          obtain ⟨n, store⟩ := loaded
          simp only [if_true, Dumped.reopen, hload]
          rw [← hmemory n store hload]

theorem Sound.start {settings : Settings} {d : Disk} {store : Store} {s : Server}
    (hdsn : settings.dsn = none) (hopen : openStore settings d = .ok store)
    (hmade : ofSettings settings store d = .ok s) : s.Sound := by
  rw [openStore_eq_reopen hdsn] at hopen
  obtain ⟨_, _, hrest⟩ := Result.bind_eq_ok_iff.mp hmade
  obtain ⟨_, _, hserver⟩ := Result.bind_eq_ok_iff.mp hrest
  cases hopen
  cases hserver
  exact ⟨_, rfl, Dumped.finite_reopen _ _ _⟩

/-- A server in memory refuses what it was asked to write only for a sum that is out of
range. -/
theorem obey_refusal {s : Server} (hs : s.Sound) {input : Input} {order : Order}
    (h : s.orderOf input = some order) (hwrites : order.written ≠ []) {f : Fault}
    (hf : s.store.obey order = .error f) : ∃ m ∈ order.written, f = Holdings.overflow m.id := by
  obtain ⟨held, hstore, -⟩ := hs
  have hcomplete : ∀ m ∈ order.written, ∃ r, m.reading = .ok r :=
    fun m hm => (storable_written h m hm).complete
  rw [hstore] at hf
  cases order with
  | page | probe | lookup query => exact absurd rfl hwrites
  | update m =>
      have hupdate := Result.map_eq_error_iff.mp hf
      rw [Memory.update_eq_updateAll] at hupdate
      exact Memory.updateAll_refusal hcomplete hupdate
  | updateAll batch => exact Memory.updateAll_refusal hcomplete (Result.map_eq_error_iff.mp hf)

/-- Whatever snapshot a server in memory began with and whatever came in since: the snapshot
brought only metrics that can be stored, and so does everything that comes in next, which is
refused only for a sum that is out of range; and what is held can be dumped wherever the disk
has room for a snapshot, and is restored from there as it was if its levels, which are all
finite, read back. -/
theorem store_survives {settings : Settings} {d : Disk} {store : Store} {s : Server}
    (hdsn : settings.dsn = none) (hopen : openStore settings d = .ok store)
    (hmade : ofSettings settings store d = .ok s) (inputs : List Input) :
    let t := s.takeAll inputs
    (∀ ms, Snapshot.load settings.storeFile d = .ok ms → ∀ m ∈ ms, m.Storable) ∧
      (∀ input, (t.take input).store = t.store.heed (t.orderOf input) ∧
        ∀ order, t.orderOf input = some order → (∀ m ∈ order.written, m.Storable) ∧
          ∀ f, order.written ≠ [] → t.store.obey order = .error f →
            ∃ m ∈ order.written, f = Holdings.overflow m.id) ∧
      ∃ h, t.store = .memory h ∧ h.Finite ∧ ∀ path e,
        (Snapshot.Possible path e → ∃ n e', t.store.dump path e = (.ok n, e')) ∧
        ∀ n e', t.store.dump path e = (.ok n, e') →
          n = h.counters.size + h.gauges.size ∧
            (h.ReadsBack → Store.inMemory.restore path e' = .ok (n, t.store)) := by
  intro t
  have ht : t.Sound := (Sound.start hdsn hopen hmade).takeAll inputs
  refine ⟨fun ms => Snapshot.storable_of_load, fun input => ⟨t.store_take input, fun order horder =>
    ⟨storable_written horder, fun f hwrites => obey_refusal ht horder hwrites⟩⟩, ?_⟩
  obtain ⟨h, hstore, hh⟩ := ht
  refine ⟨h, hstore, hh, fun path e => ⟨?_, fun n e' hdump => ?_⟩⟩
  · rw [hstore]
    exact Store.dump_isOk_iff.mpr
  · rw [hstore] at hdump ⊢
    exact ⟨Store.length_of_dump hdump, fun hback => Store.restore_dump hh hback hdump⟩

def memorySettings : Settings := { Settings.default with storeFile := "/m.json", restore := true }

/-- A disk with a snapshot of which one entry is a metric: a gauge at minus zero, under a name
with a control character. -/
def snapshotDisk : Disk :=
  Disk.empty.put ["m.json"] (.file (Bytes.ofText
    "[\x7b\"id\":\"\\u0007\",\"type\":\"gauge\",\"value\":-0.0\x7d,\x7b\"id\":\"b\"\x7d]"))

def snapshotServer : Server :=
  ⟨.memory (Dumped.reopen "/m.json" true snapshotDisk), none, none, none, .empty⟩

/-- The gauge and a counter that comes in are dumped to a place that has no directory yet, and
restored from there. -/
theorem store_survives_snapshotServer :
    memorySettings.dsn = none ∧
      openStore memorySettings snapshotDisk = .ok snapshotServer.store ∧
      ofSettings memorySettings snapshotServer.store snapshotDisk = .ok snapshotServer ∧
      let t := snapshotServer.takeAll
        [.request ⟨"POST", "/update/counter/a/-9223372036854775808", [], []⟩]
      t.store.held.counters.toList = [("a", Int64.minValue)] ∧
        t.store.held.gauges.toList = [("\x07", ⟨0x8000000000000000⟩)] ∧
        ∃ n e, t.store.dump "/n/m.json" snapshotDisk = (.ok n, e) ∧
          Store.inMemory.restore "/n/m.json" e = .ok (n, t.store) := by
  have hopen := openStore_eq_reopen (s := memorySettings) rfl snapshotDisk
  have hpossible : Snapshot.Possible "/n/m.json" snapshotDisk :=
    ⟨by decide +kernel, by decide +kernel, by decide +kernel⟩
  have hgauges : (snapshotServer.takeAll [.request ⟨"POST",
      "/update/counter/a/-9223372036854775808", [], []⟩]).store.held.gauges.toList =
        [("\x07", ⟨0x8000000000000000⟩)] := by decide +kernel
  refine ⟨rfl, hopen, rfl, by decide +kernel, hgauges, ?_⟩
  have hmade : ofSettings memorySettings snapshotServer.store snapshotDisk = .ok snapshotServer := rfl
  obtain ⟨-, -, h, hstore, -, hdisk⟩ := store_survives rfl hopen hmade
    [.request ⟨"POST", "/update/counter/a/-9223372036854775808", [], []⟩]
  have hback : h.ReadsBack := by
    rw [hstore] at hgauges
    change h.gauges.toList = _ at hgauges
    refine Holdings.readsBack_of_toList ?_
    rw [hgauges]
    decide +kernel
  obtain ⟨n, e, hdump⟩ := (hdisk "/n/m.json" snapshotDisk).1 hpossible
  exact ⟨n, e, hdump, ((hdisk _ _).2 n e hdump).2 hback⟩

end Server

end Telemetry
