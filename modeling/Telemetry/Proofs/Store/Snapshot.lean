/-
Snapshots are read as they are written.

The octets of a snapshot hold everything that was captured and nothing else: decoding
them gives the metrics back (`Snapshot.decode?_encode`), and putting these into an empty
store gives what was held (`Holdings.replaceAll_metrics`).  Levels have to be finite,
since JSON has no others, and they have to be among those that read back.

Each entry is read as the metric that it was written for: names of fields are told apart, and the
draft of a complete metric makes this metric (`Snapshot.entry?_toJson`).  Complete metrics are
made from their readings, so writing the readings is writing what was held.
-/
import Telemetry.Proofs.Store.Batch
import Telemetry.Proofs.Wire.MetricJson
import Telemetry.Store.Snapshot

namespace Telemetry

/-- A metric as stores hold it: complete, with a finite level if it has one, and without an
empty signature. -/
structure Metric.Storable (m : Metric) : Prop where
  complete : ∃ r, m.reading = .ok r
  finite : m.Finite
  hash : m.hash ≠ some ""

theorem Json.arePlain_iff {items : List Json} :
    arePlain items = true ↔ ∀ j ∈ items, j.isPlain = true := by
  induction items with
  | nil => exact iff_of_true rfl nofun
  | cons j items ih => rw [arePlain, Bool.and_eq_true_iff, ih, List.forall_mem_cons]

namespace Snapshot

/-! ## Entries -/

theorem entry?_eq_some_iff_draft {j : Json} {m : Metric} :
    entry? j = some m ↔
      (∃ d, Draft.ofJson? (normalEntry j) = some d ∧ d.metric = .ok m) ∧ ∃ r, m.reading = .ok r := by
  have hmetric : (∃ d, Draft.ofJson? (normalEntry j) = some d ∧ d.metric = .ok m) ↔
      (Draft.ofJson? (normalEntry j)).map Draft.metric = some (.ok m) := Option.map_eq_some_iff.symm
  rw [hmetric, entry?]
  split
  · rename_i n hn
    rw [hn, Option.some.injEq, Except.ok.injEq]
    split
    · rename_i r hr
      rw [Option.some.injEq]
      exact ⟨fun h => ⟨h, r, h ▸ hr⟩, fun h => h.1⟩
    · rename_i f hf
      refine iff_of_false nofun ?_
      rintro ⟨rfl, r, hr⟩
      exact nomatch hf.symm.trans hr
  · rename_i hno
    exact iff_of_false nofun fun h => hno m h.1

theorem lastNamed_fields (m : Metric) : Json.lastNamed m.fields = m.fields := by
  cases hd : m.delta <;> cases hv : m.value <;> cases hh : m.hash <;>
    simp [Metric.fields, Json.present, Json.lastNamed, hd, hv, hh]

theorem normalEntry_toJson (m : Metric) : normalEntry m.toJson = m.toJson := by
  rw [Metric.toJson_eq, normalEntry, Json.named?_escapedFields, Option.getD_some,
    lastNamed_fields, Json.escapedFields]

theorem entry?_toJson {m : Metric} (hm : m.Storable) (hback : m.ReadsBack) :
    entry? m.toJson = some m := by
  refine entry?_eq_some_iff_draft.mpr ⟨⟨_, ?_, Draft.metric_eq hm.hash⟩, hm.complete⟩
  rw [normalEntry_toJson, Draft.ofJson?_of_readsBack hm.finite hback]

theorem entries?_encode {ms : List Metric} (hms : ∀ m ∈ ms, m.Finite)
    (hback : ∀ m ∈ ms, m.ReadsBack) :
    entries? (encode ms) = some (ms.map Metric.toJson) := by
  have hparse :
      Json.parseWithin? depthLimit (encode ms) = some (.array (ms.map Metric.toJson)) := by
    have hreads : ∀ j ∈ ms.map Metric.toJson, Json.Reader.Reads 1 j (j.indented 1) := by
      intro j hj
      obtain ⟨m, hm, rfl⟩ := List.mem_map.mp hj
      exact Metric.reads_toJson (hms m hm) 1
    exact Json.parseWithin?_indented_array hreads (by decide)
  have hplain : Json.arePlain (ms.map Metric.toJson) = true := by
    refine Json.arePlain_iff.mpr fun j hj => ?_
    obtain ⟨m, hm, rfl⟩ := List.mem_map.mp hj
    exact Metric.isPlain_toJson (hms m hm) (hback m hm)
  rw [entries?, hparse]
  simp only [hplain, if_true]

/-- A snapshot is read as it was written. -/
theorem decode?_encode {ms : List Metric} (hms : ∀ m ∈ ms, m.Storable)
    (hback : ∀ m ∈ ms, m.ReadsBack) : decode? (encode ms) = some ms := by
  rw [decode?, entries?_encode (fun m hm => (hms m hm).finite) hback, Option.map_some, Option.some.injEq, List.filterMap_map]
  calc ms.filterMap (fun m => entry? m.toJson) = ms.filterMap some :=
        List.filterMap_congr fun m hm => entry?_toJson (hms m hm) (hback m hm)
    _ = ms := List.filterMap_some

end Snapshot

/-! ## What is held -/

namespace Holdings

def Finite (h : Holdings) : Prop := ∀ (id : String) x, h.gauges[id]? = some x → x.isFinite = true

/-- All finite levels read back. -/
def ReadsBack (h : Holdings) : Prop :=
  ∀ (id : String) x, h.gauges[id]? = some x → x.isFinite = true → x.ReadsBack

theorem storable_metrics {h : Holdings} (hh : h.Finite) : ∀ m ∈ h.metrics, m.Storable := by
  intro m hm
  rcases mem_listing_iff.mp hm with ⟨id, n, _, rfl⟩ | ⟨id, x, hx, rfl⟩
  · exact ⟨⟨_, Metric.reading_toMetric id _⟩, nofun, nofun⟩
  · refine ⟨⟨_, Metric.reading_toMetric id _⟩, fun y hy => ?_, nofun⟩
    obtain rfl : x = y := Option.some.inj hy
    exact hh id x hx

theorem readsBack_of_toList {h : Holdings} (hlist : ∀ g ∈ h.gauges.toList, g.2.ReadsBack) :
    h.ReadsBack := fun _ _ hx _ => hlist _ (Std.ExtTreeMap.mem_toList_iff_getElem?_eq_some.mpr hx)

theorem readsBack_metrics {h : Holdings} (hh : h.ReadsBack) : ∀ m ∈ h.metrics, m.ReadsBack := by
  intro m hm
  rcases mem_listing_iff.mp hm with ⟨id, n, _, rfl⟩ | ⟨id, x, hx, rfl⟩
  · exact nofun
  · intro y hy
    obtain rfl : x = y := Option.some.inj hy
    exact hh id x hx

theorem readings_map_toMetric (rs : List (String × Reading)) :
    readings (rs.map fun r => r.2.toMetric r.1) = .ok rs := by
  induction rs with
  | nil => rfl
  | cons r rs ih =>
      obtain ⟨id, r⟩ := r
      have hid : (r.toMetric id).id = id := by cases r <;> rfl
      rw [List.map_cons, readings_cons, ih, Metric.reading_toMetric, Result.bind_ok, hid,
        Result.map_ok]

def allReadings (h : Holdings) : List (String × Reading) :=
  (h.counters.toList.map fun x => (x.1, .counter x.2)) ++
    h.gauges.toList.map fun x => (x.1, .gauge x.2)

theorem readings_metrics (h : Holdings) : readings h.metrics = .ok h.allReadings := by
  have hmetrics : h.metrics = h.allReadings.map fun r => r.2.toMetric r.1 := by
    rw [allReadings, List.map_append, List.map_map, List.map_map]
    rfl
  rw [hmetrics, readings_map_toMetric]

theorem foldl_put_gauge (l : List (String × Binary64)) (h : Holdings) :
    l.foldl (fun h x => h.put x.1 (.gauge x.2)) h = ⟨h.counters, h.gauges.insertMany l⟩ := by
  induction l generalizing h with
  | nil => rfl
  | cons x l ih => rw [List.foldl_cons, ih, Std.ExtTreeMap.insertMany_cons]; rfl

/-- Everything that is held, put into an empty store, makes what is held. -/
theorem replaceAll_metrics (h : Holdings) : Memory.replaceAll .empty h.metrics = .ok h := by
  rw [Memory.replaceAll, readings_metrics, Result.map_ok, allReadings, List.foldl_append,
    List.foldl_map, List.foldl_map, foldl_put_gauge, Memory.counters_foldl_put,
    Memory.gauges_foldl_put, Except.ok.injEq]
  refine ext_getElem? (fun id => ?_) fun id => ?_
  · rw [Memory.getElem?_insertMany_toList, empty, Std.ExtTreeMap.getElem?_empty, Option.or_none]
  · rw [Memory.getElem?_insertMany_toList, empty, Std.ExtTreeMap.getElem?_empty, Option.or_none]

end Holdings

end Telemetry
