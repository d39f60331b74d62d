/-
What is held, read back by identifier.

Two holdings are the same when they answer every look-up alike, so what an
operation does is said through look-ups: `put` touches one identifier of one
kind.  `Holdings.amount` is the integer that a counter stands for, zero where
there is no counter; sums of increments are sums of these integers.
-/
import Telemetry.Proofs.Fault
import Telemetry.Store.Memory

namespace Telemetry.Holdings

/-! ## Look-ups -/

@[simp] theorem counters_put_counter (h : Holdings) (id : String) (n : Int64) :
    (h.put id (.counter n)).counters = h.counters.insert id n := rfl

@[simp] theorem gauges_put_counter (h : Holdings) (id : String) (n : Int64) :
    (h.put id (.counter n)).gauges = h.gauges := rfl

@[simp] theorem counters_put_gauge (h : Holdings) (id : String) (x : Binary64) :
    (h.put id (.gauge x)).counters = h.counters := rfl

@[simp] theorem gauges_put_gauge (h : Holdings) (id : String) (x : Binary64) :
    (h.put id (.gauge x)).gauges = h.gauges.insert id x := rfl

theorem ext_getElem? {h k : Holdings} (hc : ∀ id : String, h.counters[id]? = k.counters[id]?)
    (hg : ∀ id : String, h.gauges[id]? = k.gauges[id]?) : h = k := by
  obtain ⟨hcs, hgs⟩ := h
  obtain ⟨kcs, kgs⟩ := k
  rw [Holdings.mk.injEq]
  exact ⟨Std.ExtTreeMap.ext_getElem? fun id => hc id, Std.ExtTreeMap.ext_getElem? fun id => hg id⟩

theorem getElem?_insert {β : Type} (t : Std.ExtTreeMap String β) (k a : String) (v : β) :
    (t.insert k v)[a]? = if k = a then some v else t[a]? := by
  rw [Std.ExtTreeMap.getElem?_insert]
  by_cases h : k = a
  · subst h
    rw [if_pos Std.ReflOrd.compare_self, if_pos rfl]
  · rw [if_neg (fun hc => h (Std.LawfulEqCmp.eq_of_compare hc)), if_neg h]

/-- A listing shows the counters of its first moment and the gauges of its second. -/
theorem mem_listing_iff {first second : Holdings} {m : Metric} :
    m ∈ listing first second ↔
      (∃ id n, first.counters[id]? = some n ∧ .counter id n = m) ∨
        ∃ id x, second.gauges[id]? = some x ∧ .gauge id x = m := by
  simp only [listing, counterMetrics, gaugeMetrics, List.mem_append, List.mem_map, Prod.exists,
    Std.ExtTreeMap.mem_toList_iff_getElem?_eq_some]

/-! ## Readings -/

@[simp] theorem readings_nil : readings [] = .ok [] := rfl

theorem readings_cons (m : Metric) (ms : List Metric) :
    readings (m :: ms) = m.reading.bind fun r => (readings ms).map ((m.id, r) :: ·) := by
  simp only [readings, List.mapM_cons]
  cases m.reading <;> rfl

theorem readings_cons_eq_ok_iff {m : Metric} {ms : List Metric} {rs : List (String × Reading)} :
    readings (m :: ms) = .ok rs ↔
      ∃ r rest, m.reading = .ok r ∧ readings ms = .ok rest ∧ rs = (m.id, r) :: rest := by
  rw [readings_cons, Result.bind_eq_ok_iff]
  constructor
  · rintro ⟨r, hr, h⟩
    obtain ⟨rest, hrest, rfl⟩ := Result.map_eq_ok_iff.mp h
    exact ⟨r, rest, hr, hrest, rfl⟩
  · rintro ⟨r, rest, hr, hrest, rfl⟩
    exact ⟨r, hr, Result.map_eq_ok_iff.mpr ⟨rest, hrest, rfl⟩⟩

theorem exists_readings_iff {ms : List Metric} :
    (∃ rs, readings ms = .ok rs) ↔ ∀ m ∈ ms, ∃ r, m.reading = .ok r := by
  induction ms with
  | nil => exact iff_of_true ⟨[], rfl⟩ nofun
  | cons m ms ih =>
      rw [List.forall_mem_cons, ← ih]
      simp only [readings_cons_eq_ok_iff]
      constructor
      · rintro ⟨_, r, rest, hr, hrest, rfl⟩
        exact ⟨⟨r, hr⟩, rest, hrest⟩
      · rintro ⟨⟨r, hr⟩, rest, hrest⟩
        exact ⟨_, r, rest, hr, hrest, rfl⟩

/-! ## Amounts -/

/-- The integer that a counter stands for; zero without one. -/
def amount (h : Holdings) (id : String) : Int := (h.counters[id]?.getD 0).toInt

theorem amount_put_counter (h : Holdings) (id other : String) (n : Int64) :
    (h.put id (.counter n)).amount other = if id = other then n.toInt else h.amount other := by
  rw [amount, counters_put_counter, getElem?_insert]
  split
  · rfl
  · rfl

@[simp] theorem amount_put_gauge (h : Holdings) (id other : String) (x : Binary64) :
    (h.put id (.gauge x)).amount other = h.amount other := rfl

end Telemetry.Holdings
