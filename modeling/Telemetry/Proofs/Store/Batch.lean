/-
Batches.

A batch in memory is staged: sums beside the store, counters first, gauges last.
It comes to the same as applying its readings one after the other, and the rows
of a database change in just that way.  So there is one course of events for both,
`Memory.applyAll`, and what a batch does to a counter is read off it: the counter
grows by the exact sum of the increments that name it.

A batch has readings when each of its metrics is complete, and a single update is a batch of one
(`Memory.update_eq_updateAll`).  A complete metric adds what its reading adds, a batch the sum of
these.
-/
import Telemetry.Proofs.Store.Holdings
import Telemetry.Proofs.Text.Integer

namespace Telemetry

namespace Memory

theorem sum_eq_ok_iff {id : String} {a b n : Int64} :
    sum id a b = .ok n ↔ n.toInt = a.toInt + b.toInt := by
  rw [← Integer.toInt64?_eq_some_iff, sum]
  cases Integer.toInt64? (a.toInt + b.toInt) with
  | none => exact ⟨nofun, nofun⟩
  | some d => rw [Except.ok.injEq, Option.some.injEq]

/-! ## One reading after the other -/

def applyAll (h : Holdings) (rs : List (String × Reading)) : Result Holdings :=
  rs.foldlM (fun h r => apply h r.1 r.2) h

@[simp] theorem applyAll_nil (h : Holdings) : applyAll h [] = .ok h := rfl

theorem applyAll_cons (h : Holdings) (r : String × Reading) (rs : List (String × Reading)) :
    applyAll h (r :: rs) = (apply h r.1 r.2).bind fun h => applyAll h rs := by
  rw [applyAll, List.foldlM_cons]
  rfl

/-! ## What is written from the staged sums -/

theorem getElem?_insertMany_toList {β : Type} (t s : Std.ExtTreeMap String β) (id : String) :
    (t.insertMany s.toList)[id]? = s[id]?.or t[id]? := by
  cases hs : s[id]? with
  | some v =>
      have hmem : (id, v) ∈ s.toList := Std.ExtTreeMap.mem_toList_iff_getElem?_eq_some.mpr hs
      exact Std.ExtTreeMap.getElem?_insertMany_list_of_mem Std.ReflOrd.compare_self
        Std.ExtTreeMap.distinct_keys_toList hmem
  | none =>
      apply Std.ExtTreeMap.getElem?_insertMany_list_of_contains_eq_false
      rw [Bool.eq_false_iff, Ne, List.contains_iff_mem, List.mem_map]
      rintro ⟨⟨k, v⟩, hmem, rfl⟩
      rw [Std.ExtTreeMap.mem_toList_iff_getElem?_eq_some.mp hmem] at hs
      exact nomatch hs

theorem counters_foldl_put (l : List (String × Int64)) (h : Holdings) :
    (l.foldl (fun h x => h.put x.1 (.counter x.2)) h).counters = h.counters.insertMany l := by
  induction l generalizing h with
  | nil => rfl
  | cons x l ih =>
      rw [List.foldl_cons, ih, Std.ExtTreeMap.insertMany_cons, Holdings.counters_put_counter]

theorem gauges_foldl_put (l : List (String × Int64)) (h : Holdings) :
    (l.foldl (fun h x => h.put x.1 (.counter x.2)) h).gauges = h.gauges := by
  induction l generalizing h with
  | nil => rfl
  | cons x l ih => rw [List.foldl_cons, ih, Holdings.gauges_put_counter]

theorem getElem?_counters_putStaged (h : Holdings) (staged : Staged) (id : String) :
    (putStaged h staged).counters[id]? = staged[id]?.or h.counters[id]? := by
  rw [putStaged, counters_foldl_put, getElem?_insertMany_toList]

@[simp] theorem gauges_putStaged (h : Holdings) (staged : Staged) :
    (putStaged h staged).gauges = h.gauges := gauges_foldl_put _ _

/-! ## Staging is applying in order -/

/-- Readings applied in order to holdings that already show the staged sums.  The
sums go on from what is staged and come out in the counters; the gauges are
written meanwhile, so they are carried along in `k`. -/
theorem applyAll_of_staged (h k : Holdings) (rs : List (String × Reading)) (staged : Staged)
    (hk : ∀ id : String, k.counters[id]? = staged[id]?.or h.counters[id]?) :
    applyAll k rs = (rs.foldlM (stage h) staged).map fun staged' =>
      rs.foldl putGauge ⟨(putStaged h staged').counters, k.gauges⟩ := by
  induction rs generalizing k staged with
  | nil =>
      have hend : k = ⟨(putStaged h staged).counters, k.gauges⟩ :=
        Holdings.ext_getElem? (fun id => by rw [hk id, getElem?_counters_putStaged]) fun _ => rfl
      exact congrArg Except.ok hend
  | cons r rs ih =>
      obtain ⟨id, r⟩ := r
      rw [applyAll_cons, List.foldlM_cons]
      cases r with
      | counter d =>
          have hcur : k.counters[id]?.getD 0 = amount h staged id := by
            rw [hk id, amount]
            cases staged[id]? <;> rfl
          simp only [apply, stage, hcur, List.foldl_cons, putGauge]
          cases sum id (amount h staged id) d with
          | error e => rfl
          | ok n =>
              -- Both sides show the new sum now, so the rest begins as this reading did.
              refine ih (k.put id (.counter n)) (staged.insert id n) fun other => ?_
              rw [Holdings.counters_put_counter, Holdings.getElem?_insert,
                Holdings.getElem?_insert, hk other]
              split
              · rfl
              · rfl
      | gauge x =>
          simp only [apply, stage, List.foldl_cons, putGauge]
          exact ih (k.put id (.gauge x)) staged hk

/-- A batch as a whole is its readings in order. -/
theorem updateAll_eq (h : Holdings) (batch : List Metric) :
    updateAll h batch = (Holdings.readings batch).bind (applyAll h) := by
  rw [updateAll]
  cases Holdings.readings batch with
  | error f => rfl
  | ok rs =>
      have hstart : ∀ id : String, h.counters[id]? = (∅ : Staged)[id]?.or h.counters[id]? :=
        fun id => by rw [Std.ExtTreeMap.getElem?_empty]; rfl
      have horder := applyAll_of_staged h h rs ∅ hstart
      have hgauges : ∀ staged, (⟨(putStaged h staged).counters, h.gauges⟩ : Holdings) =
          putStaged h staged := fun staged => by rw [← gauges_putStaged h staged]
      simp only [hgauges] at horder
      exact horder.symm

/-- A single update is a batch of one. -/
theorem update_eq_updateAll (h : Holdings) (m : Metric) : update h m = updateAll h [m] := by
  rw [updateAll_eq, Holdings.readings_cons, update]
  cases m.reading with
  | error f => rfl
  | ok r =>
      change apply h m.id r = applyAll h [(m.id, r)]
      rw [applyAll_cons]
      cases apply h m.id r <;> rfl

end Memory

/-! ## What a batch adds to a counter -/

/-- What a reading adds to a counter. -/
def Reading.increment (id : String) : String × Reading → Int
  | (other, .counter d) => if other = id then d.toInt else 0
  | (_, .gauge _) => 0

def Reading.total (id : String) : List (String × Reading) → Int
  | [] => 0
  | r :: rs => increment id r + total id rs

def Metric.increment (id : String) (m : Metric) : Int :=
  if m.kind = .counter ∧ m.id = id then (m.delta.getD 0).toInt else 0

def Metric.total (id : String) : List Metric → Int
  | [] => 0
  | m :: ms => increment id m + total id ms

theorem Metric.increment_eq {m : Metric} {r : Reading} (hr : m.reading = .ok r) (id : String) :
    m.increment id = Reading.increment id (m.id, r) := by
  have hkind := kind_of_reading hr
  cases r with
  | counter d =>
      have hd : m.delta = some d := by
        rw [reading] at hr
        split at hr <;> cases hr
        assumption
      simp only [increment, Reading.increment, ← hkind, Reading.kind, hd, true_and,
        Option.getD_some]
  | gauge x =>
      simp only [increment, Reading.increment, ← hkind, Reading.kind, reduceCtorEq, false_and,
        if_false]

theorem Metric.total_eq {ms : List Metric} {rs : List (String × Reading)}
    (hrs : Holdings.readings ms = .ok rs) (id : String) : total id ms = Reading.total id rs := by
  induction ms generalizing rs with
  | nil => cases hrs; rfl
  | cons m ms ih =>
      obtain ⟨r, rest, hr, hrest, rfl⟩ := Holdings.readings_cons_eq_ok_iff.mp hrs
      rw [total, Reading.total, increment_eq hr, ih hrest]

namespace Memory

theorem amount_apply {h k : Holdings} {r : String × Reading} (hr : apply h r.1 r.2 = .ok k)
    (id : String) : k.amount id = h.amount id + Reading.increment id r := by
  obtain ⟨other, r⟩ := r
  cases r with
  | gauge x =>
      cases hr
      rw [Holdings.amount_put_gauge, Reading.increment, Int.add_zero]
  | counter d =>
      obtain ⟨n, hn, rfl⟩ := Result.map_eq_ok_iff.mp hr
      rw [Holdings.amount_put_counter, Reading.increment]
      split
      · rename_i h; subst h
        exact sum_eq_ok_iff.mp hn
      · rw [Int.add_zero]

theorem amount_applyAll {h k : Holdings} {rs : List (String × Reading)}
    (hrs : applyAll h rs = .ok k) (id : String) :
    k.amount id = h.amount id + Reading.total id rs := by
  induction rs generalizing h with
  | nil => cases hrs; exact (Int.add_zero _).symm
  | cons r rs ih =>
      rw [applyAll_cons, Result.bind_eq_ok_iff] at hrs
      obtain ⟨h', hr, hrest⟩ := hrs
      rw [ih hrest, amount_apply hr id, Reading.total, Int.add_assoc]

/-- A batch that is taken adds to each counter what it says. -/
theorem amount_updateAll {h k : Holdings} {batch : List Metric} (hb : updateAll h batch = .ok k)
    (id : String) : k.amount id = h.amount id + Metric.total id batch := by
  rw [updateAll_eq, Result.bind_eq_ok_iff] at hb
  obtain ⟨rs, hrs, hall⟩ := hb
  rw [amount_applyAll hall id, Metric.total_eq hrs id]

end Memory

end Telemetry
