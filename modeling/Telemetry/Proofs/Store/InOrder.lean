/-
A batch in memory, and its metrics one after the other.

A store in memory works out the sums of a batch beside what it holds, writes the counters first
and the gauges last.  None of this shows from outside.  A batch that cannot be taken comes to
nothing at all, gauges included; a batch that can leaves what its metrics leave one by one, also
where they name a counter more than once.  What is wrong with a batch is what is wrong with one
of its metrics: a metric that says nothing is found before any sum is worked out, so it speaks
before an overflow, wherever in the batch the two stand.

`Batched` lists the three cases, and they are what a batch comes to (`call_updateAll_iff`).
-/
import Telemetry.Proofs.Store.Apart

namespace Telemetry

/-! ## Metrics that are not complete -/

/-- A metric that carries the field of its kind and no other. -/
def Metric.Complete (m : Metric) : Prop :=
  match m.kind with
  | .counter => m.delta.isSome = true ∧ m.value = none
  | .gauge => m.delta = none ∧ m.value.isSome = true

theorem Metric.complete_iff {m : Metric} : m.Complete ↔ ∃ r, m.reading = .ok r := by
  obtain ⟨id, kind, delta, value, hash⟩ := m
  cases kind <;> cases delta <;> cases value <;> simp [Complete, reading]

namespace Holdings

theorem readings_eq_error_iff {ms : List Metric} {f : Fault} :
    readings ms = .error f ↔ ∃ earlier m rest, ms = earlier ++ m :: rest ∧
      (∀ n ∈ earlier, n.Complete) ∧ m.reading = .error f := by
  induction ms with
  | nil =>
      refine iff_of_false nofun ?_
      rintro ⟨earlier, m, rest, hms, -⟩
      cases earlier <;> cases hms
  | cons n ms ih =>
      rw [readings_cons, Result.bind_eq_error_iff]
      simp only [Result.map_eq_error_iff, ih]
      constructor
      · rintro (hn | ⟨r, hr, earlier, m, rest, rfl, hearlier, hm⟩)
        · exact ⟨[], n, ms, rfl, fun _ h => absurd h List.not_mem_nil, hn⟩
        · have hn := Metric.complete_iff.mpr ⟨r, hr⟩
          exact ⟨n :: earlier, m, rest, rfl, List.forall_mem_cons.mpr ⟨hn, hearlier⟩, hm⟩
      · rintro ⟨earlier, m, rest, hms, hearlier, hm⟩
        cases earlier with
        | nil =>
            cases hms
            exact .inl hm
        | cons p earlier =>
            cases hms
            obtain ⟨hp, hearlier⟩ := List.forall_mem_cons.mp hearlier
            obtain ⟨r, hr⟩ := Metric.complete_iff.mp hp
            exact .inr ⟨r, hr, earlier, m, rest, rfl, hearlier, hm⟩

theorem exists_readings_iff_complete {ms : List Metric} :
    (∃ rs, readings ms = .ok rs) ↔ ∀ m ∈ ms, m.Complete := by
  simp only [exists_readings_iff, Metric.complete_iff]

end Holdings

namespace Store

/-! ## A batch of complete metrics -/

/-- A batch of complete metrics comes to what its metrics come to in their order. -/
theorem updateAll_eq_foldlM {h : Holdings} {batch : List Metric}
    (hbatch : ∀ m ∈ batch, m.Complete) :
    (memory h).updateAll batch = batch.foldlM Store.update (memory h) := by
  induction batch generalizing h with
  | nil => rfl
  | cons m ms ih =>
      obtain ⟨-, hms⟩ := List.forall_mem_cons.mp hbatch
      obtain ⟨rs, hrs⟩ := Holdings.exists_readings_iff_complete.mpr hms
      rw [updateAll_cons (memory h) m hrs]
      change _ = ((memory h).update m).bind fun t => ms.foldlM Store.update t
      cases hm : (memory h).update m with
      | error f => rfl
      | ok t =>
          obtain ⟨k, -, rfl⟩ := Result.map_eq_ok_iff.mp hm
          exact ih hms

/-- A complete metric is refused for want of room, and for nothing else. -/
theorem update_eq_error_iff {h : Holdings} {m : Metric} (hm : m.Complete) {f : Fault} :
    (memory h).update m = .error f ↔ ¬h.HasRoom m ∧ f = Holdings.overflow m.id := by
  obtain ⟨r, hr⟩ := Metric.complete_iff.mp hm
  have hupdate : (memory h).update m = (Memory.apply h m.id r).map memory := by
    rw [update, Memory.update, hr, Result.bind_ok]
  rw [hupdate, Result.map_eq_error_iff]
  rcases Memory.apply_cases h hr with ⟨hroom, k, hk⟩ | ⟨hfull, hrefused⟩
  · rw [hk]
    exact iff_of_false (fun hok => by cases hok) fun hno => hno.1 hroom
  · rw [hrefused, Except.error.injEq]
    exact ⟨fun heq => ⟨hfull, heq.symm⟩, fun hno => hno.2.symm⟩

theorem foldlM_update_memory {h : Holdings} {ms : List Metric} {t : Store}
    (ht : ms.foldlM Store.update (memory h) = .ok t) : ∃ k, t = memory k := by
  induction ms generalizing h with
  | nil => exact ⟨h, (Except.ok.inj ht).symm⟩
  | cons m ms ih =>
      obtain ⟨u, hu, hrest⟩ := Result.bind_eq_ok_iff.mp ht
      obtain ⟨k, -, rfl⟩ := Result.map_eq_ok_iff.mp hu
      exact ih hrest

/-! ## Any batch -/

/-- What a batch comes to on a store in memory, by what its metrics come to in their order. -/
inductive Batched (h : Holdings) (batch : List Metric) : Result Yield × Store → Prop
  /-- Some metric is not complete: the first of them decides. -/
  | incomplete {earlier rest : List Metric} {m : Metric} {f : Fault} :
      batch = earlier ++ m :: rest → (∀ n ∈ earlier, n.Complete) → m.reading = .error f →
      Batched h batch (.error f, memory h)
  /-- Each metric is taken where those before it have left the store. -/
  | taken {t : Store} : (∀ m ∈ batch, m.Complete) →
      batch.foldlM Store.update (memory h) = .ok t → Batched h batch (.ok .done, t)
  /-- Some metric would take its counter out of range after those before it. -/
  | overflow {earlier rest : List Metric} {m : Metric} {k : Holdings} :
      (∀ m ∈ batch, m.Complete) → batch = earlier ++ m :: rest →
      earlier.foldlM Store.update (memory h) = .ok (memory k) → ¬k.HasRoom m →
      Batched h batch (.error (Holdings.overflow m.id), memory h)

theorem updateAll_of_incomplete {h : Holdings} {batch : List Metric} {f : Fault}
    (hf : Holdings.readings batch = .error f) :
    (memory h).call (.updateAll batch) = (.error f, memory h) := by
  rw [call, updateAll_eq, hf]
  rfl

theorem batched_updateAll (h : Holdings) (batch : List Metric) :
    Batched h batch ((memory h).call (.updateAll batch)) := by
  cases hreadings : Holdings.readings batch with
  | error f =>
      obtain ⟨earlier, m, rest, hbatch, hearlier, hm⟩ := Holdings.readings_eq_error_iff.mp hreadings
      rw [updateAll_of_incomplete hreadings]
      exact .incomplete hbatch hearlier hm
  | ok rs =>
      have hcomplete := Holdings.exists_readings_iff_complete.mp ⟨rs, hreadings⟩
      rw [call, updateAll_eq_foldlM hcomplete]
      cases hall : batch.foldlM Store.update (memory h) with
      | ok t => exact .taken hcomplete hall
      | error f =>
          obtain ⟨earlier, m, rest, t, hbatch, hearlier, hm⟩ := Result.foldlM_eq_error_iff.mp hall
          obtain ⟨k, rfl⟩ := foldlM_update_memory hearlier
          have hmem : m ∈ batch := hbatch ▸ List.mem_append_right earlier List.mem_cons_self
          obtain ⟨hfull, rfl⟩ := (update_eq_error_iff (hcomplete m hmem)).mp hm
          exact .overflow hcomplete hbatch hearlier hfull

/-- A batch is applied as a whole or not at all: what it yields, and the store after it, are
those of its metrics in their order if each of these is complete and is taken, and otherwise the
reason of the first that is not, and the store before. -/
theorem call_updateAll_iff (h : Holdings) (batch : List Metric) (out : Result Yield × Store) :
    (memory h).call (.updateAll batch) = out ↔ Batched h batch out := by
  constructor
  · rintro rfl
    exact batched_updateAll h batch
  · intro hout
    cases hout with
    | incomplete hbatch hearlier hm =>
        exact updateAll_of_incomplete
          (Holdings.readings_eq_error_iff.mpr ⟨_, _, _, hbatch, hearlier, hm⟩)
    | taken hcomplete hall =>
        rw [call, updateAll_eq_foldlM hcomplete, hall]
        rfl
    | @overflow earlier rest m k hcomplete hbatch hearlier hfull =>
        have hmem : m ∈ batch := hbatch ▸ List.mem_append_right earlier List.mem_cons_self
        have hm := (update_eq_error_iff (hcomplete m hmem)).mpr ⟨hfull, rfl⟩
        rw [call, updateAll_eq_foldlM hcomplete,
          Result.foldlM_eq_error_iff.mpr ⟨earlier, m, rest, _, hbatch, hearlier, hm⟩]
        rfl

/-- The sum that leaves the range in the middle would be back in it at the end. -/
example :
    let h := Holdings.empty.put "a" (.counter 1)
    let batch := [.gauge "a" ⟨0⟩, .counter "a" Int64.maxValue, .counter "b" 1, .counter "a" (-5)]
    ((memory h).call (.updateAll batch)).1 = .error (Holdings.overflow "a") ∧
      ((memory h).call (.updateAll batch.reverse)).1 = .ok .done := ⟨rfl, rfl⟩

end Store

end Telemetry
