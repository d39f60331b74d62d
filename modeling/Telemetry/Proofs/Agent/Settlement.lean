/-
Settlement.

What a delivery adds to the server and what settling takes off again are totals of
the metrics that were sent.  A listing holds each counter once, so its total is the
amount that was read.  Settling a metric takes exactly its increment off, as long as
that much is held (`Reporter.amount_settle`).

The order of metrics does not matter to their total, and places split into those that were
acknowledged and the others; so what was sent is what was settled and what is still to be.
-/
import Telemetry.Agent.Reporter
import Telemetry.Proofs.Store.Histories

namespace Telemetry

/-! ## Totals -/

namespace Metric

variable {id : String}

theorem total_append (ms ns : List Metric) : total id (ms ++ ns) = total id ms + total id ns := by
  induction ms with
  | nil => exact (Int.zero_add _).symm
  | cons m ms ih => rw [List.cons_append, total, total, ih, Int.add_assoc]

theorem total_perm {ms ns : List Metric} (h : ms.Perm ns) : total id ms = total id ns := by
  induction h with
  | nil => rfl
  | cons m _ ih => rw [total, total, ih]
  | swap m n ms => simp only [total]; omega
  | trans _ _ ih₁ ih₂ => rw [ih₁, ih₂]

theorem total_nonneg {ms : List Metric} (h : ∀ m ∈ ms, 0 ≤ m.increment id) : 0 ≤ total id ms := by
  induction ms with
  | nil => exact Int.le_refl 0
  | cons m ms ih =>
      have hm := h m List.mem_cons_self
      have hms := ih fun n hn => h n (List.mem_cons_of_mem m hn)
      rw [total]
      omega

theorem increment_counter (other : String) (n : Int64) :
    (counter other n).increment id = if other = id then n.toInt else 0 := by
  simp only [increment, counter, Reading.toMetric, true_and, Option.getD_some]

theorem increment_gauge (other : String) (x : Binary64) : (gauge other x).increment id = 0 := by
  simp only [increment, gauge, Reading.toMetric, reduceCtorEq, false_and, if_false]

theorem total_map_counter {l : List (String × Int64)}
    (hl : l.Pairwise fun a b => ¬ compare a.1 b.1 = .eq) :
    (∀ n, (id, n) ∈ l → total id (l.map fun x => counter x.1 x.2) = n.toInt) ∧
      ((∀ n, (id, n) ∉ l) → total id (l.map fun x => counter x.1 x.2) = 0) := by
  induction l with
  | nil => exact ⟨fun _ h => absurd h List.not_mem_nil, fun _ => rfl⟩
  | cons a l ih =>
      obtain ⟨other, amount⟩ := a
      obtain ⟨hfresh, hl⟩ := List.pairwise_cons.mp hl
      obtain ⟨hone, hnone⟩ := ih hl
      by_cases h : other = id
      · subst h
        have habsent : ∀ n, (other, n) ∉ l := fun n hn =>
          hfresh (other, n) hn Std.ReflOrd.compare_self
        constructor
        · intro n hn
          rcases List.mem_cons.mp hn with heq | hn
          · cases heq
            rw [List.map_cons, total, increment_counter, if_pos rfl, hnone habsent, Int.add_zero]
          · exact absurd hn (habsent n)
        · exact fun hall => absurd List.mem_cons_self (hall amount)
      · have hskip : total id (((other, amount) :: l).map fun x => counter x.1 x.2) =
            total id (l.map fun x => counter x.1 x.2) := by
          rw [List.map_cons, total, increment_counter, if_neg h, Int.zero_add]
        rw [hskip]
        constructor
        · intro n hn
          rcases List.mem_cons.mp hn with heq | hn
          · cases heq
            exact absurd rfl h
          · exact hone n hn
        · exact fun hall => hnone fun n hn => hall n (List.mem_cons_of_mem _ hn)

end Metric

namespace Holdings

variable (h : Holdings) (id : String)

theorem total_counterMetrics : Metric.total id h.counterMetrics = h.amount id := by
  obtain ⟨hone, hnone⟩ :=
    @Metric.total_map_counter id h.counters.toList Std.ExtTreeMap.distinct_keys_toList
  rw [counterMetrics, amount]
  cases hc : h.counters[id]? with
  | some n => exact hone n (Std.ExtTreeMap.mem_toList_iff_getElem?_eq_some.mpr hc)
  | none =>
      rw [Option.getD_none, Int64.toInt_zero]
      refine hnone fun n hn => ?_
      rw [Std.ExtTreeMap.mem_toList_iff_getElem?_eq_some.mp hn] at hc
      cases hc

theorem total_gaugeMetrics : Metric.total id h.gaugeMetrics = 0 := by
  rw [gaugeMetrics]
  induction h.gauges.toList with
  | nil => rfl
  | cons a l ih => rw [List.map_cons, Metric.total, Metric.increment_gauge, ih, Int.add_zero]

/-- A listing has the amounts of the moment at which the counters were read. -/
theorem total_listing (first second : Holdings) :
    Metric.total id (listing first second) = first.amount id := by
  rw [listing, Metric.total_append, total_counterMetrics, total_gaugeMetrics, Int.add_zero]

theorem increment_listing_nonneg {first second : Holdings} {id : String}
    (h : 0 ≤ first.amount id) : ∀ m ∈ listing first second, 0 ≤ m.increment id := by
  intro m hm
  rcases mem_listing_iff.mp hm with ⟨other, n, hn, rfl⟩ | ⟨other, x, _, rfl⟩
  · rw [Metric.increment_counter]
    split
    · rename_i heq
      subst heq
      rw [amount, hn] at h
      exact h
    · exact Int.le_refl 0
  · exact Int.le_of_eq (Metric.increment_gauge other x).symm

end Holdings

/-! ## The metrics at places -/

namespace Agent.Reporter

variable {id : String} (sent : List Metric)

theorem acknowledged_eq (places : List Nat) :
    acknowledged sent places = places.filterMap fun i => sent[i]? := by
  simp only [acknowledged, List.getElem?_toArray]

theorem mem_of_mem_acknowledged {places : List Nat} {m : Metric}
    (hm : m ∈ acknowledged sent places) : m ∈ sent := by
  rw [acknowledged_eq, List.mem_filterMap] at hm
  obtain ⟨i, _, hi⟩ := hm
  exact List.mem_of_getElem? hi

theorem acknowledged_range : acknowledged sent (List.range sent.length) = sent := by
  rw [acknowledged_eq]
  induction sent with
  | nil => rfl
  | cons m ms ih =>
      simp only [List.length_cons, List.range_succ_eq_map, List.filterMap_cons,
        List.getElem?_cons_zero, List.filterMap_map, Function.comp_def,
        List.getElem?_cons_succ, ih]

theorem total_acknowledged_split {places part : List Nat} (hplaces : places.Nodup)
    (hpart : part.Nodup) (hsub : part ⊆ places) :
    Metric.total id (acknowledged sent places) = Metric.total id (acknowledged sent part) +
      Metric.total id (acknowledged sent (places.filter (· ∉ part))) := by
  have hsplit : (part ++ places.filter (· ∉ part)).Nodup := by
    refine List.nodup_append.mpr ⟨hpart, hplaces.filter _, ?_⟩
    rintro i hi j hj rfl
    exact of_decide_eq_true (List.mem_filter.mp hj).2 hi
  have hperm : places.Perm (part ++ places.filter (· ∉ part)) := by
    rw [List.perm_ext_iff_of_nodup hplaces hsplit]
    intro i
    rw [List.mem_append, List.mem_filter]
    constructor
    · intro hi
      by_cases hmem : i ∈ part
      · exact .inl hmem
      · exact .inr ⟨hi, decide_eq_true hmem⟩
    · rintro (hi | hi)
      · exact hsub hi
      · exact hi.1
  rw [← Metric.total_append, acknowledged_eq, acknowledged_eq, acknowledged_eq,
    ← List.filterMap_append]
  exact Metric.total_perm (hperm.filterMap _)

/-! ## Taking off -/

variable {h : Holdings} {other : String} {n : Int64}

theorem takeOff_memory : takeOff (.memory h) other n =
    (if n = Int64.minValue then h.reset other else Memory.apply h other (.counter (-n))).map
      .memory := by
  rw [takeOff]
  split
  · rfl
  · rfl

theorem amount_takeOff_of_ne {t : Store} (ht : takeOff (.memory h) other n = .ok t)
    (hne : other ≠ id) : ∃ k, t = .memory k ∧ k.amount id = h.amount id := by
  rw [takeOff_memory] at ht
  obtain ⟨k, hk, rfl⟩ := Result.map_eq_ok_iff.mp ht
  refine ⟨k, rfl, ?_⟩
  split at hk
  · rw [Holdings.reset] at hk
    split at hk
    · cases hk
      rw [Holdings.amount_put_counter, if_neg hne]
    · exact nomatch hk
  · rw [Memory.amount_apply (r := (other, .counter (-n))) hk, Reading.increment, if_neg hne,
      Int.add_zero]

theorem amount_takeOff (hpos : 0 < n.toInt) (hheld : n.toInt ≤ h.amount id) :
    ∃ k, takeOff (.memory h) id n = .ok (.memory k) ∧ k.amount id = h.amount id - n.toInt := by
  have hmin : n ≠ Int64.minValue := by
    rintro rfl
    exact absurd hpos (by decide)
  have hneg : (-n).toInt = -n.toInt := Integer.toInt_neg hmin
  have hrange : Integer.InRange (h.amount id - n.toInt) := by
    have hlow := (Integer.inRange_toInt n).1
    have hhigh : h.amount id ≤ Int64.maxValue.toInt := (Integer.inRange_toInt _).2
    have hbelow : Int64.minValue.toInt ≤ 0 := by decide
    exact ⟨by omega, by omega⟩
  obtain ⟨left, hleft⟩ : ∃ left : Int64, left.toInt = h.amount id - n.toInt :=
    ⟨.ofInt _, Int64.toInt_ofInt_of_le (Integer.inRange_iff.mp hrange).1
      (Int.lt_of_le_of_lt (Integer.inRange_iff.mp hrange).2 (by decide))⟩
  have hsum : Memory.sum id (h.counters[id]?.getD 0) (-n) = .ok left := by
    rw [Memory.sum_eq_ok_iff, hleft, hneg, Holdings.amount]
    omega
  refine ⟨h.put id (.counter left), ?_, ?_⟩
  · rw [takeOff_memory, if_neg hmin, Memory.apply, hsum]
    rfl
  · rw [Holdings.amount_put_counter, if_pos rfl, hleft]

/-- Settling takes the increment of a metric off, if that much is held. -/
theorem amount_settle {m : Metric} (hgrows : 0 ≤ m.increment id)
    (hheld : m.increment id ≤ h.amount id) :
    ∃ k, settle (.memory h) m = .memory k ∧ k.amount id = h.amount id - m.increment id := by
  obtain ⟨other, kind, delta, value, hash⟩ := m
  rw [settle]
  split
  · rename_i n hkind hdelta
    obtain rfl : kind = .counter := hkind
    obtain rfl : delta = some n := hdelta
    have hincrement : (⟨other, .counter, some n, value, hash⟩ : Metric).increment id =
        if other = id then n.toInt else 0 := by
      simp only [Metric.increment, true_and, Option.getD_some]
    rw [hincrement] at hgrows hheld ⊢
    by_cases hzero : n = 0
    · subst hzero
      rw [if_pos rfl]
      refine ⟨h, rfl, ?_⟩
      split <;> simp
    · rw [if_neg hzero]
      by_cases hid : other = id
      · subst hid
        rw [if_pos rfl] at hgrows hheld ⊢
        have hpos : 0 < n.toInt := by
          have hne : n.toInt ≠ (0 : Int64).toInt := fun e => hzero (Int64.toInt.inj e)
          rw [Int64.toInt_zero] at hne
          omega
        obtain ⟨k, hk, hamount⟩ := amount_takeOff hpos hheld
        exact ⟨k, by rw [hk], hamount⟩
      · rw [if_neg hid, Int.sub_zero]
        cases ht : takeOff (.memory h) other n with
        | ok t =>
            obtain ⟨k, rfl, hk⟩ := amount_takeOff_of_ne ht hid
            exact ⟨k, rfl, hk⟩
        | error f => exact ⟨h, rfl, rfl⟩
  · rename_i hno
    have hincrement : (⟨other, kind, delta, value, hash⟩ : Metric).increment id = 0 := by
      rw [Metric.increment]
      split
      · rename_i hcounter
        cases delta with
        | none => rfl
        | some n => exact absurd rfl (hno n hcounter.1)
      · rfl
    exact ⟨h, rfl, by rw [hincrement, Int.sub_zero]⟩

end Agent.Reporter

end Telemetry
