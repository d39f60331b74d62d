/-
What is held is what was written.

A history of a store in memory is cut down to the calls that were not refused, and of these
only the writes are kept, one by one and in their order.  What is held of a counter is then a
matter of its writes alone: the amount that was assigned last, or nothing, and the exact sum of
what was added since (`Leaves`).  What is held of a gauge is the level that was written last.
A batch counts with each of its metrics, also when they name a counter more than once.

Both are shown for one reading first, then for the readings of a call and for a history; the
amount is carried along as an integer (`Holdings.counted?`), so no sum ever leaves its range
unnoticed.  Increments may change places, because integers are added in any order
(`Write.on_add_comm`).
-/
import Telemetry.Proofs.Store.Histories

namespace Telemetry

/-! ## Writes -/

/-- A write of a counter. -/
inductive Write where
  | assign (amount : Int64)
  | add (delta : Int64)

/-- The exact sum of increments. -/
def Write.sum : List Int64 → Int
  | [] => 0
  | d :: ds => d.toInt + sum ds

/-- The amount that writes leave, the oldest of them first. -/
inductive Leaves : List Write → Int → Prop
  | added (deltas : List Int64) : Leaves (deltas.map .add) (Write.sum deltas)
  | assigned (earlier : List Write) (amount : Int64) (deltas : List Int64) :
      Leaves (earlier ++ .assign amount :: deltas.map .add) (amount.toInt + Write.sum deltas)

namespace Write

/-- What is held after a write; before the first one nothing is. -/
def on (held : Option Int) : Write → Option Int
  | assign amount => some amount.toInt
  | add delta => some (held.getD 0 + delta.toInt)

theorem on_add_comm (held : Option Int) (d e : Int64) :
    ((add e).on ((add d).on held)) = (add d).on ((add e).on held) := by
  simp only [on, Option.getD_some]
  rw [Int.add_assoc, Int.add_assoc, Int.add_comm d.toInt]

theorem foldl_on_eq_none_iff {held : Option Int} {ws : List Write} :
    ws.foldl on held = none ↔ ws = [] ∧ held = none := by
  induction ws generalizing held with
  | nil => simp
  | cons w ws ih =>
      have hsome : w.on held ≠ none := by cases w <;> exact nofun
      rw [List.foldl_cons, ih]
      simp [hsome]

/-- What writes leave on top of what is held: either they assign an amount, or they only add. -/
theorem foldl_on_cases {held : Option Int} {ws : List Write} {n : Int}
    (h : ws.foldl on held = some n) :
    (∃ deltas, ws = deltas.map add ∧ n = held.getD 0 + sum deltas) ∨
      ∃ earlier amount deltas, ws = earlier ++ assign amount :: deltas.map add ∧
        n = amount.toInt + sum deltas := by
  induction ws generalizing held with
  | nil =>
      obtain rfl : held = some n := h
      exact .inl ⟨[], rfl, (Int.add_zero n).symm⟩
  | cons w ws ih =>
      -- the first write only counts where the others do nothing but add
      rcases ih h with ⟨deltas, rfl, hn⟩ | ⟨earlier, amount, deltas, rfl, hn⟩
      · cases w with
        | assign amount => exact .inr ⟨[], amount, deltas, rfl, hn⟩
        | add d => exact .inl ⟨d :: deltas, rfl, hn.trans (Int.add_assoc _ _ _)⟩
      · exact .inr ⟨w :: earlier, amount, deltas, rfl, hn⟩

theorem getD_foldl_add (held : Option Int) (deltas : List Int64) :
    ((deltas.map add).foldl on held).getD 0 = held.getD 0 + sum deltas := by
  induction deltas generalizing held with
  | nil => exact (Int.add_zero _).symm
  | cons d deltas ih =>
      rw [List.map_cons, List.foldl_cons, ih]
      exact Int.add_assoc _ _ _

theorem leaves_iff {ws : List Write} {n : Int} (h : ws.foldl on none = some n) (a : Int) :
    Leaves ws a ↔ n = a := by
  constructor
  · intro ha
    have hleft : (ws.foldl on none).getD 0 = a := by
      cases ha with
      | added deltas =>
          rw [getD_foldl_add]
          exact Int.zero_add _
      | assigned earlier amount deltas =>
          rw [List.foldl_append, List.foldl_cons, getD_foldl_add]
          rfl
    rw [h] at hleft
    exact hleft
  · rintro rfl
    rcases foldl_on_cases h with ⟨deltas, rfl, hn⟩ | ⟨earlier, amount, deltas, rfl, rfl⟩
    · rw [hn, Option.getD_none, Int.zero_add]
      exact .added deltas
    · exact .assigned earlier amount deltas

end Write

/-! ## What metrics and calls write -/

/-- The amount that a metric brings to a counter. -/
def Metric.amounts (id : String) (m : Metric) : List Int64 :=
  if m.kind = .counter ∧ m.id = id then m.delta.toList else []

/-- The level that a metric brings to a gauge. -/
def Metric.levels (id : String) (m : Metric) : List Binary64 :=
  if m.kind = .gauge ∧ m.id = id then m.value.toList else []

namespace Call

/-- What a call writes of a counter unless it is refused. -/
def writes (id : String) : Call → List Write
  | update m => (m.amounts id).map .add
  | updateAll ms => (ms.flatMap (Metric.amounts id)).map .add
  | replaceAll ms => (ms.flatMap (Metric.amounts id)).map .assign
  | reset other => if other = id then [.assign 0] else []
  | lookup _ | metrics => []

def levels (id : String) (c : Call) : List Binary64 := c.written.flatMap (Metric.levels id)

/-- The calls of a history that were not refused, by what each of them yielded. -/
def granted (calls : List Call) (ys : List (Result Yield)) : List Call :=
  (calls.zip ys).filterMap fun (c, y) => y.toOption.map fun _ => c

/-- A call that adds to counters and sets none. -/
def Adds : Call → Prop
  | update _ | updateAll _ => True
  | _ => False

end Call

/-! ## Readings -/

namespace Reading

def amounts (id : String) : String × Reading → List Int64
  | (other, .counter n) => if other = id then [n] else []
  | (_, .gauge _) => []

def levels (id : String) : String × Reading → List Binary64
  | (_, .counter _) => []
  | (other, .gauge x) => if other = id then [x] else []

end Reading

theorem Metric.amounts_eq {m : Metric} {r : Reading} (hr : m.reading = .ok r) (id : String) :
    m.amounts id = Reading.amounts id (m.id, r) ∧ m.levels id = Reading.levels id (m.id, r) := by
  have hkind := kind_of_reading hr
  unfold reading at hr
  split at hr <;> cases hr
  · rename_i hm hd _
    simp [amounts, levels, Reading.amounts, Reading.levels, hm, hd]
  · rename_i hm _ hv
    simp [amounts, levels, Reading.amounts, Reading.levels, hm, hv]

theorem Holdings.flatMap_of_readings {ms : List Metric} {rs : List (String × Reading)}
    (hrs : readings ms = .ok rs) (id : String) :
    ms.flatMap (Metric.amounts id) = rs.flatMap (Reading.amounts id) ∧
      ms.flatMap (Metric.levels id) = rs.flatMap (Reading.levels id) := by
  induction ms generalizing rs with
  | nil => cases hrs; exact ⟨rfl, rfl⟩
  | cons m ms ih =>
      obtain ⟨r, rest, hr, hrest, rfl⟩ := readings_cons_eq_ok_iff.mp hrs
      obtain ⟨hamounts, hlevels⟩ := ih hrest
      obtain ⟨hamount, hlevel⟩ := Metric.amounts_eq hr id
      simp only [List.flatMap_cons, hamounts, hlevels, hamount, hlevel, and_self]

/-! ## What is held -/

namespace Holdings

/-- The integer that is held of a counter, if there is this counter. -/
def counted? (h : Holdings) (id : String) : Option Int := h.counters[id]?.map Int64.toInt

theorem counted?_put_counter (h : Holdings) (other id : String) (n : Int64) :
    (h.put other (.counter n)).counted? id =
      if other = id then some n.toInt else h.counted? id := by
  rw [counted?, counters_put_counter, getElem?_insert]
  split <;> rfl

theorem getD_counted? (h : Holdings) (id : String) : (h.counted? id).getD 0 = h.amount id := by
  rw [counted?, amount]
  cases h.counters[id]? <;> rfl

theorem counters_eq_of_counted? {h k : Holdings} (hc : ∀ id, h.counted? id = k.counted? id) :
    h.counters = k.counters := by
  refine Std.ExtTreeMap.ext_getElem? fun id => ?_
  exact Option.map_injective (fun _ _ => Int64.toInt_inj.mp) (hc id)

/-- Holdings become others by the writes of the counter and of the gauge of one identifier. -/
structure Becomes (h k : Holdings) (id : String) (ws : List Write) (xs : List Binary64) : Prop where
  counter : k.counted? id = ws.foldl Write.on (h.counted? id)
  gauge : k.gauges[id]? = xs.getLast?.or h.gauges[id]?

namespace Becomes

variable {h k l : Holdings} {id : String} {ws vs : List Write} {xs ys : List Binary64}

theorem refl (h : Holdings) (id : String) : Becomes h h id [] [] := ⟨rfl, rfl⟩

theorem trans (hk : Becomes h k id ws xs) (hl : Becomes k l id vs ys) :
    Becomes h l id (ws ++ vs) (xs ++ ys) := by
  refine ⟨?_, ?_⟩
  · rw [hl.counter, hk.counter, List.foldl_append]
  · rw [hl.gauge, hk.gauge, List.getLast?_append, Option.or_assoc]

theorem put (h : Holdings) (r : String × Reading) (id : String) :
    Becomes h (h.put r.1 r.2) id ((Reading.amounts id r).map .assign) (Reading.levels id r) := by
  obtain ⟨other, r⟩ := r
  cases r with
  | counter n =>
      refine ⟨?_, rfl⟩
      rw [counted?_put_counter, Reading.amounts]
      split <;> rfl
  | gauge x =>
      refine ⟨rfl, ?_⟩
      rw [gauges_put_gauge, getElem?_insert, Reading.levels]
      split <;> rfl

theorem apply {r : String × Reading} (hr : Memory.apply h r.1 r.2 = .ok k) (id : String) :
    Becomes h k id ((Reading.amounts id r).map .add) (Reading.levels id r) := by
  obtain ⟨other, r⟩ := r
  cases r with
  | counter d =>
      obtain ⟨n, hn, rfl⟩ := Result.map_eq_ok_iff.mp hr
      refine ⟨?_, rfl⟩
      rw [counted?_put_counter, Reading.amounts]
      split
      · rename_i hid
        subst hid
        -- a counter that is not there yet counts as zero, in the sum as in the write
        have hsum : n.toInt = (h.counted? other).getD 0 + d.toInt := by
          rw [getD_counted?]
          exact Memory.sum_eq_ok_iff.mp hn
        rw [hsum]
        rfl
      · rfl
  | gauge x =>
      cases hr
      exact put h (other, .gauge x) id

theorem putAll (h : Holdings) (rs : List (String × Reading)) (id : String) :
    Becomes h (rs.foldl (fun h r => h.put r.1 r.2) h) id
      ((rs.flatMap (Reading.amounts id)).map .assign) (rs.flatMap (Reading.levels id)) := by
  induction rs generalizing h with
  | nil => exact refl h id
  | cons r rs ih =>
      rw [List.flatMap_cons, List.flatMap_cons, List.map_append]
      exact (put h r id).trans (ih (h.put r.1 r.2))

theorem applyAll {rs : List (String × Reading)} (hrs : Memory.applyAll h rs = .ok k)
    (id : String) :
    Becomes h k id ((rs.flatMap (Reading.amounts id)).map .add)
      (rs.flatMap (Reading.levels id)) := by
  induction rs generalizing h with
  | nil => cases hrs; exact refl _ id
  | cons r rs ih =>
      rw [Memory.applyAll_cons, Result.bind_eq_ok_iff] at hrs
      obtain ⟨h', hr, hrest⟩ := hrs
      rw [List.flatMap_cons, List.flatMap_cons, List.map_append]
      exact (apply hr id).trans (ih hrest)

theorem updateAll {batch : List Metric} (hb : Memory.updateAll h batch = .ok k) (id : String) :
    Becomes h k id ((Call.updateAll batch).writes id) ((Call.updateAll batch).levels id) := by
  rw [Memory.updateAll_eq, Result.bind_eq_ok_iff] at hb
  obtain ⟨rs, hrs, hall⟩ := hb
  obtain ⟨hamounts, hlevels⟩ := flatMap_of_readings hrs id
  rw [Call.writes, Call.levels, Call.written, hamounts, hlevels]
  exact applyAll hall id

theorem replaceAll {ms : List Metric} (hms : Memory.replaceAll h ms = .ok k) (id : String) :
    Becomes h k id ((Call.replaceAll ms).writes id) ((Call.replaceAll ms).levels id) := by
  obtain ⟨rs, hrs, rfl⟩ := Result.map_eq_ok_iff.mp hms
  obtain ⟨hamounts, hlevels⟩ := flatMap_of_readings hrs id
  rw [Call.writes, Call.levels, Call.written, hamounts, hlevels]
  exact putAll h rs id

theorem reset {other : String} (hreset : h.reset other = .ok k) (id : String) :
    Becomes h k id ((Call.reset other).writes id) ((Call.reset other).levels id) := by
  rw [Holdings.reset] at hreset
  split at hreset
  · cases hreset
    refine ⟨?_, rfl⟩
    rw [counted?_put_counter, Call.writes]
    split <;> rfl
  · cases hreset

end Becomes

/-! ## What is shown -/

theorem lookup_counter (h : Holdings) (id : String) :
    h.lookup (.query id .counter) = match h.counters[id]? with
      | some n => .ok (.counter id n)
      | none => .error (.notFound ("counter " ++ id)) := by
  rw [lookup, Metric.query, reading?]
  cases h.counters[id]? <;> rfl

theorem lookup_gauge (h : Holdings) (id : String) :
    h.lookup (.query id .gauge) = match h.gauges[id]? with
      | some x => .ok (.gauge id x)
      | none => .error (.notFound ("gauge " ++ id)) := by
  rw [lookup, Metric.query, reading?]
  cases h.gauges[id]? <;> rfl

theorem mem_metrics_iff {h : Holdings} {m : Metric} :
    m ∈ h.metrics ↔ h.lookup (.query m.id m.kind) = .ok m := by
  rw [metrics, mem_listing_iff]
  constructor
  · rintro (⟨id, n, hn, rfl⟩ | ⟨id, x, hx, rfl⟩)
    · show h.lookup (.query id .counter) = _
      rw [lookup_counter, hn]
    · show h.lookup (.query id .gauge) = _
      rw [lookup_gauge, hx]
  · obtain ⟨id, kind, delta, value, hash⟩ := m
    intro hm
    cases kind with
    | counter =>
        rw [lookup_counter] at hm
        split at hm
        · rename_i n hn
          exact .inl ⟨id, n, hn, Except.ok.inj hm⟩
        · cases hm
    | gauge =>
        rw [lookup_gauge] at hm
        split at hm
        · rename_i x hx
          exact .inr ⟨id, x, hx, Except.ok.inj hm⟩
        · cases hm

theorem nodup_metrics (h : Holdings) : (h.metrics.map fun m => (m.kind, m.id)).Nodup := by
  have hpart : ∀ {β : Type} (t : Std.ExtTreeMap String β) (kind : Kind),
      (t.toList.map fun x => (kind, x.1)).Nodup := by
    intro β t kind
    refine List.pairwise_map.mpr (Std.ExtTreeMap.distinct_keys_toList.imp ?_)
    intro a b hab heq
    have hid : a.1 = b.1 := congrArg Prod.snd heq
    exact hab (hid ▸ Std.ReflOrd.compare_self)
  have hparts : h.metrics.map (fun m => (m.kind, m.id)) =
      (h.counters.toList.map fun x => (Kind.counter, x.1)) ++
        h.gauges.toList.map fun x => (Kind.gauge, x.1) := by
    rw [metrics, listing, List.map_append, counterMetrics, gaugeMetrics, List.map_map, List.map_map]
    rfl
  rw [hparts, List.nodup_append]
  refine ⟨hpart h.counters .counter, hpart h.gauges .gauge, ?_⟩
  intro a ha b hb heq
  obtain ⟨x, -, rfl⟩ := List.mem_map.mp ha
  obtain ⟨y, -, rfl⟩ := List.mem_map.mp hb
  cases congrArg Prod.fst heq

end Holdings

/-! ## Histories -/

namespace Store

/-- A call on a store in memory is refused and changes nothing, or makes its writes. -/
theorem call_memory (h : Holdings) (c : Call) :
    (∃ f, (memory h).call c = (.error f, memory h)) ∨
      ∃ y k, (memory h).call c = (.ok y, memory k) ∧
        ∀ id, h.Becomes k id (c.writes id) (c.levels id) := by
  have hafter : ∀ r : Result Holdings,
      (∀ k, r = .ok k → ∀ id, h.Becomes k id (c.writes id) (c.levels id)) →
      (∃ f, (memory h).after (r.map memory) = (.error f, memory h)) ∨
        ∃ y k, (memory h).after (r.map memory) = (.ok y, memory k) ∧
          ∀ id, h.Becomes k id (c.writes id) (c.levels id) := by
    intro r hr
    cases r with
    | error f => exact .inl ⟨f, rfl⟩
    | ok k => exact .inr ⟨.done, k, rfl, hr k rfl⟩
  cases c with
  | lookup query =>
      cases hq : h.lookup query with
      | error f => exact .inl ⟨f, by rw [call, lookup, hq]; rfl⟩
      | ok m => exact .inr ⟨.metric m, h, by rw [call, lookup, hq]; rfl, .refl h⟩
  | metrics => exact .inr ⟨.metrics h.metrics, h, rfl, .refl h⟩
  | update m =>
      refine hafter (Memory.update h m) fun k hk id => ?_
      rw [Memory.update_eq_updateAll] at hk
      have hone : (Call.update m).writes id = (Call.updateAll [m]).writes id := by
        rw [Call.writes, Call.writes, List.flatMap_singleton]
      rw [hone]
      exact .updateAll hk id
  | updateAll batch => exact hafter (Memory.updateAll h batch) fun k hk id => .updateAll hk id
  | reset other => exact hafter (h.reset other) fun k hk id => .reset hk id
  | replaceAll ms => exact hafter (Memory.replaceAll h ms) fun k hk id => .replaceAll hk id

theorem history_memory (h : Holdings) (calls : List Call) :
    ∃ k, ((memory h).history calls).2 = memory k ∧
      ∀ id, h.Becomes k id
        ((Call.granted calls ((memory h).history calls).1).flatMap (Call.writes id))
        ((Call.granted calls ((memory h).history calls).1).flatMap (Call.levels id)) := by
  induction calls generalizing h with
  | nil => exact ⟨h, rfl, .refl h⟩
  | cons c rest ih =>
      rcases call_memory h c with ⟨f, hcall⟩ | ⟨y, k, hcall, hwrites⟩
      · -- what is refused is left out
        obtain ⟨l, hl, hrest⟩ := ih h
        simp only [history, hcall]
        exact ⟨l, hl, hrest⟩
      · obtain ⟨l, hl, hrest⟩ := ih k
        simp only [history, hcall]
        exact ⟨l, hl, fun id => (hwrites id).trans (hrest id)⟩

/-- Where no call is refused, all of them are granted. -/
theorem granted_history {s : Store} {calls : List Call}
    (hall : ∀ y ∈ (s.history calls).1, ∃ v, y = .ok v) :
    Call.granted calls (s.history calls).1 = calls := by
  induction calls generalizing s with
  | nil => rfl
  | cons c rest ih =>
      rcases hcall : s.call c with ⟨y, t⟩
      have hhistory : (s.history (c :: rest)).1 = y :: (t.history rest).1 := by
        simp only [history, hcall]
      rw [hhistory] at hall ⊢
      obtain ⟨v, rfl⟩ := hall y List.mem_cons_self
      have hrest := ih fun y hy => hall y (List.mem_cons_of_mem _ hy)
      exact congrArg (c :: ·) hrest

/-- Increments that are all granted leave the same counters in any order. -/
theorem counters_history_perm {h : Holdings} {first second : List Call} (hperm : first.Perm second)
    (hadds : ∀ c ∈ first, c.Adds)
    (hfirst : ∀ y ∈ ((memory h).history first).1, ∃ v, y = .ok v)
    (hsecond : ∀ y ∈ ((memory h).history second).1, ∃ v, y = .ok v) :
    ((memory h).history first).2.held.counters =
      ((memory h).history second).2.held.counters := by
  obtain ⟨k, hk, hwrites⟩ := history_memory h first
  obtain ⟨l, hl, hothers⟩ := history_memory h second
  rw [granted_history hfirst] at hwrites
  rw [granted_history hsecond] at hothers
  rw [hk, hl]
  refine Holdings.counters_eq_of_counted? fun id => ?_
  have hadd : ∀ w ∈ first.flatMap (Call.writes id), ∃ d, w = .add d := by
    intro w hw
    obtain ⟨c, hc, hmem⟩ := List.mem_flatMap.mp hw
    have hadd := hadds c hc
    cases c with
    | update m | updateAll ms =>
        obtain ⟨d, -, rfl⟩ := List.mem_map.mp hmem
        exact ⟨d, rfl⟩
    | lookup query | metrics | reset other | replaceAll ms => exact hadd.elim
  show k.counted? id = l.counted? id
  rw [(hwrites id).counter, (hothers id).counter]
  refine (hperm.flatMap_right _).foldl_eq' ?_ _
  intro v hv w hw held
  obtain ⟨d, rfl⟩ := hadd v hv
  obtain ⟨e, rfl⟩ := hadd w hw
  exact Write.on_add_comm held d e

/-- After any calls, a counter is found just when a call that was granted wrote it, and holds
what these writes leave; a gauge holds the last level that was written; a listing shows each of
them once.  Two orders of the same increments of which none is refused leave the same counters. -/
theorem held_is_written (calls : List Call) :
    let s := (inMemory.history calls).2
    let done := Call.granted calls (inMemory.history calls).1
    (∀ id,
      (s.lookup (.query id .counter) = .error (.notFound ("counter " ++ id)) ↔
        done.flatMap (Call.writes id) = []) ∧
      (done.flatMap (Call.writes id) ≠ [] →
        ∃ n, s.lookup (.query id .counter) = .ok (.counter id n) ∧
          ∀ a, Leaves (done.flatMap (Call.writes id)) a ↔ n.toInt = a)) ∧
    (∀ id, s.lookup (.query id .gauge) = match (done.flatMap (Call.levels id)).getLast? with
      | some x => .ok (.gauge id x)
      | none => .error (.notFound ("gauge " ++ id))) ∧
    (∃ ms, s.metrics = .ok ms ∧ (ms.map fun m => (m.kind, m.id)).Nodup ∧
      ∀ m, m ∈ ms ↔ s.lookup (.query m.id m.kind) = .ok m) ∧
    ∀ first second : List Call, first.Perm second → (∀ c ∈ first, c.Adds) →
      (∀ y ∈ (s.history first).1, ∃ v, y = .ok v) →
      (∀ y ∈ (s.history second).1, ∃ v, y = .ok v) →
        (s.history first).2.held.counters = (s.history second).2.held.counters := by
  intro s done
  obtain ⟨k, hk, hwrites⟩ := history_memory .empty calls
  have hs : s = memory k := hk
  rw [hs]
  refine ⟨fun id => ?_, fun id => ?_, ⟨k.metrics, rfl, k.nodup_metrics, ?_⟩, ?_⟩
  · have hcounter : k.counted? id = (done.flatMap (Call.writes id)).foldl Write.on none :=
      (hwrites id).counter
    show (k.lookup (.query id .counter) = _ ↔ _) ∧ (_ → ∃ n, k.lookup _ = _ ∧ _)
    rw [Holdings.lookup_counter]
    cases hc : k.counters[id]? with
    | none =>
        rw [Holdings.counted?, hc] at hcounter
        have hnone := (Write.foldl_on_eq_none_iff.mp hcounter.symm).1
        exact ⟨iff_of_true rfl hnone, fun hne => absurd hnone hne⟩
    | some n =>
        rw [Holdings.counted?, hc] at hcounter
        have hne : done.flatMap (Call.writes id) ≠ [] := by
          intro hnil
          rw [hnil] at hcounter
          cases hcounter
        exact ⟨iff_of_false nofun hne, fun _ => ⟨n, rfl, Write.leaves_iff hcounter.symm⟩⟩
  · have hgauge : k.gauges[id]? = (done.flatMap (Call.levels id)).getLast?.or none :=
      (hwrites id).gauge
    show k.lookup (.query id .gauge) = _
    rw [Holdings.lookup_gauge, hgauge, Option.or_none]
  · exact fun m => Holdings.mem_metrics_iff
  · exact fun first second hperm hadds => counters_history_perm hperm hadds

/-- Writes of one counter and one gauge; the sum that leaves the range and the counter without a
delta are refused. -/
def sampleWrites : List Call :=
  [.update (.counter "a" 5), .reset "a",
    .updateAll [.counter "a" 2, .gauge "a" ⟨0⟩, .counter "a" 2],
    .updateAll [.gauge "a" ⟨1⟩, .counter "a" Int64.maxValue], .update (.query "a" .counter)]

theorem held_is_written_sample :
    let s := (inMemory.history sampleWrites).2
    let first := [Call.update (.counter "a" (-3)), .updateAll [.counter "b" 1, .counter "a" 1]]
    Call.granted sampleWrites (inMemory.history sampleWrites).1 = sampleWrites.take 3 ∧
      s.lookup (.query "a" .counter) = .ok (.counter "a" 4) ∧
      Leaves [.add 5, .assign 0, .add 2, .add 2] 4 ∧
      s.lookup (.query "a" .gauge) = .ok (.gauge "a" ⟨0⟩) ∧
      s.lookup (.query "b" .counter) = .error (.notFound "counter b") ∧
      first.Perm first.reverse ∧ (∀ c ∈ first, c.Adds) ∧
      (s.history first).1 = [.ok .done, .ok .done] ∧
      (s.history first.reverse).1 = [.ok .done, .ok .done] ∧
      (s.history first).2.held.counters = (s.history first.reverse).2.held.counters := by
  intro s first
  have hdone : Call.granted sampleWrites (inMemory.history sampleWrites).1 =
      sampleWrites.take 3 := rfl
  have hperm : first.Perm first.reverse := (List.reverse_perm first).symm
  have hadds : ∀ c ∈ first, c.Adds := by
    intro c hc
    rcases List.mem_cons.mp hc with rfl | hc
    · trivial
    · rw [List.mem_singleton.mp hc]
      trivial
  have hfirst : (s.history first).1 = [.ok .done, .ok .done] := rfl
  have hsecond : (s.history first.reverse).1 = [.ok .done, .ok .done] := rfl
  have hall : ∀ y ∈ [Except.ok Yield.done, .ok .done], ∃ v, (y : Result Yield) = .ok v := by
    intro y hy
    rcases List.mem_cons.mp hy with rfl | hy
    · exact ⟨.done, rfl⟩
    · exact ⟨.done, List.mem_singleton.mp hy⟩
  obtain ⟨hcounter, hgauge, -, horders⟩ := held_is_written sampleWrites
  rw [hdone] at hcounter hgauge
  have hwrites : (sampleWrites.take 3).flatMap (Call.writes "a") =
      [.add 5, .assign 0, .add 2, .add 2] := rfl
  have hfound := (hcounter "a").2
  rw [hwrites] at hfound
  obtain ⟨n, hn, hleaves⟩ := hfound (List.cons_ne_nil _ _)
  have hfour : s.lookup (.query "a" .counter) = .ok (.counter "a" 4) := rfl
  have hsame : Metric.counter "a" n = .counter "a" 4 := Except.ok.inj (hn.symm.trans hfour)
  have hamount : n = 4 := Option.some.inj (congrArg Metric.delta hsame)
  refine ⟨hdone, hfour, (hleaves 4).mpr (congrArg Int64.toInt hamount), hgauge "a",
    (hcounter "b").1.mpr rfl, hperm, hadds, hfirst, hsecond,
    horders first first.reverse hperm hadds ?_ ?_⟩
  · rw [hfirst]
    exact hall
  · rw [hsecond]
    exact hall

end Store

end Telemetry
