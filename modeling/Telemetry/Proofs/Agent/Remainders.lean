/-
What a report leaves of the counters that it sent.

Between the listing that is sent and the settlement of it others go on adding to the counters.
What they add is to stay for the next report; what was sent is to go.  Settling does this by
adding the opposite of what was sent, so it works at any moment, and what came in may have been
anything that leaves the counters in range: if it is in range by itself, it is what remains.
The least amount has no opposite.  A counter that was sent with it is set to zero instead, which
comes to the same only if nothing came in meanwhile (`remainder_inFlight`).

A listing has each counter once, and places that are acknowledged are distinct, so no counter is
settled twice; each is settled on its own (`foldl_settle`).
-/
import Telemetry.Proofs.Agent.Settlement
import Telemetry.Proofs.Store.InOrder
import Telemetry.Proofs.Store.Writes

namespace Telemetry

/-! ## What came in -/

theorem Holdings.put_held {h : Holdings} {id : String} {n : Int64} (hn : h.counters[id]? = some n) :
    h.put id (.counter n) = h := by
  refine ext_getElem? (fun other => ?_) fun _ => rfl
  rw [counters_put_counter, getElem?_insert]
  split
  · rename_i heq
    rw [← heq, hn]
  · rfl

theorem Store.complete_of_foldlM {h k : Holdings} {ms : List Metric}
    (hms : ms.foldlM Store.update (memory h) = .ok (memory k)) : ∀ m ∈ ms, m.Complete := by
  induction ms generalizing h with
  | nil => exact fun _ hm => absurd hm List.not_mem_nil
  | cons m ms ih =>
      obtain ⟨t, ht, hrest⟩ := Result.bind_eq_ok_iff.mp hms
      obtain ⟨l, hl, rfl⟩ := Result.map_eq_ok_iff.mp ht
      obtain ⟨r, hr, -⟩ := Result.bind_eq_ok_iff.mp hl
      exact List.forall_mem_cons.mpr ⟨Metric.complete_iff.mpr ⟨r, hr⟩, ih hrest⟩

namespace Agent

/-- What came in of counters while a delivery was under way, and was taken. -/
structure Flight (h : Holdings) (flight : List Metric) (k : Holdings) : Prop where
  counters : ∀ m ∈ flight, m.kind = .counter
  taken : flight.foldlM Store.update (.memory h) = .ok (.memory k)

namespace Flight

variable {h k : Holdings} {flight : List Metric}

theorem updateAll (fl : Flight h flight k) : Memory.updateAll h flight = .ok k := by
  have hall : (Store.memory h).updateAll flight = .ok (.memory k) := by
    rw [Store.updateAll_eq_foldlM (Store.complete_of_foldlM fl.taken), fl.taken]
  obtain ⟨l, hl, heq⟩ := Result.map_eq_ok_iff.mp hall
  cases heq
  exact hl

theorem amount (fl : Flight h flight k) (id : String) :
    k.amount id = h.amount id + Metric.total id flight :=
  Memory.amount_updateAll fl.updateAll id

theorem gauges (fl : Flight h flight k) : k.gauges = h.gauges := by
  refine Std.ExtTreeMap.ext_getElem? fun id => ?_
  have hnone : (Call.updateAll flight).levels id = [] := by
    rw [Call.levels, Call.written, List.flatMap_eq_nil_iff]
    intro m hm
    rw [Metric.levels, fl.counters m hm]
    exact if_neg fun hkind => by cases hkind.1
  have hgauge := (Holdings.Becomes.updateAll fl.updateAll id).gauge
  rw [hnone] at hgauge
  exact hgauge

theorem held (fl : Flight h flight k) {id : String} {n : Int64} (hn : h.counters[id]? = some n) :
    ∃ c, k.counters[id]? = some c ∧ c.toInt = n.toInt + Metric.total id flight := by
  have hcounter := (Holdings.Becomes.updateAll fl.updateAll id).counter
  cases hc : k.counters[id]? with
  | none =>
      rw [Holdings.counted?, hc] at hcounter
      have hlost := (Write.foldl_on_eq_none_iff.mp hcounter.symm).2
      rw [Holdings.counted?, hn] at hlost
      cases hlost
  | some c =>
      have hamount := fl.amount id
      rw [Holdings.amount, Holdings.amount, hn, hc] at hamount
      exact ⟨c, rfl, hamount⟩

end Flight

namespace Reporter

/-! ## One counter -/

/-- What settling leaves of a counter, from what was sent and what is held by then. -/
def remainder (sent held : Int64) : Int64 :=
  if sent = Int64.minValue then 0 else (Integer.toInt64? (held.toInt - sent.toInt)).getD held

theorem settle_of_taken {s t : Store} {id : String} {sent : Int64} (hsent : sent ≠ 0)
    (ht : takeOff s id sent = .ok t) : settle s (.counter id sent) = t := by
  simp only [settle, Metric.counter, Reading.toMetric, if_neg hsent, ht]

theorem settle_of_refused {s : Store} {id : String} {sent : Int64} {f : Fault} (hsent : sent ≠ 0)
    (hf : takeOff s id sent = .error f) : settle s (.counter id sent) = s := by
  simp only [settle, Metric.counter, Reading.toMetric, if_neg hsent, hf]

/-- Settling a counter that is held leaves its remainder, and touches nothing else. -/
theorem settle_counter {h : Holdings} {id : String} {sent held : Int64}
    (hheld : h.counters[id]? = some held) :
    settle (.memory h) (.counter id sent) =
      .memory (h.put id (.counter (remainder sent held))) := by
  rw [remainder]
  by_cases hzero : sent = 0
  · subst hzero
    have hsame : Integer.toInt64? (held.toInt - (0 : Int64).toInt) = some held := by
      rw [Int64.toInt_zero, Int.sub_zero, Integer.toInt64?_toInt]
    rw [if_neg (by decide), hsame, Option.getD_some, Holdings.put_held hheld]
    rfl
  by_cases hmin : sent = Int64.minValue
  · have hmem : id ∈ h.counters := by
      rw [Std.ExtTreeMap.mem_iff_isSome_getElem?, hheld]
      rfl
    have ht : takeOff (.memory h) id sent = .ok (.memory (h.put id (.counter 0))) := by
      rw [takeOff_memory, if_pos hmin, Holdings.reset, if_pos hmem, Result.map_ok]
    rw [settle_of_taken hzero ht, if_pos hmin]
  · rw [if_neg hmin]
    have htake : takeOff (.memory h) id sent =
        ((Memory.sum id held (-sent)).map fun n => h.put id (.counter n)).map .memory := by
      rw [takeOff_memory, if_neg hmin, Memory.apply, hheld, Option.getD_some]
    rw [Memory.sum, Integer.toInt_neg hmin, ← Int.sub_eq_add_neg] at htake
    cases hsum : Integer.toInt64? (held.toInt - sent.toInt) with
    | some n =>
        rw [hsum] at htake
        exact settle_of_taken hzero htake
    | none =>
        -- the sum would leave the range, so the counter stays as it is
        rw [hsum] at htake
        rw [settle_of_refused hzero htake, Option.getD_none, Holdings.put_held hheld]

theorem remainder_inFlight {sent held : Int64} {inFlight : Int}
    (hheld : held.toInt = sent.toInt + inFlight) (hrange : Integer.InRange inFlight) :
    (remainder sent held).toInt = inFlight ↔ sent ≠ Int64.minValue ∨ inFlight = 0 := by
  rw [remainder]
  by_cases hmin : sent = Int64.minValue
  · rw [if_pos hmin, Int64.toInt_zero]
    constructor
    · exact fun hzero => .inr hzero.symm
    · rintro (hne | hzero)
      · exact absurd hmin hne
      · exact hzero.symm
  · have hdiff : held.toInt - sent.toInt = inFlight := by omega
    rw [if_neg hmin, hdiff]
    refine iff_of_true ?_ (.inl hmin)
    cases hfits : Integer.toInt64? inFlight with
    | some n => exact Integer.toInt64?_eq_some_iff.mp hfits
    | none => exact absurd hrange (Integer.toInt64?_eq_none_iff.mp hfits)

/-- What came in and is out of range by itself cannot be told from what was sent, and all of it
remains. -/
theorem remainder_of_not_inRange {sent held : Int64} {inFlight : Int} (hmin : sent ≠ Int64.minValue)
    (hheld : held.toInt = sent.toInt + inFlight) (hrange : ¬Integer.InRange inFlight) :
    remainder sent held = held := by
  have hdiff : held.toInt - sent.toInt = inFlight := by omega
  rw [remainder, if_neg hmin, hdiff, Integer.toInt64?_eq_none_iff.mpr hrange, Option.getD_none]

/-! ## All that were acknowledged -/

theorem pairwise_acknowledged {sent : List Metric} {places : List Nat}
    (hsent : (sent.map fun m => (m.kind, m.id)).Nodup) (hplaces : places.Nodup) :
    (acknowledged sent places).Pairwise Metric.Apart := by
  rw [acknowledged_eq]
  refine List.pairwise_filterMap.mpr (hplaces.imp ?_)
  intro i j hne m hm n hn hsame
  have hi : (sent.map fun m => (m.kind, m.id))[i]? = some (m.kind, m.id) := by
    rw [List.getElem?_map, hm]
    rfl
  have hj : (sent.map fun m => (m.kind, m.id))[j]? = some (m.kind, m.id) := by
    rw [List.getElem?_map, hn, hsame.1, hsame.2]
    rfl
  obtain ⟨hlength, -⟩ := List.getElem?_eq_some_iff.mp hi
  exact hne ((List.getElem?_inj hlength hsent).mp (hi.trans hj.symm))

/-- Counters that are apart are settled each on its own. -/
theorem foldl_settle {k : Holdings} {ms : List Metric} (hapart : ms.Pairwise Metric.Apart)
    (hms : ∀ m ∈ ms, (∃ id x, m = .gauge id x) ∨
      ∃ id sent held, m = .counter id sent ∧ k.counters[id]? = some held) :
    ∃ l, ms.foldl settle (.memory k) = .memory l ∧ l.gauges = k.gauges ∧
      (∀ id, (∀ sent, .counter id sent ∉ ms) → l.counters[id]? = k.counters[id]?) ∧
      ∀ id sent held, .counter id sent ∈ ms → k.counters[id]? = some held →
        l.counters[id]? = some (remainder sent held) := by
  induction ms generalizing k with
  | nil =>
      exact ⟨k, rfl, rfl, fun _ _ => rfl, fun _ _ _ hmem => absurd hmem List.not_mem_nil⟩
  | cons m ms ih =>
      obtain ⟨hfirst, hrest⟩ := List.pairwise_cons.mp hapart
      obtain ⟨hm, hothers⟩ := List.forall_mem_cons.mp hms
      rcases hm with ⟨gauge, x, rfl⟩ | ⟨name, sent, held, rfl, hheld⟩
      · obtain ⟨l, hl, hgauges, hkept, hsettled⟩ := ih hrest hothers
        refine ⟨l, hl, hgauges, fun id hno => hkept id fun n hn => hno n ?_, ?_⟩
        · exact List.mem_cons_of_mem _ hn
        · intro id n c hmem hc
          rcases List.mem_cons.mp hmem with heq | hmem
          · cases congrArg Metric.kind heq
          · exact hsettled id n c hmem hc
      · -- the others are of other counters, which hold what they held
        have hname : ∀ n, Metric.counter name n ∉ ms := fun n hn =>
          hfirst _ hn ⟨rfl, rfl⟩
        have hput : ∀ id, id ≠ name → (k.put name (.counter (remainder sent held))).counters[id]? =
            k.counters[id]? := by
          intro id hne
          rw [Holdings.counters_put_counter, Holdings.getElem?_insert, if_neg hne.symm]
        obtain ⟨l, hl, hgauges, hkept, hsettled⟩ := ih
          (k := k.put name (.counter (remainder sent held))) hrest (by
            intro m hm
            rcases hothers m hm with hgauge | ⟨id, n, c, rfl, hc⟩
            · exact .inl hgauge
            · have hne : id ≠ name := by
                rintro rfl
                exact hname n hm
              exact .inr ⟨id, n, c, rfl, (hput id hne).trans hc⟩)
        refine ⟨l, ?_, hgauges, ?_, ?_⟩
        · rw [List.foldl_cons, settle_counter hheld]
          exact hl
        · intro id hno
          have hne : id ≠ name := by
            rintro rfl
            exact hno sent List.mem_cons_self
          rw [hkept id fun n hn => hno n (List.mem_cons_of_mem _ hn), hput id hne]
        · intro id n c hmem hc
          rcases List.mem_cons.mp hmem with heq | hlater
          · obtain rfl : id = name := congrArg Metric.id heq
            obtain rfl : n = sent := Option.some.inj (congrArg Metric.delta heq)
            rw [hheld] at hc
            cases hc
            rw [hkept id hname, Holdings.counters_put_counter, Holdings.getElem?_insert,
              if_pos rfl]
          · have hne : id ≠ name := by
              rintro rfl
              exact hname n hlater
            exact hsettled id n c hlater ((hput id hne).trans hc)

/-! ## A report -/

theorem report_nothing {σ : Type} {delivery : Delivery σ} {h : Holdings} {w : σ}
    (hnone : h.metrics = []) : report delivery (.memory h, w) = (.ok 0, .memory h, w) := by
  have hmetrics : (Store.memory h).metrics = .ok [] := congrArg Except.ok hnone
  simp only [report, hmetrics]

theorem report_some {σ : Type} {delivery : Delivery σ} {h : Holdings} {w : σ}
    (hsome : h.metrics ≠ []) :
    report delivery (.memory h, w) = deliver delivery h.metrics (.memory h, w) := by
  obtain ⟨m, rest, hmetrics⟩ := List.exists_cons_of_ne_nil hsome
  have hlisted : (Store.memory h).metrics = .ok (m :: rest) := congrArg Except.ok hmetrics
  simp only [report, hlisted, hmetrics]

/-- What settling leaves of what came in during the delivery, at places that are distinct. -/
theorem settleAll_flight {h k : Holdings} {flight : List Metric} (fl : Flight h flight k)
    {places : List Nat} (hplaces : places.Nodup) :
    ∃ l, settleAll (.memory k) h.metrics places = .memory l ∧ l.gauges = h.gauges ∧
      (∀ id, (∀ sent, .counter id sent ∉ acknowledged h.metrics places) →
        l.counters[id]? = k.counters[id]?) ∧
      ∀ id sent, .counter id sent ∈ acknowledged h.metrics places →
        ∃ held, held.toInt = sent.toInt + Metric.total id flight ∧
          l.counters[id]? = some (remainder sent held) := by
  have hlisted : ∀ id sent, .counter id sent ∈ acknowledged h.metrics places →
      ∃ held, k.counters[id]? = some held ∧ held.toInt = sent.toInt + Metric.total id flight := by
    intro id sent hmem
    rcases Holdings.mem_listing_iff.mp (mem_of_mem_acknowledged _ hmem) with
      ⟨_, _, hn, heq⟩ | ⟨_, _, -, hgauge⟩
    · obtain rfl := congrArg Metric.id heq
      obtain rfl := Option.some.inj (congrArg Metric.delta heq)
      exact fl.held hn
    · cases congrArg Metric.kind hgauge
  obtain ⟨l, hl, hgauges, hkept, hsettled⟩ := foldl_settle (k := k)
    (pairwise_acknowledged h.nodup_metrics hplaces) (by
      intro m hm
      rcases Holdings.mem_listing_iff.mp (mem_of_mem_acknowledged _ hm) with
        ⟨id, n, hn, rfl⟩ | ⟨id, x, -, rfl⟩
      · obtain ⟨held, hheld, -⟩ := fl.held hn
        exact .inr ⟨id, n, held, rfl, hheld⟩
      · exact .inl ⟨id, x, rfl⟩)
  refine ⟨l, hl, hgauges.trans fl.gauges, hkept, ?_⟩
  intro id sent hmem
  obtain ⟨held, hheld, hsum⟩ := hlisted id sent hmem
  exact ⟨held, hsum, hsettled id sent held hmem hheld⟩

/-- While the counters of a store in memory are delivered, others may be added to, by any amounts
that leave them in range.  If the delivery fails, this is all that happens.  If it succeeds, a
counter that was not acknowledged has what was sent and what came in; one that was has what came
in, where that is in range by itself, unless it was sent with the least amount: then it has
nothing, whatever came in.  Gauges stay as they are. -/
theorem report_leaves_inFlight {σ : Type} {delivery : Delivery σ} {h k : Holdings} {w v : σ}
    {flight : List Metric} {outcome : Result (List Nat)} (hsome : h.metrics ≠ [])
    (fl : Flight h flight k)
    (hdelivery : delivery h.metrics (.memory h, w) = (outcome, .memory k, v))
    (hdistinct : ∀ places, outcome = .ok places → places.Nodup) :
    (∀ f, outcome = .error f → report delivery (.memory h, w) = (.error f, .memory k, v)) ∧
    ∀ places, outcome = .ok places →
      ∃ l, report delivery (.memory h, w) = (.ok places.length, .memory l, v) ∧
        l.gauges = h.gauges ∧
        (∀ id, (∀ sent, .counter id sent ∉ acknowledged h.metrics places) →
          l.counters[id]? = k.counters[id]? ∧
            l.amount id = h.amount id + Metric.total id flight) ∧
        ∀ id sent, .counter id sent ∈ acknowledged h.metrics places →
          ∃ left, l.counters[id]? = some left ∧
            (Integer.InRange (Metric.total id flight) →
              (left.toInt = Metric.total id flight ↔
                sent ≠ Int64.minValue ∨ Metric.total id flight = 0)) ∧
            (sent = Int64.minValue → left = 0) ∧
            (sent ≠ Int64.minValue → ¬Integer.InRange (Metric.total id flight) →
              left.toInt = sent.toInt + Metric.total id flight) := by
  rw [report_some hsome, deliver, hdelivery]
  refine ⟨?_, ?_⟩
  · rintro f rfl
    rfl
  · rintro places rfl
    obtain ⟨l, hl, hgauges, hkept, hsettled⟩ := settleAll_flight fl (hdistinct places rfl)
    refine ⟨l, ?_, hgauges, ?_, ?_⟩
    · change (Except.ok places.length, settleAll (.memory k) h.metrics places, v) = _
      rw [hl]
    · intro id hno
      refine ⟨hkept id hno, ?_⟩
      rw [← fl.amount id, Holdings.amount, hkept id hno, Holdings.amount]
    · intro id sent hmem
      obtain ⟨held, hheld, hleft⟩ := hsettled id sent hmem
      refine ⟨_, hleft, remainder_inFlight hheld, ?_, ?_⟩
      · rintro rfl
        rw [remainder, if_pos rfl]
      · intro hmin hrange
        rw [remainder_of_not_inRange hmin hheld hrange, hheld]

/-- A delivery of which some places are acknowledged, while metrics come in. -/
def deliveryDuring (flight : List Metric) (places : List Nat) : Delivery Unit := fun _ (s, w) =>
  match flight.foldlM Store.update s with
  | .ok t => (.ok places, t, w)
  | .error f => (.error f, s, w)

def sampleHoldings : Holdings :=
  ((Holdings.empty.put "a" (.counter 3)).put "b" (.counter (-4))).put "a" (.gauge ⟨0⟩)

/-- Of the counter that was acknowledged what came in is left, though it is less than nothing. -/
theorem report_leaves_inFlight_sample :
    ∃ l, report (deliveryDuring [.counter "b" 1, .counter "a" (-2), .counter "a" 1] [0, 7])
        (.memory sampleHoldings, ()) = (.ok 2, .memory l, ()) ∧
      l.counters["a"]?.map Int64.toInt = some (-1) ∧ l.amount "b" = -3 ∧
      l.gauges = sampleHoldings.gauges := by
  have hflight : Flight sampleHoldings [.counter "b" 1, .counter "a" (-2), .counter "a" 1]
      ((sampleHoldings.put "b" (.counter (-3))).put "a" (.counter 2)) := by
    refine ⟨?_, rfl⟩
    intro m hm
    simp only [List.mem_cons, List.not_mem_nil, or_false] at hm
    rcases hm with rfl | rfl | rfl <;> rfl
  have hdistinct : ∀ places, (Except.ok [0, 7] : Result (List Nat)) = .ok places →
      places.Nodup := by
    intro places hplaces
    cases hplaces
    decide
  have hsome : sampleHoldings.metrics ≠ [] := by decide
  have hdelivery : deliveryDuring [.counter "b" 1, .counter "a" (-2), .counter "a" 1] [0, 7]
      sampleHoldings.metrics (.memory sampleHoldings, ()) = (.ok [0, 7],
        .memory ((sampleHoldings.put "b" (.counter (-3))).put "a" (.counter 2)), ()) := rfl
  obtain ⟨-, hdelivered⟩ := report_leaves_inFlight hsome hflight hdelivery hdistinct
  obtain ⟨l, hl, hgauges, hothers, hacknowledged⟩ := hdelivered [0, 7] rfl
  have hsent : acknowledged sampleHoldings.metrics [0, 7] = [.counter "a" 3] := rfl
  rw [hsent] at hothers hacknowledged
  obtain ⟨left, hleft, hremains, -, -⟩ := hacknowledged "a" 3 List.mem_cons_self
  refine ⟨l, hl, ?_, (hothers "b" fun sent hmem => ?_).2, hgauges⟩
  · rw [hleft]
    exact congrArg some ((hremains (by decide)).mpr (.inl (by decide)))
  · have hname : "b" = "a" := congrArg Metric.id (List.mem_singleton.mp hmem)
    exact absurd hname (by decide)

/-- A counter that holds the least amount. -/
def leastHoldings : Holdings := Holdings.empty.put "a" (.counter Int64.minValue)

/-- What came in for a counter that was sent with the least amount is lost. -/
theorem report_loses_inFlight :
    ∃ k l, Flight leastHoldings [.counter "a" 5] k ∧
      k.counters["a"]? = some (Int64.minValue + 5) ∧
      deliveryDuring [.counter "a" 5] [0] leastHoldings.metrics (.memory leastHoldings, ()) =
        (.ok [0], .memory k, ()) ∧
      acknowledged leastHoldings.metrics [0] = [.counter "a" Int64.minValue] ∧
      Metric.total "a" [.counter "a" 5] = 5 ∧
      report (deliveryDuring [.counter "a" 5] [0]) (.memory leastHoldings, ()) =
        (.ok 1, .memory l, ()) ∧
      l.counters["a"]? = some 0 := by
  have hcounters : ∀ m ∈ [Metric.counter "a" 5], m.kind = .counter := by
    intro m hm
    rw [List.mem_singleton.mp hm]
    rfl
  exact ⟨leastHoldings.put "a" (.counter (Int64.minValue + 5)),
    (leastHoldings.put "a" (.counter (Int64.minValue + 5))).put "a" (.counter 0),
    ⟨hcounters, rfl⟩, rfl, rfl, rfl, rfl, rfl, rfl⟩

end Reporter

end Agent

end Telemetry
