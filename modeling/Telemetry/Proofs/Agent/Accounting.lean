/-
The ledger balances.

What the polls put in is found in the agent or in the server; the server may have
more, namely what it took without the reporter seeing it, because that is sent again.
In the middle of a tick some increments stand on both sides: what the server took and
is not yet settled.  They are `Tick.pending`.  Settling succeeds because the agent
holds at least what was sent, `Tick.reserved`: polls never take anything off, and
nothing is settled twice.  `Link.Balanced` says both, every event keeps it
(`Link.Balanced.step`), and between ticks nothing is pending.

Each event moves an amount from one place to another.  A poll puts in the same on both sides of the
balance; what the server takes of a delivery is on both sides from then on; concluding settles it
or leaves it unseen; and what arrives late is unseen.  Where everything that was taken was seen,
nothing is unseen, and the balance is an equation between the polls and the two stores.
-/
import Telemetry.Proofs.Agent.Link

namespace Telemetry.Agent

open Reporter (acknowledged)

/-! ## The ledger -/

namespace Entry

/-- What an entry says the polls put in. -/
def polledOf (id : String) : Entry → Int
  | polled batch => Metric.total id batch
  | unseen _ => 0

/-- What an entry says the server took unseen. -/
def unseenOf (id : String) : Entry → Int
  | polled _ => 0
  | unseen taken => Metric.total id taken

def polledTotal (id : String) : List Entry → Int
  | [] => 0
  | e :: es => e.polledOf id + polledTotal id es

def unseenTotal (id : String) : List Entry → Int
  | [] => 0
  | e :: es => e.unseenOf id + unseenTotal id es

variable {id : String}

theorem polledTotal_append (es fs : List Entry) :
    polledTotal id (es ++ fs) = polledTotal id es + polledTotal id fs := by
  induction es with
  | nil => exact (Int.zero_add _).symm
  | cons e es ih => rw [List.cons_append, polledTotal, polledTotal, ih, Int.add_assoc]

theorem unseenTotal_append (es fs : List Entry) :
    unseenTotal id (es ++ fs) = unseenTotal id es + unseenTotal id fs := by
  induction es with
  | nil => exact (Int.zero_add _).symm
  | cons e es ih => rw [List.cons_append, unseenTotal, unseenTotal, ih, Int.add_assoc]

theorem unseenTotal_eq_zero {es : List Entry} (h : ∀ taken, unseen taken ∈ es → taken = []) :
    unseenTotal id es = 0 := by
  induction es with
  | nil => rfl
  | cons e es ih =>
      have hone : e.unseenOf id = 0 := by
        cases e with
        | polled batch => rfl
        | unseen taken =>
            rw [h taken List.mem_cons_self]
            rfl
      rw [unseenTotal, hone, ih fun taken ht => h taken (List.mem_cons_of_mem e ht), Int.add_zero]

end Entry

/-! ## What is on both sides, and what the agent keeps back -/

namespace Tick

/-- What the server took and is still to be settled, acknowledged or not. -/
def pending (id : String) : Tick → Int
  | sending sent taken => Metric.total id (acknowledged sent taken)
  | settling left => Metric.total id left
  | idle | reading _ => 0

/-- The most that settling may take off the agent. -/
def reserved (id : String) : Tick → Int
  | idle => 0
  | reading first => first.amount id
  | sending sent _ => Metric.total id sent
  | settling left => Metric.total id left

/-- Nothing that was sent takes anything off a counter, and the server took no place twice. -/
def Sound (id : String) : Tick → Prop
  | idle => True
  | reading first => 0 ≤ first.amount id
  | sending sent taken =>
    (∀ m ∈ sent, 0 ≤ m.increment id) ∧ taken.Nodup ∧ ∀ i ∈ taken, i < sent.length
  | settling left => ∀ m ∈ left, 0 ≤ m.increment id

variable {id : String}

theorem pending_ofLeft (left : List Metric) : (ofLeft left).pending id = Metric.total id left := by
  cases left with
  | nil => rfl
  | cons m left => rfl

theorem reserved_ofLeft (left : List Metric) :
    (ofLeft left).reserved id = Metric.total id left := by
  cases left with
  | nil => rfl
  | cons m left => rfl

theorem sound_ofLeft {left : List Metric} (h : ∀ m ∈ left, 0 ≤ m.increment id) :
    (ofLeft left).Sound id := by
  cases left with
  | nil => trivial
  | cons m left => exact h

end Tick

/-- The books of a counter, as far as a run went: what polls put in and what the
server took unseen. -/
structure Link.Balanced (id : String) (l : Link) (polled unseen : Int) : Prop where
  /-- The agent's store is in memory. -/
  memory : ∃ h, l.agent = .memory h
  /-- Everything is accounted for. -/
  balance : l.server.held.amount id + l.agent.held.amount id =
    polled + unseen + l.tick.pending id
  /-- The agent holds what settling may take off. -/
  reserve : l.tick.reserved id ≤ l.agent.held.amount id
  /-- Without a tick, the amount is not negative either. -/
  nonneg : 0 ≤ l.agent.held.amount id
  tick : l.tick.Sound id
  adrift : ∀ ms ∈ l.adrift, ∀ m ∈ ms, 0 ≤ m.increment id
  unseen_nonneg : 0 ≤ unseen

namespace Link.Balanced

variable {id : String} {l : Link} {polled unseen : Int}

theorem unchanged (b : Balanced id l polled unseen) :
    Balanced id l (polled + Entry.polledTotal id []) (unseen + Entry.unseenTotal id []) := by
  rwa [Entry.polledTotal, Entry.unseenTotal, Int.add_zero, Int.add_zero]

theorem poll (b : Balanced id l polled unseen) {samples : Poller.Samples}
    (hgrows : ∀ m ∈ Poller.batch samples, 0 ≤ m.increment id) :
    Balanced id (l.step (.poll samples)).1
      (polled + Entry.polledTotal id (l.step (.poll samples)).2)
      (unseen + Entry.unseenTotal id (l.step (.poll samples)).2) := by
  rw [Link.step]
  cases hpoll : Poller.poll samples l.agent with
  | error f => exact b.unchanged
  | ok r =>
      obtain ⟨n, s⟩ := r
      obtain ⟨t, ht, heq⟩ := Result.map_eq_ok_iff.mp hpoll
      obtain ⟨rfl, rfl⟩ := Prod.mk.inj heq
      obtain ⟨h, hh⟩ := b.memory
      have hamount := Store.amount_updateAll ht id
      have htotal := Metric.total_nonneg hgrows
      have hbalance := b.balance
      have hreserve := b.reserve
      have hnonneg := b.nonneg
      refine ⟨?_, ?_, ?_, ?_, b.tick, b.adrift, ?_⟩
      · rw [hh] at ht
        exact Store.updateAll_memory ht
      · simp only [Entry.polledTotal, Entry.polledOf, Entry.unseenTotal, Entry.unseenOf]
        omega
      · simp only
        omega
      · simp only
        omega
      · have := b.unseen_nonneg
        simp only [Entry.unseenTotal, Entry.unseenOf]
        omega

theorem readCounters (b : Balanced id l polled unseen) :
    Balanced id (l.step .readCounters).1
      (polled + Entry.polledTotal id (l.step .readCounters).2)
      (unseen + Entry.unseenTotal id (l.step .readCounters).2) := by
  rw [Link.step]
  split
  · rename_i htick
    refine Balanced.unchanged ⟨b.memory, ?_, Int.le_refl _, b.nonneg, b.nonneg, b.adrift,
      b.unseen_nonneg⟩
    have hbalance := b.balance
    rwa [htick] at hbalance
  · exact b.unchanged

theorem readGauges (b : Balanced id l polled unseen) :
    Balanced id (l.step .readGauges).1
      (polled + Entry.polledTotal id (l.step .readGauges).2)
      (unseen + Entry.unseenTotal id (l.step .readGauges).2) := by
  rw [Link.step]
  split
  · rename_i first htick
    have hbalance := b.balance
    have hreserve := b.reserve
    have hsound := b.tick
    rw [htick] at hbalance hreserve hsound
    have htotal := Holdings.total_listing id first l.agent.held
    have hgrows : ∀ m ∈ Holdings.listing first l.agent.held, 0 ≤ m.increment id :=
      Holdings.increment_listing_nonneg hsound
    refine Balanced.unchanged ?_
    cases hlisting : Holdings.listing first l.agent.held with
    | nil =>
        exact ⟨b.memory, hbalance, b.nonneg, b.nonneg, trivial, b.adrift, b.unseen_nonneg⟩
    | cons m rest =>
        rw [hlisting] at htotal hgrows
        refine ⟨b.memory, hbalance, ?_, b.nonneg, ⟨hgrows, List.nodup_nil, ?_⟩, b.adrift,
          b.unseen_nonneg⟩
        · rw [Tick.ofListing, Tick.reserved, htotal]
          exact hreserve
        · exact fun i hi => absurd hi List.not_mem_nil
  · exact b.unchanged

/-- What the server takes of a delivery is on both sides from then on. -/
theorem give (b : Balanced id l polled unseen) (places : List Nat) :
    Balanced id (l.step (.give places)).1
      (polled + Entry.polledTotal id (l.step (.give places)).2)
      (unseen + Entry.unseenTotal id (l.step (.give places)).2) := by
  rw [Link.step]
  split
  · rename_i sent taken htick
    refine Balanced.unchanged ?_
    simp only [Link.give]
    split
    · rename_i hgivable
      obtain ⟨hnodup, hplaces⟩ := hgivable
      cases hs : l.server.updateAll (acknowledged sent places) with
      | error f => exact b
      | ok s =>
          have hamount := Store.amount_updateAll hs id
          have hbalance := b.balance
          have hreserve := b.reserve
          obtain ⟨hgrows, htaken, hrange⟩ : Tick.Sound id (.sending sent taken) := htick ▸ b.tick
          rw [htick] at hbalance hreserve
          have hsplit : Metric.total id (acknowledged sent (places ++ taken)) =
              Metric.total id (acknowledged sent places) +
                Metric.total id (acknowledged sent taken) := by
            rw [Reporter.acknowledged_eq, Reporter.acknowledged_eq, Reporter.acknowledged_eq,
              List.filterMap_append, Metric.total_append]
          refine ⟨b.memory, ?_, hreserve, b.nonneg, ⟨hgrows, ?_, ?_⟩, b.adrift, b.unseen_nonneg⟩
          · simp only [Tick.pending] at hbalance ⊢
            omega
          · refine List.nodup_append.mpr ⟨hnodup, htaken, ?_⟩
            rintro i hi j hj rfl
            exact (hplaces i hi).2 hj
          · intro i hi
            rcases List.mem_append.mp hi with hi | hi
            · exact (hplaces i hi).1
            · exact hrange i hi
    · exact b
  · exact b.unchanged

theorem conclude (b : Balanced id l polled unseen) (places : List Nat) :
    Balanced id (l.step (.conclude places)).1
      (polled + Entry.polledTotal id (l.step (.conclude places)).2)
      (unseen + Entry.unseenTotal id (l.step (.conclude places)).2) := by
  rw [Link.step]
  split
  · rename_i sent taken htick
    simp only [Link.conclude]
    split
    · rename_i hseen
      obtain ⟨hnodup, hplaces⟩ := hseen
      obtain ⟨hgrows, htaken, hrange⟩ : Tick.Sound id (.sending sent taken) := htick ▸ b.tick
      have hbalance := b.balance
      have hreserve := b.reserve
      have hunseen := b.unseen_nonneg
      rw [htick] at hbalance hreserve
      have hpart (some : List Nat) : ∀ m ∈ acknowledged sent some, 0 ≤ m.increment id :=
        fun m hm => hgrows m (Reporter.mem_of_mem_acknowledged sent hm)
      -- What was taken is acknowledged or unseen; what was sent is acknowledged or stays.
      have hsplit := @Reporter.total_acknowledged_split id sent _ _ htaken hnodup hplaces
      have hall := @Reporter.total_acknowledged_split id sent _ _ List.nodup_range hnodup
        fun i hi => List.mem_range.mpr (hrange i (hplaces i hi))
      rw [Reporter.acknowledged_range] at hall
      have hrest := Metric.total_nonneg
        (hpart ((List.range sent.length).filter (· ∉ places)))
      have hnew := Metric.total_nonneg (hpart (taken.filter (· ∉ places)))
      refine ⟨b.memory, ?_, ?_, b.nonneg, Tick.sound_ofLeft (hpart places), ?_, ?_⟩
      · rw [Tick.pending] at hbalance
        simp only [Tick.pending_ofLeft, Entry.polledTotal, Entry.polledOf, Entry.unseenTotal,
          Entry.unseenOf]
        omega
      · rw [Tick.reserved] at hreserve
        simp only [Tick.reserved_ofLeft]
        omega
      · intro ms hms
        rcases List.mem_append.mp hms with hms | hms
        · exact b.adrift ms hms
        · obtain rfl := List.mem_singleton.mp hms
          exact hpart _
      · simp only [Entry.unseenTotal, Entry.unseenOf]
        omega
    · exact b.unchanged
  · exact b.unchanged

theorem settle (b : Balanced id l polled unseen) :
    Balanced id (l.step .settle).1
      (polled + Entry.polledTotal id (l.step .settle).2)
      (unseen + Entry.unseenTotal id (l.step .settle).2) := by
  rw [Link.step]
  split
  · rename_i m left htick
    obtain ⟨h, hh⟩ := b.memory
    have hgrows : ∀ n ∈ m :: left, 0 ≤ n.increment id := by
      have hsound := b.tick
      rwa [htick] at hsound
    have hbalance := b.balance
    have hreserve := b.reserve
    rw [htick, hh] at hbalance hreserve
    simp only [Tick.pending, Tick.reserved, Metric.total, Store.held] at hbalance hreserve
    have hone := hgrows m List.mem_cons_self
    have hleft : ∀ n ∈ left, 0 ≤ n.increment id := fun n hn => hgrows n (List.mem_cons_of_mem m hn)
    have hrest := Metric.total_nonneg hleft
    obtain ⟨k, hk, hamount⟩ : ∃ k, Reporter.settle (.memory h) m = .memory k ∧
        k.amount id = h.amount id - m.increment id := Reporter.amount_settle hone (by omega)
    refine Balanced.unchanged ⟨⟨k, by rw [hh]; exact hk⟩, ?_, ?_, ?_, Tick.sound_ofLeft hleft,
      b.adrift, b.unseen_nonneg⟩
    · simp only [hh, hk, Tick.pending_ofLeft, Store.held]
      omega
    · simp only [hh, hk, Tick.reserved_ofLeft, Store.held]
      omega
    · simp only [hh, hk, Store.held]
      omega
  · exact b.unchanged

theorem arrive (b : Balanced id l polled unseen) (delivery : Nat) (late : List Metric) :
    Balanced id (l.step (.arrive delivery late)).1
      (polled + Entry.polledTotal id (l.step (.arrive delivery late)).2)
      (unseen + Entry.unseenTotal id (l.step (.arrive delivery late)).2) := by
  simp only [Link.step, Link.arrive]
  split
  · rename_i ms hms
    split
    · rename_i hsub
      have hgrows : ∀ m ∈ late, 0 ≤ m.increment id := fun m hm =>
        b.adrift ms (List.mem_of_getElem? hms) m ((List.isSublist_iff_sublist.mp hsub).subset hm)
      cases hs : l.server.updateAll late with
      | error f => exact b.unchanged
      | ok s =>
          have hamount := Store.amount_updateAll hs id
          have hbalance := b.balance
          have hunseen := b.unseen_nonneg
          have htotal := Metric.total_nonneg hgrows
          refine ⟨b.memory, ?_, b.reserve, b.nonneg, b.tick, ?_, ?_⟩
          · simp only [Entry.polledTotal, Entry.polledOf, Entry.unseenTotal, Entry.unseenOf]
            omega
          · exact fun ns hns => b.adrift ns (List.mem_of_mem_eraseIdx hns)
          · simp only [Entry.unseenTotal, Entry.unseenOf]
            omega
    · exact b.unchanged
  · exact b.unchanged

/-- Every event keeps the balance. -/
theorem step (b : Balanced id l polled unseen) {e : Link.Event}
    (hgrows : ∀ samples, e = .poll samples → ∀ m ∈ Poller.batch samples, 0 ≤ m.increment id) :
    Balanced id (l.step e).1 (polled + Entry.polledTotal id (l.step e).2)
      (unseen + Entry.unseenTotal id (l.step e).2) := by
  cases e with
  | poll samples => exact b.poll (hgrows samples rfl)
  | readCounters => exact b.readCounters
  | readGauges => exact b.readGauges
  | give places => exact b.give places
  | conclude places => exact b.conclude places
  | settle => exact b.settle
  | arrive delivery late => exact b.arrive delivery late

/-- Every run keeps the balance. -/
theorem run (b : Balanced id l polled unseen) {es : List Link.Event}
    (hgrows : ∀ samples, .poll samples ∈ es → ∀ m ∈ Poller.batch samples, 0 ≤ m.increment id) :
    Balanced id (l.run es).1 (polled + Entry.polledTotal id (l.run es).2)
      (unseen + Entry.unseenTotal id (l.run es).2) := by
  induction es generalizing l polled unseen with
  | nil => exact b.unchanged
  | cons e es ih =>
      have hstep := b.step (e := e) fun samples he => hgrows samples (he ▸ List.mem_cons_self)
      have hrun := ih hstep fun samples hs => hgrows samples (List.mem_cons_of_mem e hs)
      simp only [Link.run, Entry.polledTotal_append, Entry.unseenTotal_append, ← Int.add_assoc]
      exact hrun

end Link.Balanced

/-! ## Whole runs -/

theorem Link.balanced_start {id : String} {l : Link} {h : Holdings} (hidle : l.tick = .idle)
    (hadrift : l.adrift = []) (hagent : l.agent = .memory h) (hnone : h.counters[id]? = none)
    (hserver : l.server.held.counters[id]? = none) : Balanced id l 0 0 := by
  have hzero : h.amount id = 0 := by
    rw [Holdings.amount, hnone]
    rfl
  have hserverZero : l.server.held.amount id = 0 := by
    rw [Holdings.amount, hserver]
    rfl
  have hagentZero : l.agent.held.amount id = 0 := by rw [hagent]; exact hzero
  refine ⟨⟨h, hagent⟩, ?_, ?_, ?_, ?_, ?_, Int.le_refl 0⟩
  · rw [hserverZero, hagentZero, hidle]
    rfl
  · rw [hagentZero, hidle]
    exact Int.le_refl 0
  · exact Int.le_of_eq hagentZero.symm
  · rw [hidle]
    trivial
  · rw [hadrift]
    exact fun _ hms => absurd hms List.not_mem_nil

/-- Between ticks, what the server and the agent hold of a counter is what the polls put
in and what the server took unseen.  So nothing is lost, and where everything that was
taken was seen acknowledged, everything counts once. -/
theorem Link.amount_run {id : String} {l : Link} {h : Holdings} (hidle : l.tick = .idle)
    (hadrift : l.adrift = []) (hagent : l.agent = .memory h) (hnone : h.counters[id]? = none)
    (hserver : l.server.held.counters[id]? = none) {es : List Event}
    (hgrows : ∀ samples, .poll samples ∈ es → ∀ m ∈ Poller.batch samples, 0 ≤ m.increment id)
    (hend : (l.run es).1.tick = .idle) :
    let l' := (l.run es).1
    let ledger := (l.run es).2
    let total := l'.server.held.amount id + l'.agent.held.amount id
    total = Entry.polledTotal id ledger + Entry.unseenTotal id ledger ∧
      Entry.polledTotal id ledger ≤ total ∧
      ((∀ taken, .unseen taken ∈ ledger → taken = []) →
        total = Entry.polledTotal id ledger) := by
  have b := (balanced_start hidle hadrift hagent hnone hserver).run hgrows
  have hbalance := b.balance
  have hunseen := b.unseen_nonneg
  rw [hend, Tick.pending, Int.zero_add, Int.zero_add, Int.add_zero] at hbalance
  rw [Int.zero_add] at hunseen
  refine ⟨hbalance, ?_, fun hseen => ?_⟩
  · omega
  · rw [Entry.unseenTotal_eq_zero hseen, Int.add_zero] at hbalance
    exact hbalance

/-- Before anything happened, with both stores in memory. -/
def Link.fresh : Link := ⟨.inMemory, .inMemory, .idle, []⟩

/-- A counter is polled twice, and the acknowledgement of its first delivery is lost. -/
def Link.lossyEvents : List Link.Event :=
  [.poll [.ok [.counter "a" 5]], .readCounters, .readGauges, .give [0],
    .poll [.ok [.counter "a" 2]], .conclude [],
    .readCounters, .readGauges, .give [0], .conclude [0], .settle]

/-- After `lossyEvents` the server has 12, of which 7 were polled and 5 came twice. -/
theorem Link.amount_run_lossyEvents :
    (∀ samples, .poll samples ∈ lossyEvents → ∀ m ∈ Poller.batch samples, 0 ≤ m.increment "a") ∧
      (fresh.run lossyEvents).1.tick = .idle ∧
      (fresh.run lossyEvents).1.server.held.amount "a" +
          (fresh.run lossyEvents).1.agent.held.amount "a" =
        Entry.polledTotal "a" (fresh.run lossyEvents).2 +
          Entry.unseenTotal "a" (fresh.run lossyEvents).2 ∧
      Entry.polledTotal "a" (fresh.run lossyEvents).2 = 7 ∧
      Entry.unseenTotal "a" (fresh.run lossyEvents).2 = 5 := by
  have hgrows : ∀ samples, .poll samples ∈ lossyEvents →
      ∀ m ∈ Poller.batch samples, 0 ≤ m.increment "a" := by
    intro samples hs
    simp only [lossyEvents, List.mem_cons, Event.poll.injEq, reduceCtorEq, List.not_mem_nil,
      false_or, or_false] at hs
    rcases hs with rfl | rfl
    · decide
    · decide
  have hend : (fresh.run lossyEvents).1.tick = .idle := rfl
  have hnone : Holdings.empty.counters["a"]? = none := rfl
  have hserver : fresh.server.held.counters["a"]? = none := rfl
  exact ⟨hgrows, hend, (amount_run rfl rfl rfl hnone hserver hgrows hend).1, by decide +kernel,
    by decide +kernel⟩

end Telemetry.Agent
