/-
What an agent sends is what its server decodes.

An agent polls and reports at the same time, so a run is any sequence of the steps of both
(`Round.run`); nothing is assumed of what comes of a delivery.  A report is such a sequence, also
when polls come in while its delivery is under way (`Round.exists_run_eq_report`).  As levels that
are not finite are left out of batches, an agent holds only what can be written and read again
(`Metric.Plain`), and every step keeps it so.  One level that is not finite would be written as
null, and the server would refuse the whole batch for it at every tick.  So whatever is sent gets
through (`Round.posted_is_decoded`).
-/
import Telemetry.Agent.Poller
import Telemetry.Proofs.Agent.Bodies
import Telemetry.Proofs.Agent.Link
import Telemetry.Proofs.Seal.Oaep
import Telemetry.Proofs.Signature.Binding
import Telemetry.Proofs.Store.Levels

namespace Telemetry

/-! ## What is held -/

/-- A metric as an agent holds it: it has a name, an amount or a finite level, and no
signature. -/
structure Metric.Plain (m : Metric) : Prop where
  named : m.id ≠ ""
  complete : ∃ r, m.reading = .ok r
  finite : m.Finite
  unsigned : m.hash = none

namespace Holdings

/-- Everything that is held has a name. -/
structure Named (h : Holdings) : Prop where
  counters : h.counters[""]? = none
  gauges : h.gauges[""]? = none

theorem named_empty : empty.Named :=
  ⟨Std.ExtTreeMap.getElem?_empty, Std.ExtTreeMap.getElem?_empty⟩

theorem Named.put {h : Holdings} (hh : h.Named) {id : String} (hid : id ≠ "") (r : Reading) :
    (h.put id r).Named := by
  cases r with
  | counter n =>
      refine ⟨?_, hh.gauges⟩
      rw [counters_put_counter, getElem?_insert, if_neg hid]
      exact hh.counters
  | gauge level =>
      refine ⟨hh.counters, ?_⟩
      rw [gauges_put_gauge, getElem?_insert, if_neg hid]
      exact hh.gauges

theorem plain_listing {first second : Holdings} (hfirst : first.Named) (hsecond : second.Named)
    (hfinite : second.Finite) : ∀ m ∈ listing first second, m.Plain := by
  intro m hm
  rcases mem_listing_iff.mp hm with ⟨id, n, hheld, rfl⟩ | ⟨id, x, hheld, rfl⟩
  · refine ⟨?_, ⟨_, Metric.reading_toMetric id _⟩, ?_, rfl⟩
    · rintro (rfl : id = "")
      rw [hfirst.counters] at hheld
      cases hheld
    · rintro x hx
      cases hx
  · refine ⟨?_, ⟨_, Metric.reading_toMetric id _⟩, ?_, rfl⟩
    · rintro (rfl : id = "")
      rw [hsecond.gauges] at hheld
      cases hheld
    · rintro _ ⟨⟩
      exact hfinite id x hheld

end Holdings

namespace Memory

theorem named_apply {h k : Holdings} (hh : h.Named) {id : String} (hid : id ≠ "") {r : Reading}
    (hk : apply h id r = .ok k) : k.Named := by
  cases r with
  | counter d =>
      obtain ⟨n, -, rfl⟩ := Result.map_eq_ok_iff.mp hk
      exact hh.put hid _
  | gauge level =>
      cases hk
      exact hh.put hid _

theorem named_updateAll {h k : Holdings} (hh : h.Named) {batch : List Metric}
    (hb : ∀ m ∈ batch, m.id ≠ "") (hk : updateAll h batch = .ok k) : k.Named := by
  rw [updateAll_eq] at hk
  induction batch generalizing h with
  | nil =>
      cases hk
      exact hh
  | cons m batch ih =>
      obtain ⟨rs, hrs, happlied⟩ := Result.bind_eq_ok_iff.mp hk
      obtain ⟨r, rest, -, hrest, rfl⟩ := Holdings.readings_cons_eq_ok_iff.mp hrs
      rw [applyAll_cons] at happlied
      obtain ⟨h', hr, hlater⟩ := Result.bind_eq_ok_iff.mp happlied
      exact ih (named_apply hh (hb m List.mem_cons_self) hr)
        (fun n hn => hb n (List.mem_cons_of_mem m hn))
        (Result.bind_eq_ok_iff.mpr ⟨rest, hrest, hlater⟩)

end Memory

namespace Store

/-- A store in memory in which everything is named and finite. -/
structure Plain (s : Store) : Prop where
  memory : ∃ h, s = .memory h
  named : s.held.Named
  finite : s.held.Finite

theorem Plain.updateAll {s t : Store} (hs : s.Plain) {batch : List Metric}
    (hids : ∀ m ∈ batch, m.id ≠ "") (hfinite : ∀ m ∈ batch, m.Finite)
    (ht : s.updateAll batch = .ok t) : t.Plain := by
  obtain ⟨h, rfl⟩ := hs.memory
  obtain ⟨k, hk, rfl⟩ := Result.map_eq_ok_iff.mp ht
  exact ⟨⟨k, rfl⟩, Memory.named_updateAll hs.named hids hk,
    Memory.finite_updateAll hs.finite hfinite hk⟩

theorem Plain.reset {s t : Store} (hs : s.Plain) {id : String} (hid : id ≠ "")
    (ht : s.reset id = .ok t) : t.Plain := by
  obtain ⟨h, rfl⟩ := hs.memory
  obtain ⟨k, hk, rfl⟩ := Result.map_eq_ok_iff.mp ht
  rw [Holdings.reset] at hk
  split at hk
  · cases hk
    have hnamed : h.Named := hs.named
    have hfinite : h.Finite := hs.finite
    have hplain : ∀ x, Reading.counter 0 = .gauge x → x.isFinite = true := by
      rintro x hx
      cases hx
    exact ⟨⟨_, rfl⟩, hnamed.put hid (.counter 0), hfinite.put id hplain⟩
  · cases hk

end Store

namespace Agent

/-! ## Rounds -/

/-- An agent, and how far its tick is. -/
structure Round where
  store : Store
  tick : Tick

namespace Round

/-- A step of an agent. -/
inductive Event where
  | poll (samples : Poller.Samples)
  | readCounters
  | readGauges
  /-- A delivery comes to an end, whatever it is. -/
  | conclude (outcome : Result (List Nat))
  | settle

/-- One step; one that does not fit the moment does nothing. -/
def step (r : Round) : Event → Round
  | .poll samples => { r with store := Poller.tick samples r.store }
  | .readCounters =>
    match r.tick with
    | .idle => { r with tick := .reading r.store.held }
    | _ => r
  | .readGauges =>
    match r.tick with
    | .reading first => { r with tick := .ofListing (Holdings.listing first r.store.held) }
    | _ => r
  | .conclude outcome =>
    match r.tick with
    | .sending sent _ =>
      match outcome with
      | .ok places => { r with tick := .ofLeft (Reporter.acknowledged sent places) }
      | .error _ => { r with tick := .idle }
    | _ => r
  | .settle =>
    match r.tick with
    | .settling (m :: left) => ⟨Reporter.settle r.store m, .ofLeft left⟩
    | _ => r

def run (r : Round) (es : List Event) : Round := es.foldl step r

/-- An agent at its start. -/
def start : Round := ⟨.inMemory, .idle⟩

theorem run_append (r : Round) (es fs : List Event) : r.run (es ++ fs) = (r.run es).run fs :=
  List.foldl_append

/-! ## Reports are runs -/

theorem run_polls (s : Store) (tick : Tick) (during : List Poller.Samples) :
    run ⟨s, tick⟩ (during.map .poll) =
      ⟨during.foldl (fun s samples => Poller.tick samples s) s, tick⟩ := by
  induction during generalizing s with
  | nil => rfl
  | cons samples during ih => exact ih (Poller.tick samples s)

theorem run_settle (s : Store) (left : List Metric) :
    run ⟨s, .ofLeft left⟩ (List.replicate left.length .settle) =
      ⟨left.foldl Reporter.settle s, .idle⟩ := by
  induction left generalizing s with
  | nil => rfl
  | cons m left ih =>
      rw [List.length_cons, List.replicate_succ]
      exact ih (Reporter.settle s m)

/-- A delivery that comes to an end, and what is settled then. -/
def ending (sent : List Metric) (outcome : Result (List Nat)) : List Event :=
  .conclude outcome ::
    match outcome with
    | .ok places => List.replicate (Reporter.acknowledged sent places).length .settle
    | .error _ => []

theorem poll_notMem_ending (sent : List Metric) (outcome : Result (List Nat))
    (samples : Poller.Samples) : .poll samples ∉ ending sent outcome := by
  intro h
  cases outcome with
  | ok places =>
      rcases List.mem_cons.mp h with h | h
      · cases h
      · cases List.eq_of_mem_replicate h
  | error fault => cases List.mem_singleton.mp h

theorem run_ending (s : Store) (sent : List Metric) (taken : List Nat)
    (outcome : Result (List Nat)) :
    run ⟨s, .sending sent taken⟩ (ending sent outcome) =
      match outcome with
      | .ok places => ⟨Reporter.settleAll s sent places, .idle⟩
      | .error _ => ⟨s, .idle⟩ := by
  cases outcome with
  | ok places => exact run_settle s (Reporter.acknowledged sent places)
  | error fault => rfl

/-- A report is a run, with the polls that come in while its delivery is under way. -/
theorem exists_run_eq_report {σ : Type} (delivery : Reporter.Delivery σ) {h : Holdings} {w : σ}
    {during : List Poller.Samples}
    (hduring : (delivery h.metrics (.memory h, w)).2.1 =
      during.foldl (fun s samples => Poller.tick samples s) (.memory h)) :
    ∃ es, (∀ samples, .poll samples ∈ es → samples ∈ during) ∧
      run ⟨.memory h, .idle⟩ es = ⟨(Reporter.report delivery (.memory h, w)).2.1, .idle⟩ := by
  -- no poll comes in between the two readings of a report, nor while it settles
  have hread : run ⟨.memory h, .idle⟩ [.readCounters, .readGauges] =
      ⟨.memory h, .ofListing h.metrics⟩ := rfl
  have hmetrics : (Store.memory h).metrics = .ok h.metrics := rfl
  cases hlisting : h.metrics with
  | nil =>
      rw [hlisting] at hread hmetrics
      refine ⟨[.readCounters, .readGauges], by simp, ?_⟩
      simp only [hread, Reporter.report, hmetrics]
      rfl
  | cons m rest =>
      rw [hlisting] at hread hmetrics hduring
      refine ⟨[.readCounters, .readGauges] ++ (during.map .poll ++
        ending (m :: rest) (delivery (m :: rest) (.memory h, w)).1), ?_, ?_⟩
      · intro samples hmem
        rw [List.mem_append, List.mem_append] at hmem
        rcases hmem with hmem | hmem | hmem
        · simp at hmem
        · obtain ⟨_, hsamples, ⟨⟩⟩ := List.mem_map.mp hmem
          exact hsamples
        · exact absurd hmem (poll_notMem_ending _ _ _)
      · rw [run_append, hread, Tick.ofListing, run_append, run_polls, ← hduring, run_ending]
        simp only [Reporter.report, hmetrics, Reporter.deliver]
        generalize delivery (m :: rest) (.memory h, w) = done
        obtain ⟨outcome, s, w'⟩ := done
        cases outcome <;> rfl

end Round

/-! ## Every step keeps it -/

/-- Samples in which every metric has a name; sources may fail, and values may be any. -/
def Poller.Named (samples : Poller.Samples) : Prop :=
  ∀ ms, .ok ms ∈ samples → ∀ m ∈ ms, m.id ≠ ""

theorem Poller.id_ne_empty_of_mem_batch {samples : Poller.Samples} (h : Named samples) {m : Metric}
    (hm : m ∈ batch samples) : m.id ≠ "" := by
  obtain ⟨hgiven, -⟩ := List.mem_filter.mp hm
  obtain ⟨sample, hsample, hms⟩ := List.mem_flatMap.mp hgiven
  cases sample with
  | ok ms => exact h ms hsample m hms
  | error fault => exact absurd hms List.not_mem_nil

theorem Poller.finite_of_mem_batch {samples : Poller.Samples} {m : Metric}
    (hm : m ∈ batch samples) : m.Finite := by
  obtain ⟨-, hsound⟩ := List.mem_filter.mp hm
  intro x hx
  rw [isSound, hx] at hsound
  exact hsound

end Agent

namespace Store.Plain

open Agent

variable {s t : Store}

theorem tick (hs : s.Plain) {samples : Poller.Samples} (h : Poller.Named samples) :
    (Poller.tick samples s).Plain := by
  rw [Poller.tick]
  cases hpoll : Poller.poll samples s with
  | error fault => exact hs
  | ok polled =>
      obtain ⟨t, ht, rfl⟩ := Result.map_eq_ok_iff.mp hpoll
      exact hs.updateAll (fun m => Poller.id_ne_empty_of_mem_batch h)
        (fun m => Poller.finite_of_mem_batch) ht

theorem takeOff (hs : s.Plain) {id : String} (hid : id ≠ "") {sent : Int64}
    (ht : Reporter.takeOff s id sent = .ok t) : t.Plain := by
  rw [Reporter.takeOff] at ht
  split at ht
  · exact hs.reset hid ht
  · have hfinite : (Metric.counter id (-sent)).Finite := by
      intro x hx
      cases hx
    rw [update_eq_updateAll] at ht
    exact hs.updateAll (List.forall_mem_singleton.mpr hid)
      (List.forall_mem_singleton.mpr hfinite) ht

theorem settle (hs : s.Plain) {m : Metric} (hid : m.id ≠ "") :
    (Reporter.settle s m).Plain := by
  rw [Reporter.settle]
  split
  · split
    · exact hs
    · split
      · rename_i t ht
        exact hs.takeOff hid ht
      · exact hs
  · exact hs

end Store.Plain

namespace Agent

/-- What was read and what was sent is named, and can be written and read again. -/
def Tick.Plain : Tick → Prop
  | idle => True
  | reading first => first.Named
  | sending sent _ => ∀ m ∈ sent, m.Plain
  | settling left => ∀ m ∈ left, m.Plain

theorem Tick.plain_ofListing {ms : List Metric} (h : ∀ m ∈ ms, m.Plain) : (ofListing ms).Plain := by
  cases ms with
  | nil => trivial
  | cons m rest => exact h

theorem Tick.plain_ofLeft {ms : List Metric} (h : ∀ m ∈ ms, m.Plain) : (ofLeft ms).Plain := by
  cases ms with
  | nil => trivial
  | cons m rest => exact h

namespace Round

/-- Nothing is held or under way that could not be sent. -/
structure Plain (r : Round) : Prop where
  store : r.store.Plain
  tick : r.tick.Plain

theorem plain_start : start.Plain where
  store := ⟨⟨_, rfl⟩, Holdings.named_empty, Holdings.Finite.empty⟩
  tick := trivial

theorem Plain.step {r : Round} (h : r.Plain) {e : Event}
    (he : ∀ samples, e = .poll samples → Poller.Named samples) : (r.step e).Plain := by
  obtain ⟨s, tick⟩ := r
  have htick : tick.Plain := h.tick
  cases e with
  | poll samples => exact ⟨h.store.tick (he samples rfl), htick⟩
  | readCounters =>
      cases tick with
      | idle => exact ⟨h.store, h.store.named⟩
      | _ => exact h
  | readGauges =>
      cases tick with
      | reading first =>
          exact ⟨h.store, Tick.plain_ofListing
            (Holdings.plain_listing htick h.store.named h.store.finite)⟩
      | _ => exact h
  | conclude outcome =>
      cases tick with
      | sending sent taken =>
          cases outcome with
          | ok places =>
              exact ⟨h.store, Tick.plain_ofLeft fun m hm =>
                htick m (Reporter.mem_of_mem_acknowledged sent hm)⟩
          | error fault => exact ⟨h.store, trivial⟩
      | _ => exact h
  | settle =>
      cases tick with
      | settling left =>
          cases left with
          | nil => exact h
          | cons m left =>
              exact ⟨h.store.settle (htick m List.mem_cons_self).named,
                Tick.plain_ofLeft fun n hn => htick n (List.mem_cons_of_mem m hn)⟩
      | _ => exact h

theorem Plain.run {r : Round} (h : r.Plain) {es : List Event}
    (hes : ∀ samples, .poll samples ∈ es → Poller.Named samples) : (r.run es).Plain := by
  induction es generalizing r with
  | nil => exact h
  | cons e es ih =>
      refine ih (h.step ?_) fun samples hs => hes samples (List.mem_cons_of_mem e hs)
      rintro samples rfl
      exact hes samples List.mem_cons_self

end Round

/-! ## What is sent -/

namespace Round

/-- Whatever samples came in and whatever came of earlier deliveries: what an agent sends can be
signed, and has a body unless the key to seal with is too small.  A server with the same key and
the matching seal opens this body, decodes from it the metrics that were sent, to the bit and in
their order if their levels, which are all finite, read back, and verifies them.  They have signatures just when there is a key. -/
theorem posted_is_decoded {es : List Event}
    (hes : ∀ samples, .poll samples ∈ es → Poller.Named samples) {sent : List Metric}
    {taken : List Nat} (hsending : (start.run es).tick = .sending sent taken) {p : Poster}
    {s : Server} (hkey : p.signer = s.signer) (hpaired : Paired p.sealer s.unsealer)
    (seeds : Nat → Oaep.Seed) :
    ∃ json ms, Metric.batchBody p.signer sent = .ok json ∧
      ((∀ k, p.sealer = some k → Oaep.overhead < k.size) → ∃ body, p.body seeds sent = .ok body) ∧
      ms.map Metric.unsigned = sent ∧ (∀ m ∈ ms, m.hash.isSome = p.signer.isSome) ∧
      (∀ m ∈ sent, m.Finite) ∧
      (json.length ≤ Gzip.maxInflated → ∀ body, p.body seeds sent = .ok body →
        s.openBody body true = .ok json ∧ ((∀ m ∈ sent, m.ReadsBack) →
          Metric.decodeBatch json = .ok ms ∧ ms.forM s.verify = .ok ())) := by
  have hplain : ∀ m ∈ sent, m.Plain := by
    have htick := (plain_start.run hes).tick
    rwa [hsending] at htick
  have hfinite : ∀ m ∈ sent, m.Finite := fun m hm => (hplain m hm).finite
  obtain ⟨ns, hns, hjson⟩ := Metric.exists_batchBody (fun m hm => (hplain m hm).complete) p.signer
  -- a signature is never empty, so that none gets lost on the way
  have hreceived : ns.map Metric.received = ns := by
    have hsame : ∀ n ∈ ns, n.received = id n := Metric.forall_mem_signed hns hplain
      fun m n hmn hm => Metric.received_of_signed hmn hm.unsigned
    rw [List.map_congr_left hsame, List.map_id]
  refine ⟨_, ns, hjson, Poster.exists_body hjson, ?_, ?_, hfinite, fun hsize body hbody =>
    ⟨Server.openBody_body hpaired hjson hsize hbody, fun hback => ⟨?_, ?_⟩⟩⟩
  · have hsame : ∀ m ∈ sent, m.unsigned = id m := fun m hm => by
      rw [Metric.unsigned, ← (hplain m hm).unsigned, id]
    rw [Metric.map_unsigned_of_signed hns, List.map_congr_left hsame, List.map_id]
  · exact Metric.forall_mem_signed hns hplain fun m n hmn hm =>
      Metric.isSome_hash_of_signed hmn hm.unsigned
  · obtain ⟨ns', hns', hdecode⟩ := Metric.decodeBatch_batchBody hjson hfinite
    obtain rfl : ns = ns' := Except.ok.inj (hns.symm.trans hns')
    refine (hdecode ns).mpr (List.map_congr_left fun n hn => ?_)
    obtain ⟨m, hm, hmn⟩ := Result.exists_of_mem_mapM hns hn
    have hm' := hplain m hm
    obtain ⟨r, hr⟩ := hm'.complete
    rw [Metric.decodeUpdate_encode (Metric.finite_of_signed hmn hm'.finite)
      (Metric.readsBack_of_signed hmn (hback m hm)) (by rw [Metric.id_of_signed hmn]; exact hm'.named),
      Metric.received_of_signed hmn hm'.unsigned, Metric.complete, Metric.reading_of_signed hmn, hr,
      Result.map_ok]
  · rw [hkey] at hns
    rw [← hreceived]
    exact Server.forM_verify_received hns

/-- A poster with a key and a sealer. -/
def sealedPoster : Poster :=
  ⟨"localhost:8080", some secretSigner, some (Sealer.ofKey Rsa.pair.publicKey)⟩

/-- A server with the same key and the matching unsealer. -/
def sealedServer : Server :=
  ⟨.inMemory, some secretSigner, some (Unsealer.ofKey Rsa.pair), none, .empty⟩

/-- Two polls, one of them while a listing is made.  A source fails, and there is a level that is
not a number. -/
def sampleRound : List Event :=
  [.poll [.error (.unavailable "no source"),
      .ok [.gauge "nan" ⟨0x7ff8000000000000⟩, .counter "a \"b\"" 2]],
    .readCounters, .poll [.ok [.counter "a \"b\"" 1, .gauge "half" ⟨0x3fe0000000000000⟩]],
    .readGauges]

def sampleSent : List Metric := [.counter "a \"b\"" 2, .gauge "half" ⟨0x3fe0000000000000⟩]

theorem posted_is_decoded_sample :
    (∀ samples, .poll samples ∈ sampleRound → Poller.Named samples) ∧
      (start.run sampleRound).tick = .sending sampleSent [] ∧
      sealedPoster.signer = sealedServer.signer ∧
      Paired sealedPoster.sealer sealedServer.unsealer ∧
      ∀ seeds, ∃ body json ms, sealedPoster.body seeds sampleSent = .ok body ∧
        sealedServer.openBody body true = .ok json ∧ Metric.decodeBatch json = .ok ms ∧
        ms.map Metric.unsigned = sampleSent ∧ (∀ m ∈ ms, m.hash.isSome = true) ∧
        ms.forM sealedServer.verify = .ok () := by
  have hes : ∀ samples, .poll samples ∈ sampleRound → Poller.Named samples := by
    intro samples hmem ms hms
    simp only [sampleRound, List.mem_cons, List.not_mem_nil, or_false, false_or, reduceCtorEq,
      Event.poll.injEq] at hmem
    rcases hmem with rfl | rfl
    · simp only [List.mem_cons, List.not_mem_nil, or_false, reduceCtorEq, false_or,
        Except.ok.injEq] at hms
      rw [hms]
      decide
    · rw [Except.ok.inj (List.mem_singleton.mp hms)]
      decide
  have hsending : (start.run sampleRound).tick = .sending sampleSent [] := rfl
  have hpaired : Paired sealedPoster.sealer sealedServer.unsealer :=
    .sealed Sealer.openedBy_pair
  refine ⟨hes, hsending, rfl, hpaired, fun seeds => ?_⟩
  obtain ⟨json, ms, hjson, hbody, hsame, hhash, -, hdecoded⟩ :=
    posted_is_decoded hes hsending rfl hpaired seeds
  have hroom : Oaep.overhead < (Sealer.ofKey Rsa.pair.publicKey).size := by
    have hsize : (Sealer.ofKey Rsa.pair.publicKey).size = Oaep.overhead + 2 := Rsa.size_pair
    omega
  obtain ⟨body, hbody⟩ := hbody fun k hk => by
    obtain rfl := Option.some.inj hk
    exact hroom
  have hsize : json.length ≤ Gzip.maxInflated := by
    have hshort : ((Metric.batchBody sealedPoster.signer sampleSent).toOption.all
        fun json => json.length ≤ Gzip.maxInflated) = true := by decide +kernel
    exact Result.of_toOption_all hshort json hjson
  have hback : ∀ m ∈ sampleSent, m.ReadsBack := by
    have hlevels : ∀ m ∈ sampleSent, ∀ x ∈ m.value, x.ReadsBack := by decide +kernel
    exact fun m hm x hx _ => hlevels m hm x hx
  obtain ⟨hopened, hdecoded⟩ := hdecoded hsize body hbody
  obtain ⟨hread, hverified⟩ := hdecoded hback
  exact ⟨body, json, ms, hbody, hopened, hread, hsame, hhash, hverified⟩

end Round

end Agent

end Telemetry
