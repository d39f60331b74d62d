/-
Levels stay finite.

A store whose levels are finite keeps it that way as long as every level that is brought
to it is: no operation computes a level.  JSON cannot write one that is not, so whatever a
snapshot brings is finite (`Snapshot.finite_of_decode?`).
-/
import Telemetry.Proofs.Store.Histories
import Telemetry.Proofs.Store.Snapshot

namespace Telemetry

/-! ## What is read -/

theorem Binary64.isFinite_ofMagnitude (negative : Bool) {m : Nat} (hm : m < infinityMagnitude) :
    (ofMagnitude negative m).isFinite = true := by
  have hlimit : m < 0x7FF0000000000000 := hm
  have hmagnitude : (ofMagnitude negative m).magnitude = m := by
    cases negative
    · simp only [magnitude, ofMagnitude, UInt64.toNat_ofNat', signBit, Bool.false_eq_true, if_false]
      omega
    · simp only [magnitude, ofMagnitude, UInt64.toNat_ofNat', signBit, if_true]
      omega
  rw [isFinite, hmagnitude, decide_eq_true hm]

theorem Json.Number.isFinite_of_binary64? {n : Number} {x : Binary64} (h : n.binary64? = some x) :
    x.isFinite = true := by
  rw [binary64?, Option.ite_none_right_eq_some, Option.some.injEq] at h
  obtain ⟨hlt, rfl⟩ := h
  exact Binary64.isFinite_ofMagnitude n.negative hlt

theorem Json.isFinite_of_binary64? {j : Json} {x : Binary64} (h : j.binary64? = some x) :
    x.isFinite = true := by
  cases j with
  | number n => exact Number.isFinite_of_binary64? h
  | _ => exact nomatch h

theorem Draft.isFinite_of_ofJson? {j : Json} {d : Draft} (h : ofJson? j = some d) {x : Binary64}
    (hx : d.value = some x) : x.isFinite = true := by
  obtain ⟨slots, _, hslots⟩ := Option.bind_eq_some_iff.mp h
  unfold ofSlots? at hslots
  split at hslots
  · simp only [Option.bind_eq_bind, Option.bind_eq_some_iff] at hslots
    obtain ⟨_, _, _, _, _, _, level, hlevel, _, _, hd⟩ := hslots
    cases hd
    obtain rfl : level = some x := hx
    unfold Json.optional at hlevel
    split at hlevel
    · cases hlevel
    · cases hlevel
    · obtain ⟨y, hy, hyx⟩ := Option.map_eq_some_iff.mp hlevel
      obtain rfl := Option.some.inj hyx
      exact Json.isFinite_of_binary64? hy
  · cases hslots

theorem Snapshot.finite_entry {j : Json} {m : Metric} (h : entry? j = some m) : m.Finite := by
  obtain ⟨⟨d, hd, hmetric⟩, -⟩ := entry?_eq_some_iff_draft.mp h
  obtain ⟨kind, _, rfl⟩ := Result.map_eq_ok_iff.mp hmetric
  exact fun x hx => Draft.isFinite_of_ofJson? hd hx

/-- All metrics of a snapshot are finite. -/
theorem Snapshot.finite_of_decode? {content : Bytes} {ms : List Metric}
    (h : decode? content = some ms) : ∀ m ∈ ms, m.Finite := by
  obtain ⟨items, _, rfl⟩ := Option.map_eq_some_iff.mp h
  intro m hm
  obtain ⟨j, _, hj⟩ := List.mem_filterMap.mp hm
  exact finite_entry hj

/-! ## What is held -/

def Reading.Finite (r : Reading) : Prop := ∀ x, r = .gauge x → x.isFinite = true

theorem Metric.Finite.reading {m : Metric} (hm : m.Finite) {r : Reading}
    (hr : m.reading = .ok r) : r.Finite := by
  rintro x rfl
  refine hm x ?_
  unfold Metric.reading at hr
  split at hr <;> cases hr
  assumption

theorem Holdings.finite_readings {ms : List Metric} (hms : ∀ m ∈ ms, m.Finite)
    {rs : List (String × Reading)} (hrs : readings ms = .ok rs) : ∀ r ∈ rs, r.2.Finite := by
  induction ms generalizing rs with
  | nil => cases hrs; exact fun _ hmem => absurd hmem List.not_mem_nil
  | cons m ms ih =>
      obtain ⟨r, rest, hr, hrest, rfl⟩ := readings_cons_eq_ok_iff.mp hrs
      intro x hx
      rcases List.mem_cons.mp hx with rfl | hx
      · exact (hms m List.mem_cons_self).reading hr
      · exact ih (fun n hn => hms n (List.mem_cons_of_mem m hn)) hrest x hx

namespace Holdings.Finite

theorem empty : Holdings.empty.Finite := fun id x h => by
  rw [Holdings.empty, Std.ExtTreeMap.getElem?_empty] at h
  cases h

theorem put {h : Holdings} (hh : h.Finite) (id : String) {r : Reading} (hr : r.Finite) :
    (h.put id r).Finite := by
  cases r with
  | counter n => exact hh
  | gauge level =>
      intro other x hx
      rw [gauges_put_gauge, getElem?_insert] at hx
      split at hx
      · exact hr x (by rw [Option.some.inj hx])
      · exact hh other x hx

end Holdings.Finite

namespace Memory

theorem finite_apply {h k : Holdings} (hh : h.Finite) {id : String} {r : Reading} (hr : r.Finite)
    (hk : apply h id r = .ok k) : k.Finite := by
  cases r with
  | counter d =>
      obtain ⟨n, _, rfl⟩ := Result.map_eq_ok_iff.mp hk
      exact hh.put id nofun
  | gauge level =>
      cases hk
      exact hh.put id hr

theorem finite_applyAll {h k : Holdings} (hh : h.Finite) {rs : List (String × Reading)}
    (hrs : ∀ r ∈ rs, r.2.Finite) (hk : applyAll h rs = .ok k) : k.Finite := by
  induction rs generalizing h with
  | nil => cases hk; exact hh
  | cons r rs ih =>
      rw [applyAll_cons, Result.bind_eq_ok_iff] at hk
      obtain ⟨h', hr, hrest⟩ := hk
      exact ih (finite_apply hh (hrs r List.mem_cons_self) hr)
        (fun x hx => hrs x (List.mem_cons_of_mem r hx)) hrest

theorem finite_updateAll {h k : Holdings} (hh : h.Finite) {batch : List Metric}
    (hb : ∀ m ∈ batch, m.Finite) (hk : updateAll h batch = .ok k) : k.Finite := by
  rw [updateAll_eq, Result.bind_eq_ok_iff] at hk
  obtain ⟨rs, hrs, hall⟩ := hk
  exact finite_applyAll hh (Holdings.finite_readings hb hrs) hall

theorem finite_replaceAll {h k : Holdings} (hh : h.Finite) {ms : List Metric}
    (hms : ∀ m ∈ ms, m.Finite) (hk : replaceAll h ms = .ok k) : k.Finite := by
  obtain ⟨rs, hrs, rfl⟩ := Result.map_eq_ok_iff.mp hk
  have hfinite := Holdings.finite_readings hms hrs
  clear hrs hk
  induction rs generalizing h with
  | nil => exact hh
  | cons r rs ih =>
      exact ih (hh.put r.1 (hfinite r List.mem_cons_self))
        fun x hx => hfinite x (List.mem_cons_of_mem r hx)

end Memory

/-! ## Calls -/

def Call.Finite (c : Call) : Prop := ∀ m ∈ c.written, m.Finite

/-- The holdings of a store in memory after a call. -/
def Memory.afterCall (h : Holdings) (c : Call) : Holdings := ((Store.memory h).call c).2.held

theorem Memory.finite_afterCall {h : Holdings} (hh : h.Finite) {c : Call} (hc : c.Finite) :
    (afterCall h c).Finite := by
  have hafter : ∀ r : Result Holdings, (∀ k, r = .ok k → k.Finite) →
      ((Store.memory h).after (r.map Store.memory)).2.held.Finite := by
    intro r hr
    cases r with
    | error f => exact hh
    | ok k => exact hr k rfl
  cases c with
  | lookup query | metrics => exact hh
  | update m =>
      refine hafter (update h m) fun k hk => ?_
      rw [update_eq_updateAll] at hk
      exact finite_updateAll hh hc hk
  | updateAll batch => exact hafter (updateAll h batch) fun k hk => finite_updateAll hh hc hk
  | reset id =>
      refine hafter (h.reset id) fun k hk => ?_
      rw [Holdings.reset] at hk
      split at hk
      · cases hk
        exact hh.put id nofun
      · cases hk
  | replaceAll ms => exact hafter (replaceAll h ms) fun k hk => finite_replaceAll hh hc hk

end Telemetry
