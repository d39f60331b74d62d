/-
What deliveries acknowledge.

A delivery acknowledges places of the metrics that it was given, each at most once.  By a
request these are all places (`Poster.deliver_places`); by calls they are met in order,
so they increase (`Caller.deliver_places`).
-/
import Telemetry.Agent.Transport

namespace Telemetry.Agent

/-- Places of a list of some length, each at most once. -/
structure Places (length : Nat) (places : List Nat) : Prop where
  nodup : places.Nodup
  lt : ∀ i ∈ places, i < length

theorem Poster.deliver_places {σ : Type} {p : Poster} {seeds : Nat → Oaep.Seed}
    {post : Http.Request → σ → Posted × σ} {ms : List Metric} {w : σ} {places : List Nat}
    (h : (p.deliver seeds post ms w).1 = .ok places) :
    places = List.range ms.length ∧ Places ms.length places := by
  have hrange : places = List.range ms.length := by
    simp only [Poster.deliver] at h
    split at h
    · cases h
    · generalize p.judge _ = judged at h
      cases judged with
      | error f => cases h
      | ok _ => cases h; rfl
  refine ⟨hrange, ?_, ?_⟩
  · rw [hrange]
    exact List.nodup_range
  · intro i hi
    rw [hrange] at hi
    exact List.mem_range.mp hi

namespace Caller

variable {σ κ : Type} {c : Caller} {peer : Peer σ κ}

/-- Calls acknowledge increasing places, none before the first. -/
theorem calls_places (k : κ) (i : Nat) (ms : List Metric) (seq : UInt32) (w : σ) :
    (c.calls peer k i ms seq w).1.places.Pairwise (· < ·) ∧
      ∀ j ∈ (c.calls peer k i ms seq w).1.places, i ≤ j ∧ j < i + ms.length := by
  induction ms generalizing i seq w with
  | nil => exact ⟨List.Pairwise.nil, fun j hj => absurd hj List.not_mem_nil⟩
  | cons m rest ih =>
      rw [calls, List.length_cons]
      split
      · rename_i seq w _
        obtain ⟨hsorted, hwithin⟩ := ih (i + 1) seq w
        refine ⟨List.pairwise_cons.mpr ⟨fun j hj => (hwithin j hj).1, hsorted⟩, fun j hj => ?_⟩
        rcases List.mem_cons.mp hj with rfl | hj
        · exact ⟨Nat.le_refl j, by omega⟩
        · have := hwithin j hj
          omega
      · rename_i seq w _
        obtain ⟨hsorted, hwithin⟩ := ih (i + 1) seq w
        refine ⟨hsorted, fun j hj => ?_⟩
        have := hwithin j hj
        omega
      · exact ⟨List.Pairwise.nil, fun j hj => absurd hj List.not_mem_nil⟩

theorem deliver_places {ms : List Metric} {state : CallerState κ × σ} {places : List Nat}
    (h : (c.deliver peer ms state).1 = .ok places) : Places ms.length places := by
  simp only [deliver] at h
  split at h
  · cases h
  · rename_i k w _
    obtain ⟨hsorted, hwithin⟩ := @calls_places σ κ c peer k 0 ms state.1.nextSeq w
    generalize (c.calls peer k 0 ms state.1.nextSeq w).1 = d at h hsorted hwithin
    have hplaces : d.places = places := by
      simp only [conclude] at h
      split at h
      · cases h
      · cases h; rfl
    rw [hplaces] at hsorted hwithin
    exact ⟨hsorted.imp Nat.ne_of_lt, fun i hi => by have := hwithin i hi; omega⟩

end Caller

end Telemetry.Agent
