/-
A batch, and its metrics each on its own.

A batch is taken as a whole or refused as a whole.  Its metrics can also be given to the store
one by one, and each is taken or refused on its own (`Store.takeEach`).  A store that takes the
batch takes every one of them, and is the same afterwards (`Store.takeEach_of_updateAll`).  A
store that refuses the batch takes those that leave their counters in range.  If no two of them
are of one kind and identifier, it does not matter to a metric what became of the others: then
these are the metrics for which there was room before, and they are taken as a batch would be
(`Store.Writable.takeEach`).
-/
import Mathlib.Data.List.Basic
import Telemetry.Proofs.Store.Histories

namespace Telemetry

/-! ## Readings -/

namespace Store

/-- Applies readings as a whole. -/
def applyAll (s : Store) (rs : List (String × Reading)) : Result Store :=
  match s with
  | memory h => (Memory.applyAll h rs).map memory
  | database db => (db.transact Database.accumulate rs).map database

theorem updateAll_eq (s : Store) (batch : List Metric) :
    s.updateAll batch = (Holdings.readings batch).bind s.applyAll := by
  cases s with
  | memory h =>
      rw [updateAll, Memory.updateAll_eq]
      cases Holdings.readings batch <;> rfl
  | database db =>
      rw [updateAll, Database.updateAll, Database.writeAll]
      cases Holdings.readings batch <;> rfl

theorem update_eq_applyAll (s : Store) (m : Metric) :
    s.update m = m.reading.bind fun r => s.applyAll [(m.id, r)] := by
  rw [update_eq_updateAll, updateAll_eq, Holdings.readings_cons, Holdings.readings_nil]
  cases m.reading <;> rfl

theorem update_congr (s : Store) {m n : Metric} (hid : m.id = n.id)
    (hreading : m.reading = n.reading) : s.update m = s.update n := by
  rw [update_eq_applyAll, update_eq_applyAll, hid, hreading]

theorem applyAll_nil {s t : Store} (h : s.applyAll [] = .ok t) : s = t := by
  cases s with
  | memory h' => exact Except.ok.inj h
  | database db =>
      obtain ⟨db', hdb, rfl⟩ := Result.map_eq_ok_iff.mp h
      obtain ⟨c, hc, hrows⟩ := Result.bind_eq_ok_iff.mp hdb
      rw [if_neg fun hreadOnly => hreadOnly.2 rfl] at hrows
      obtain ⟨dsn, phase⟩ := db
      cases phase with
      | unopened | closed last => cases hc
      | opened c' =>
          obtain rfl : c' = c := Except.ok.inj hc
          obtain rfl := Except.ok.inj hrows
          rfl

theorem applyAll_writable (dsn : String) (file : Option Path) (tables : Holdings)
    (rs : List (String × Reading)) :
    (database (.writable dsn file tables)).applyAll rs =
      (rs.foldlM Database.accumulate tables).map fun t => database (.writable dsn file t) := by
  rw [applyAll, Database.transact_writable]
  cases rs.foldlM Database.accumulate tables <;> rfl

theorem applyAll_readOnly (dsn : String) (file : Option Path) (tables : Holdings)
    (r : String × Reading) (rs : List (String × Reading)) :
    (database ⟨dsn, .opened ⟨file, true, tables⟩⟩).applyAll (r :: rs) =
      .error (Database.refused Database.readOnlyText) := by
  rw [applyAll, Database.transact, Database.connection, Result.bind_ok,
    if_pos ⟨rfl, List.cons_ne_nil r rs⟩]
  rfl

theorem applyAll_cons (s : Store) (r : String × Reading) (rs : List (String × Reading)) :
    s.applyAll (r :: rs) = (s.applyAll [r]).bind fun t => t.applyAll rs := by
  cases s with
  | memory h =>
      simp only [applyAll, Memory.applyAll_cons, Memory.applyAll_nil]
      cases Memory.apply h r.1 r.2 <;> rfl
  | database db =>
      obtain ⟨dsn, phase⟩ := db
      cases phase with
      | unopened | closed last => rfl
      | opened c =>
          obtain ⟨file, readOnly, tables⟩ := c
          cases readOnly with
          | true => rw [applyAll_readOnly, applyAll_readOnly]; rfl
          | false =>
              have happly := applyAll_writable dsn file tables
              have hone : [r].foldlM Database.accumulate tables =
                  (Database.accumulate tables r).bind .ok := rfl
              have hall : (r :: rs).foldlM Database.accumulate tables =
                  (Database.accumulate tables r).bind fun t => rs.foldlM Database.accumulate t :=
                rfl
              rw [Database.writable] at happly
              rw [happly, happly, hone, hall]
              cases Database.accumulate tables r with
              | error f => rfl
              | ok t => exact (applyAll_writable dsn file t rs).symm

theorem updateAll_cons (s : Store) (m : Metric) {ms : List Metric} {rs : List (String × Reading)}
    (hrs : Holdings.readings ms = .ok rs) :
    s.updateAll (m :: ms) = (s.update m).bind fun t => t.updateAll ms := by
  simp only [updateAll_eq, Holdings.readings_cons, update_eq_applyAll, hrs, Result.map_ok,
    Result.bind_ok]
  cases m.reading with
  | error f => rfl
  | ok r => exact s.applyAll_cons (m.id, r) rs

end Store

/-! ## Room -/

/-- Whether a counter stays in range with a metric.  A gauge adds nothing to any counter. -/
def Holdings.HasRoom (h : Holdings) (m : Metric) : Prop :=
  Integer.InRange (h.amount m.id + m.increment m.id)

instance (h : Holdings) (m : Metric) : Decidable (h.HasRoom m) :=
  inferInstanceAs (Decidable (Integer.InRange _))

/-- Metrics of different kinds or identifiers. -/
def Metric.Apart (m n : Metric) : Prop := ¬(m.kind = n.kind ∧ m.id = n.id)

/-- A metric that can be kept anywhere: it says something, and if that is a level, it is a
number. -/
def Metric.Keepable (m : Metric) : Prop :=
  ∃ r, m.reading = .ok r ∧ ∀ x, r = .gauge x → x.isNaN = false

theorem Holdings.hasRoom_of_increment_eq_zero {h : Holdings} {m : Metric}
    (hm : m.increment m.id = 0) : h.HasRoom m := by
  rw [HasRoom, hm, Int.add_zero, amount]
  exact Integer.inRange_toInt _

/-- A metric takes room from none that is apart from it, and makes room for none. -/
theorem Store.hasRoom_update_iff {s t : Store} {m n : Metric} (ht : s.update m = .ok t)
    (hapart : m.Apart n) : t.held.HasRoom n ↔ s.held.HasRoom n := by
  rw [update_eq_updateAll] at ht
  have hamount := amount_updateAll ht n.id
  rw [Metric.total, Metric.total, Int.add_zero] at hamount
  by_cases hnamed : m.kind = .counter ∧ m.id = n.id
  · have hkind : n.kind ≠ .counter := fun hn => hapart ⟨hnamed.1.trans hn.symm, hnamed.2⟩
    have hn : n.increment n.id = 0 := if_neg fun h => hkind h.1
    exact iff_of_true (Holdings.hasRoom_of_increment_eq_zero hn)
      (Holdings.hasRoom_of_increment_eq_zero hn)
  · have hm : m.increment n.id = 0 := if_neg hnamed
    rw [Holdings.HasRoom, Holdings.HasRoom, hamount, hm, Int.add_zero]

namespace Memory

theorem apply_cases (h : Holdings) {m : Metric} {r : Reading} (hr : m.reading = .ok r) :
    (h.HasRoom m ∧ ∃ k, apply h m.id r = .ok k) ∨
      (¬h.HasRoom m ∧ apply h m.id r = .error (Holdings.overflow m.id)) := by
  rw [Holdings.HasRoom, Metric.increment_eq hr]
  cases r with
  | gauge x =>
      refine .inl ⟨?_, _, rfl⟩
      rw [Reading.increment, Int.add_zero, Holdings.amount]
      exact Integer.inRange_toInt _
  | counter d =>
      rw [Reading.increment, if_pos rfl, Holdings.amount, apply, sum]
      cases hsum : Integer.toInt64? ((h.counters[m.id]?.getD 0).toInt + d.toInt) with
      | none => exact .inr ⟨Integer.toInt64?_eq_none_iff.mp hsum, rfl⟩
      | some n =>
          refine .inl ⟨Decidable.byContradiction fun hout => ?_, _, rfl⟩
          rw [Integer.toInt64?_eq_none_iff.mpr hout] at hsum
          cases hsum

end Memory

namespace Store

/-- A store that can be written: one in memory, or an open database that is not for reading
only. -/
inductive Writable : Store → Prop
  | memory (h : Holdings) : Writable (.memory h)
  | database (dsn : String) (file : Option Path) (tables : Holdings) :
      Writable (.database (.writable dsn file tables))

/-- A store that takes something, or refuses it because a counter overflows, can be written. -/
theorem writable_of_applyAll {s : Store} {rs : List (String × Reading)}
    (h : (rs ≠ [] ∧ ∃ t, s.applyAll rs = .ok t) ∨
      ∃ id, s.applyAll rs = .error (Holdings.overflow id)) : s.Writable := by
  cases s with
  | memory k => exact .memory k
  | database db =>
      obtain ⟨dsn, phase⟩ := db
      cases phase with
      | unopened | closed last =>
          rcases h with ⟨-, t, h⟩ | ⟨id, h⟩
          · cases h
          · cases h
      | opened c =>
          obtain ⟨file, readOnly, tables⟩ := c
          cases readOnly with
          | false => exact .database dsn file tables
          | true =>
              cases rs with
              | nil =>
                  rcases h with ⟨hne, -⟩ | ⟨id, h⟩
                  · exact absurd rfl hne
                  · cases h
              | cons r rs =>
                  rw [applyAll_readOnly] at h
                  rcases h with ⟨-, t, h⟩ | ⟨id, h⟩
                  · cases h
                  · cases h

namespace Writable

variable {s : Store} {m : Metric}

theorem accumulate_cases (t : Holdings) {r : Reading} (hr : m.reading = .ok r)
    (hnumber : ∀ x, r = .gauge x → x.isNaN = false) :
    (t.HasRoom m ∧ ∃ u, Database.accumulate t (m.id, r) = .ok u) ∨
      (¬t.HasRoom m ∧ Database.accumulate t (m.id, r) = .error (Holdings.overflow m.id)) := by
  cases r with
  | counter d =>
      rw [Database.accumulate, Database.addRow_eq]
      exact Memory.apply_cases t hr
  | gauge x =>
      have hkept : Database.accumulate t (m.id, .gauge x) =
          .ok (t.put m.id (.gauge (Database.kept x))) := by
        rw [Database.accumulate, Database.setGauge, hnumber x rfl, if_neg Bool.false_ne_true]
      rcases Memory.apply_cases t hr with ⟨hroom, -⟩ | ⟨-, happly⟩
      · exact .inl ⟨hroom, _, hkept⟩
      · cases happly

/-- A store that can be written takes just the metrics for which it has room. -/
theorem update_cases (hs : s.Writable) (hm : m.Keepable) :
    (s.held.HasRoom m ∧ ∃ t, s.update m = .ok t ∧ t.Writable) ∨
      (¬s.held.HasRoom m ∧ s.update m = .error (Holdings.overflow m.id)) := by
  obtain ⟨r, hr, hnumber⟩ := hm
  rw [update_eq_applyAll, hr, Result.bind_ok]
  cases hs with
  | memory h =>
      rw [applyAll, Memory.applyAll_cons]
      rcases Memory.apply_cases h hr with ⟨hroom, k, hk⟩ | ⟨hfull, hrefused⟩
      · exact .inl ⟨hroom, _, by rw [hk]; rfl, .memory k⟩
      · exact .inr ⟨hfull, by rw [hrefused]; rfl⟩
  | database dsn file tables =>
      have hone : [(m.id, r)].foldlM Database.accumulate tables =
          (Database.accumulate tables (m.id, r)).bind .ok := rfl
      rw [applyAll_writable, hone]
      rcases accumulate_cases tables hr hnumber with ⟨hroom, k, hk⟩ | ⟨hfull, hrefused⟩
      · exact .inl ⟨hroom, _, by rw [hk]; rfl, .database dsn file k⟩
      · exact .inr ⟨hfull, by rw [hrefused]; rfl⟩

end Writable

/-! ## Each on its own -/

/-- Gives metrics to a store one by one; yields the places of those that it takes, and the store
then.  `i` is the place of the first. -/
def takeEach (s : Store) (i : Nat) : List Metric → List Nat × Store
  | [] => ([], s)
  | m :: ms =>
    match s.update m with
    | .ok t => (i :: (t.takeEach (i + 1) ms).1, (t.takeEach (i + 1) ms).2)
    | .error _ => s.takeEach (i + 1) ms

theorem findIdxs_congr {α : Type} {p q : α → Bool} {l : List α} (h : ∀ a ∈ l, p a = q a)
    (i : Nat) : l.findIdxs p i = l.findIdxs q i := by
  induction l generalizing i with
  | nil => rfl
  | cons a l ih =>
      rw [List.findIdxs_cons, List.findIdxs_cons, h a List.mem_cons_self,
        ih fun b hb => h b (List.mem_cons_of_mem a hb)]

/-- A store that takes a batch takes every metric of it, and is the same afterwards. -/
theorem takeEach_of_updateAll {s t : Store} {ms : List Metric} {rs : List (String × Reading)}
    (hrs : Holdings.readings ms = .ok rs) (h : s.updateAll ms = .ok t) (i : Nat) :
    s.takeEach i ms = (List.range' i ms.length, t) := by
  induction ms generalizing s i rs with
  | nil =>
      rw [updateAll_eq] at h
      rw [takeEach, applyAll_nil h]
      rfl
  | cons m ms ih =>
      obtain ⟨r, rest, -, hrest, rfl⟩ := Holdings.readings_cons_eq_ok_iff.mp hrs
      rw [updateAll_cons s m hrest] at h
      obtain ⟨u, hu, hlater⟩ := Result.bind_eq_ok_iff.mp h
      simp only [takeEach, hu, ih hrest hlater, List.length_cons, List.range'_succ]

/-- Without two metrics of one kind and identifier, a store takes those for which it has room,
and is then as it would be with these as a batch. -/
theorem Writable.takeEach {s : Store} (hs : s.Writable) {ms : List Metric}
    (hms : ∀ m ∈ ms, m.Keepable) (hapart : ms.Pairwise Metric.Apart) (i : Nat) :
    (s.takeEach i ms).1 = ms.findIdxs (s.held.HasRoom ·) i ∧
      s.updateAll (ms.filter (s.held.HasRoom ·)) = .ok (s.takeEach i ms).2 := by
  induction ms generalizing s i with
  | nil => cases hs <;> exact ⟨rfl, rfl⟩
  | cons m ms ih =>
      have hrest := fun n hn => hms n (List.mem_cons_of_mem m hn)
      obtain ⟨hfirst, htail⟩ := List.pairwise_cons.mp hapart
      rw [List.findIdxs_cons, List.filter_cons]
      rcases hs.update_cases (hms m List.mem_cons_self) with
        ⟨hroom, t, ht, hwritable⟩ | ⟨hfull, hrefused⟩
      · -- the room of the others is what it was before the first was taken
        have hsame : ∀ n ∈ ms, decide (t.held.HasRoom n) = decide (s.held.HasRoom n) :=
          fun n hn => decide_eq_decide.mpr (hasRoom_update_iff ht (hfirst n hn))
        obtain ⟨rs, hrs⟩ : ∃ rs, Holdings.readings (ms.filter (s.held.HasRoom ·)) = .ok rs :=
          Holdings.exists_readings_iff.mpr fun n hn =>
            (hrest n (List.mem_filter.mp hn).1).imp fun _ h => h.1
        obtain ⟨hplaces, hall⟩ := ih hwritable hrest htail (i + 1)
        rw [List.filter_congr hsame] at hall
        simp only [Store.takeEach, ht, hroom, decide_true, if_true, hplaces]
        refine ⟨congrArg _ (findIdxs_congr hsame (i + 1)), ?_⟩
        rw [updateAll_cons s m hrs, ht]
        exact hall
      · obtain ⟨hplaces, hall⟩ := ih hs hrest htail (i + 1)
        simp only [Store.takeEach, hrefused, hfull, decide_false, Bool.false_eq_true, if_false]
        exact ⟨hplaces, hall⟩

end Store

end Telemetry
