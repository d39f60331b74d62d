/-
Histories of a store.

A store is used through six calls, and all that can be told of it from outside is
what a sequence of calls yields.  A call that is refused leaves the store as it
was.  `Store.held` looks inside: what counters and gauges there are, wherever
they are kept.

A transaction commits the tables that its rows make, or fails as they do.  So what a call does to
a database that may be written is what it does in memory, as long as its levels are storable
(`Store.call_writable`), and a history does the same.
-/
import Telemetry.Proofs.Store.Rows
import Telemetry.Store.Basic

namespace Telemetry

/-- A call on a store. -/
inductive Call where
  /-- Asks for one metric. -/
  | lookup (query : Metric)
  /-- Asks for everything. -/
  | metrics
  /-- Adds to a counter or replaces a gauge. -/
  | update (m : Metric)
  /-- Applies a batch as a whole. -/
  | updateAll (batch : List Metric)
  /-- Sets a counter to zero. -/
  | reset (id : String)
  /-- Writes metrics in place of what is held. -/
  | replaceAll (ms : List Metric)

/-- The metrics that a call brings to be written. -/
def Call.written : Call → List Metric
  | .update m => [m]
  | .updateAll ms | .replaceAll ms => ms
  | .lookup _ | .metrics | .reset _ => []

/-- What a call yields that is not refused. -/
inductive Yield where
  | metric (m : Metric)
  | metrics (ms : List Metric)
  | done

namespace Store

/-- What counters and gauges there are; none in a database that is not open yet. -/
def held : Store → Holdings
  | memory h => h
  | database db =>
    match db.phase with
    | .unopened => .empty
    | .opened c | .closed c => c.tables

/-- The store after an operation that may be refused. -/
def after (s : Store) : Result Store → Result Yield × Store
  | .ok t => (.ok .done, t)
  | .error f => (.error f, s)

/-- What a call yields, and the store after it. -/
def call (s : Store) : Call → Result Yield × Store
  | .lookup query => ((s.lookup query).map .metric, s)
  | .metrics => (s.metrics.map .metrics, s)
  | .update m => s.after (s.update m)
  | .updateAll batch => s.after (s.updateAll batch)
  | .reset id => s.after (s.reset id)
  | .replaceAll ms => s.after (s.replaceAll ms)

/-- What calls yield in turn, and the store after them. -/
def history (s : Store) : List Call → List (Result Yield) × Store
  | [] => ([], s)
  | c :: rest =>
    let (r, s) := s.call c
    let (rs, s) := s.history rest
    (r :: rs, s)

theorem update_eq_updateAll (s : Store) (m : Metric) : s.update m = s.updateAll [m] := by
  cases s with
  | memory h => rw [update, updateAll, Memory.update_eq_updateAll]
  | database db => rfl

end Store

/-! ## An open database beside a store in memory -/

namespace Database

/-- An open database that may be written, with its tables. -/
def writable (dsn : String) (file : Option Path) (tables : Holdings) : Database :=
  ⟨dsn, .opened ⟨file, false, tables⟩⟩

variable {dsn : String} {file : Option Path} (h : Holdings)

theorem connection_writable :
    (writable dsn file h).connection = .ok ⟨file, false, h⟩ := rfl

/-- A transaction commits the tables that its rows make, or fails as they do. -/
theorem transact_writable (row : Holdings → String × Reading → Result Holdings)
    (rs : List (String × Reading)) :
    (writable dsn file h).transact row rs = (rs.foldlM row h).map (writable dsn file) := by
  rw [transact, connection_writable, Result.bind_ok, if_neg (fun hc => Bool.false_ne_true hc.1)]
  rfl

/-- What a batch of storable levels does to a database is what it does in memory. -/
theorem updateAll_writable {batch : List Metric}
    (hs : ∀ rs, Holdings.readings batch = .ok rs → Storable rs) :
    (writable dsn file h).updateAll batch = (Memory.updateAll h batch).map (writable dsn file) := by
  rw [updateAll, writeAll, Memory.updateAll_eq]
  cases hrs : Holdings.readings batch with
  | error f => rfl
  | ok rs =>
      rw [Result.bind_ok, Result.bind_ok, transact_writable, foldlM_accumulate_eq (hs rs hrs)]

theorem replaceAll_writable {ms : List Metric}
    (hs : ∀ rs, Holdings.readings ms = .ok rs → Storable rs) :
    (writable dsn file h).replaceAll ms = (Memory.replaceAll h ms).map (writable dsn file) := by
  rw [replaceAll, writeAll, Memory.replaceAll]
  cases hrs : Holdings.readings ms with
  | error f => rfl
  | ok rs =>
      rw [Result.bind_ok, transact_writable, foldlM_assign_eq (hs rs hrs)]
      rfl

theorem reset_writable (id : String) :
    (writable dsn file h).reset id = (h.reset id).map (writable dsn file) := by
  rw [reset, connection_writable]
  rfl

end Database

/-- A call all of whose levels a database can hold as they are. -/
def Call.Storable (c : Call) : Prop :=
  ∀ m ∈ c.written, ∀ x, m.reading = .ok (.gauge x) → x.Storable

theorem Holdings.storable_readings {ms : List Metric}
    (hs : ∀ m ∈ ms, ∀ x, m.reading = .ok (.gauge x) → x.Storable) {rs : List (String × Reading)}
    (hrs : readings ms = .ok rs) : Database.Storable rs := by
  induction ms generalizing rs with
  | nil => cases hrs; exact fun _ _ hmem => absurd hmem List.not_mem_nil
  | cons m ms ih =>
      obtain ⟨r, rest, hr, hrest, rfl⟩ := readings_cons_eq_ok_iff.mp hrs
      intro id x hmem
      rcases List.mem_cons.mp hmem with heq | hmem
      · cases heq
        exact hs m List.mem_cons_self x hr
      · exact ih (fun m hm => hs m (List.mem_cons_of_mem _ hm)) hrest id x hmem

namespace Store

variable (dsn : String) (file : Option Path)

theorem after_writable (h : Holdings) (r : Result Holdings) :
    ∃ (y : Result Yield) (k : Holdings), (memory h).after (r.map memory) = (y, memory k) ∧
      (database (.writable dsn file h)).after ((r.map (Database.writable dsn file)).map database) =
        (y, database (.writable dsn file k)) := by
  cases r with
  | ok k => exact ⟨.ok .done, k, rfl, rfl⟩
  | error f => exact ⟨.error f, h, rfl, rfl⟩

/-- One call yields the same on both sides and leaves the same behind. -/
theorem call_writable (h : Holdings) {c : Call} (hs : c.Storable) :
    ∃ (y : Result Yield) (k : Holdings), (memory h).call c = (y, memory k) ∧
      (database (.writable dsn file h)).call c = (y, database (.writable dsn file k)) := by
  cases c with
  | lookup query => exact ⟨(h.lookup query).map .metric, h, rfl, rfl⟩
  | metrics => exact ⟨.ok (.metrics h.metrics), h, rfl, rfl⟩
  | update m =>
      have hdb : (Database.writable dsn file h).update m =
          (Memory.update h m).map (Database.writable dsn file) := by
        rw [Database.update, Memory.update_eq_updateAll]
        exact Database.updateAll_writable h fun rs => Holdings.storable_readings hs
      simp only [call, update, hdb]
      exact after_writable dsn file h (Memory.update h m)
  | updateAll batch =>
      have hdb : (Database.writable dsn file h).updateAll batch =
          (Memory.updateAll h batch).map (Database.writable dsn file) :=
        Database.updateAll_writable h fun rs => Holdings.storable_readings hs
      simp only [call, updateAll, hdb]
      exact after_writable dsn file h (Memory.updateAll h batch)
  | reset id =>
      simp only [call, reset, Database.reset_writable]
      exact after_writable dsn file h (h.reset id)
  | replaceAll ms =>
      have hdb : (Database.writable dsn file h).replaceAll ms =
          (Memory.replaceAll h ms).map (Database.writable dsn file) :=
        Database.replaceAll_writable h fun rs => Holdings.storable_readings hs
      simp only [call, replaceAll, hdb]
      exact after_writable dsn file h (Memory.replaceAll h ms)

theorem history_writable (h : Holdings) {calls : List Call} (hs : ∀ c ∈ calls, c.Storable) :
    ∃ (ys : List (Result Yield)) (k : Holdings), (memory h).history calls = (ys, memory k) ∧
      (database (.writable dsn file h)).history calls = (ys, database (.writable dsn file k)) := by
  induction calls generalizing h with
  | nil => exact ⟨[], h, rfl, rfl⟩
  | cons c rest ih =>
      obtain ⟨y, k, hmem, hdb⟩ := call_writable dsn file h (hs c List.mem_cons_self)
      obtain ⟨ys, k', hmems, hdbs⟩ := ih k fun c hc => hs c (List.mem_cons_of_mem _ hc)
      refine ⟨y :: ys, k', ?_, ?_⟩
      · simp only [history, hmem, hmems]
      · simp only [history, hdb, hdbs]

end Store

/-! ## What a store is given -/

theorem Database.amount_updateAll {db db' : Database} {batch : List Metric}
    (hb : db.updateAll batch = .ok db') (id : String) :
    (Store.database db').held.amount id =
      (Store.database db).held.amount id + Metric.total id batch := by
  obtain ⟨rs, hrs, htransact⟩ := Result.bind_eq_ok_iff.mp hb
  obtain ⟨c, hc, hrows⟩ := Result.bind_eq_ok_iff.mp htransact
  have hheld : (Store.database db).held = c.tables := by
    rw [connection] at hc
    split at hc
    · exact nomatch hc
    · rename_i hphase
      cases hc
      simp only [Store.held, hphase]
    · exact nomatch hc
  split at hrows
  · exact nomatch hrows
  · obtain ⟨tables, htables, rfl⟩ := Result.map_eq_ok_iff.mp hrows
    rw [hheld, Metric.total_eq hrs]
    exact amount_foldlM_accumulate htables id

namespace Store

variable {s t : Store}

theorem amount_updateAll {batch : List Metric} (hb : s.updateAll batch = .ok t) (id : String) :
    t.held.amount id = s.held.amount id + Metric.total id batch := by
  cases s with
  | memory h =>
      obtain ⟨k, hk, rfl⟩ := Result.map_eq_ok_iff.mp hb
      exact Memory.amount_updateAll hk id
  | database db =>
      obtain ⟨db', hdb, rfl⟩ := Result.map_eq_ok_iff.mp hb
      exact Database.amount_updateAll hdb id

theorem updateAll_memory {h : Holdings} {batch : List Metric}
    (hb : (memory h).updateAll batch = .ok t) : ∃ k, t = .memory k := by
  obtain ⟨k, _, rfl⟩ := Result.map_eq_ok_iff.mp hb
  exact ⟨k, rfl⟩

end Store

end Telemetry
