/-
The two kinds of store cannot be told apart.

An open database that may be written answers every history of calls as a store in
memory does: it yields the same metrics and refuses with the same words, and both
hold the same afterwards.  A database may also be opened for reading only.  Then it
answers look-ups, but a change that memory takes is refused, so the histories part
at the first change (`history_readOnly_ne_memory`).
-/
import Telemetry.Proofs.Store.Histories

namespace Telemetry.Store

/-! ## Opened for reading only -/

/-- A disk with a database in which nothing is held. -/
def emptyDatabaseDisk : Disk := Disk.empty.put ["metrics.db"] (.database .empty)

/-- A text that opens the database of `emptyDatabaseDisk` for reading only. -/
def readOnlyDsn : String := "sqlite:///metrics.db?mode=ro"

theorem initialise_readOnlyDsn :
    (Database.ofDsn readOnlyDsn).initialise emptyDatabaseDisk =
      .ok ⟨readOnlyDsn, .opened ⟨some ["metrics.db"], true, .empty⟩⟩ := by
  have hdsn : Dsn.ofText? readOnlyDsn = some ⟨"/metrics.db", false, true, false, none⟩ := by
    decide +kernel
  have hlocator : (⟨"/metrics.db", false, true, false, none⟩ : Dsn).locator? =
      some ⟨"/metrics.db", "unix", .read, false, false⟩ := by
    decide +kernel
  have hsteps : PathText.steps "/metrics.db" = ["metrics.db"] := by decide +kernel
  have hfound : emptyDatabaseDisk.follow [] ["metrics.db"] =
      .found ["metrics.db"] (.database .empty) := by
    simp [Disk.follow, emptyDatabaseDisk, Disk.put, Disk.maxNameLength,
      show "metrics.db".utf8ByteSize = 10 from rfl]
  have hlength : Database.pathLength ["metrics.db"] = 11 := by decide +kernel
  have hplace : Database.place? emptyDatabaseDisk "/metrics.db" = some ["metrics.db"] := by
    have habsolute : PathText.isAbsolute "/metrics.db" = true := by decide +kernel
    have hstep : Database.step? emptyDatabaseDisk [] "metrics.db" = some ["metrics.db"] := by
      simp [Database.step?, hfound, hlength, Database.maxPathLength]
    simp [Database.place?, habsolute, hsteps, hstep, hlength, Database.journalLength,
      Database.maxPathLength]
  have haccess : (⟨"/metrics.db", "unix", .read, false, false⟩ : Locator).isAccessible = true ∧
      (⟨"/metrics.db", "unix", .read, false, false⟩ : Locator).isFileless = false := by
    decide +kernel
  have hconnect : Database.connect readOnlyDsn emptyDatabaseDisk =
      .ok ⟨some ["metrics.db"], true, .empty⟩ := by
    simp [Database.connect, hdsn, hlocator, Database.openLocated, haccess.1, haccess.2, hplace,
      Database.openAt, hfound, Locator.isReadOnly]
  simp [Database.initialise, Database.ofDsn, hconnect, Result.map_ok]

/-- A database opened for reading only holds at first what a store in memory holds, and
refuses what that one takes. -/
theorem history_readOnly_ne_memory :
    ∃ s, (Store.database (.ofDsn readOnlyDsn)).initialise emptyDatabaseDisk = .ok s ∧
      s.held = Store.inMemory.held ∧
      (s.history [.update (.counter "a" 1)]).1 ≠
        (Store.inMemory.history [.update (.counter "a" 1)]).1 := by
  refine ⟨.database ⟨readOnlyDsn, .opened ⟨some ["metrics.db"], true, .empty⟩⟩, ?_, rfl, ?_⟩
  · rw [initialise, initialise_readOnlyDsn]
    rfl
  · have hrefused :
        ((Store.database ⟨readOnlyDsn, .opened ⟨some ["metrics.db"], true, .empty⟩⟩).history
          [.update (.counter "a" 1)]).1 = [.error (Database.refused Database.readOnlyText)] := rfl
    obtain ⟨h, htaken⟩ : ∃ h, Memory.update .empty (.counter "a" 1) = .ok h := ⟨_, rfl⟩
    have hmemory : (Store.inMemory.history [.update (.counter "a" 1)]).1 = [.ok .done] := by
      simp [history, call, update, inMemory, htaken, Result.map_ok, after]
    rw [hrefused, hmemory]
    simp

/-! ## Opened for writing -/

/-- An open database that may be written and holds nothing yields in every history
what a store in memory yields, fault for fault, and both hold the same at its end. -/
theorem history_database_eq_memory {db : Database} {c : Connection} (hopen : db.phase = .opened c)
    (hwrite : c.readOnly = false) (hempty : c.tables = .empty) {calls : List Call}
    (hs : ∀ call ∈ calls, call.Storable) :
    ((Store.database db).history calls).1 = (Store.inMemory.history calls).1 ∧
      ((Store.database db).history calls).2.held = (Store.inMemory.history calls).2.held := by
  obtain ⟨dsn, phase⟩ := db
  obtain ⟨file, readOnly, tables⟩ := c
  obtain rfl : phase = .opened ⟨file, readOnly, tables⟩ := hopen
  obtain rfl : readOnly = false := hwrite
  obtain rfl : tables = .empty := hempty
  obtain ⟨ys, k, hmemory, hdatabase⟩ := history_writable dsn file .empty hs
  change ((Store.database (.writable dsn file .empty)).history calls).1 =
      ((Store.memory .empty).history calls).1 ∧
    ((Store.database (.writable dsn file .empty)).history calls).2.held =
      ((Store.memory .empty).history calls).2.held
  rw [hmemory, hdatabase]
  exact ⟨rfl, rfl⟩

/-- Calls with a level, a counter at its limit, a batch that would overflow it and a reset
of what is not held. -/
def sampleCalls : List Call :=
  [.update (.counter "a" Int64.maxValue), .updateAll [.gauge "b" .zero, .counter "a" 1],
    .reset "b", .lookup (.query "a" .counter), .metrics]

theorem storable_sampleCalls : ∀ call ∈ sampleCalls, call.Storable := by
  have hzero : Binary64.zero.Storable := by decide
  intro call hcall m hm x hx
  simp only [sampleCalls, List.mem_cons, List.not_mem_nil, or_false] at hcall
  rcases hcall with rfl | rfl | rfl | rfl | rfl
  · obtain rfl := List.mem_singleton.mp hm
    cases hx
  · rcases List.mem_cons.mp hm with rfl | hm
    · cases hx
      exact hzero
    · obtain rfl := List.mem_singleton.mp hm
      cases hx
  all_goals exact absurd hm List.not_mem_nil

/-- An open database kept in no file and a store in memory answer `sampleCalls` alike. -/
theorem history_sampleCalls :
    (Database.writable "sqlite::memory:" none .empty).phase = .opened ⟨none, false, .empty⟩ ∧
      (∀ call ∈ sampleCalls, call.Storable) ∧
      ((Store.database (.writable "sqlite::memory:" none .empty)).history sampleCalls).1 =
        (Store.inMemory.history sampleCalls).1 ∧
      ((Store.database (.writable "sqlite::memory:" none .empty)).history sampleCalls).2.held =
        (Store.inMemory.history sampleCalls).2.held :=
  ⟨rfl, storable_sampleCalls,
    history_database_eq_memory rfl rfl rfl storable_sampleCalls⟩

end Telemetry.Store
