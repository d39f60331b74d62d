/-
What is recovered after a crash.

A store in memory changes while snapshots of it are written to one path, one after the
other and each step by step.  Every step may fail, and after every step the process may
crash and begin again with what it finds on the disk.  What a run of such events leaves at
the path is the file that was there at first, or the whole snapshot of the state that the
latest dump captured whose file was moved into its place (`Dumped.recovers`); and that is
the state which is restored.

The place beside the path may hold anything: half of a snapshot, or one that an earlier
dump left there.  A dump writes it anew before it moves it.

Nothing but a dump that succeeds touches the file at the path, and one that fails leaves there what
stood there when it began; whatever else happens on the disk, a step of a dump keeps every other
file.  What a dump that has come so far has made sure of (`Dumped.Assured`) is kept by every event,
and with it that a process begins with finite levels, whatever it finds.
-/
import Telemetry.Proofs.Store.Disk
import Telemetry.Proofs.Store.Levels
import Telemetry.Store.Basic

namespace Telemetry

theorem Store.restore_of_read? {path : String} {d : Disk} {h : Holdings} (hh : h.Finite)
    (hback : h.ReadsBack) (hread : d.read? path = some (Snapshot.encode h.metrics)) :
    Store.inMemory.restore path d = .ok (h.metrics.length, .memory h) := by
  have hload : Snapshot.load path d = .ok h.metrics := by
    simp only [Snapshot.load, hread, Snapshot.decode?_encode (Holdings.storable_metrics hh)
      (Holdings.readsBack_metrics hback)]
  have hreplace : Store.inMemory.replaceAll h.metrics = .ok (.memory h) := by
    change (Memory.replaceAll .empty h.metrics).map Store.memory = _
    rw [Holdings.replaceAll_metrics, Result.map_ok]
  rw [restore, hload]
  change (Store.inMemory.replaceAll h.metrics).bind _ = _
  rw [hreplace]
  rfl

/-! ## Runs -/

/-- How far a dump has come. -/
inductive Dumping where
  /-- The counters are read. -/
  | counted (first : Holdings)
  /-- The gauges are read too: a state is captured. -/
  | captured (state : Holdings)
  /-- There is a directory for the snapshot of a state. -/
  | prepared (state : Holdings)
  /-- The snapshot of a state stands beside its place. -/
  | written (state : Holdings)

/-- A store in memory of which snapshots are written to a path. -/
structure Dumped where
  held : Holdings
  disk : Disk
  /-- The dump that goes on, with the disk as it was when the dump began. -/
  dumping : Option (Disk × Dumping)
  /-- What the latest dump captured whose snapshot was moved into its place. -/
  latest : Option Holdings

namespace Dumped

def start (h : Holdings) (d : Disk) : Dumped := ⟨h, d, none, none⟩

/-- What happens to such a store. -/
inductive Event where
  /-- The store is called. -/
  | call (c : Call)
  /-- A dump begins and reads the counters. -/
  | readCounters
  /-- The dump reads the gauges. -/
  | readGauges
  /-- Some of the directories above the snapshot are made: those so many levels up. -/
  | makeDirs (levels : Nat)
  /-- The directory for the snapshot is made. -/
  | prepare
  /-- Something other than the snapshot is written beside its place: a part of it, say. -/
  | writePart (content : Bytes)
  /-- The snapshot is written beside its place. -/
  | write
  /-- The snapshot is moved into its place. -/
  | move
  /-- The step that the dump has come to fails. -/
  | fail (f : Fault)
  /-- The process dies, and another one begins, with what is at the path or with nothing. -/
  | crash (restores : Bool)

/-- The text of a directory some levels above another. -/
def levelUp (text : String) : Nat → String
  | 0 => text
  | levels + 1 => PathText.parent (levelUp text levels)

/-- What a process begins with. -/
def reopen (path : String) (restores : Bool) (d : Disk) : Holdings :=
  match restores, Store.inMemory.restore path d with
  | true, .ok (_, store) => store.held
  | _, _ => .empty

/-- The store after a step of its dump, and what the dump yields if it ends there. -/
def proceed (s : Dumped) (next : Disk × Dumping) : Option Fault × Disk → Dumped × Option (Result Nat)
  | (none, disk) => ({ s with disk, dumping := some next }, none)
  | (some f, disk) => ({ s with disk, dumping := none }, some (.error f))

/-- The store after an event, and what its dump yields if it ends there. -/
def step (path : String) (s : Dumped) : Event → Dumped × Option (Result Nat)
  | .call c => ({ s with held := Memory.afterCall s.held c }, none)
  | .readCounters =>
    match s.dumping with
    | none => ({ s with dumping := some (s.disk, .counted s.held) }, none)
    | some _ => (s, none)
  | .readGauges =>
    match s.dumping with
    | some (begun, .counted first) =>
      ({ s with dumping := some (begun, .captured ⟨first.counters, s.held.gauges⟩) }, none)
    | _ => (s, none)
  | .makeDirs levels =>
    match s.dumping with
    | some (_, .captured _) =>
      ({ s with disk := (s.disk.makeDirs (levelUp (PathText.parent path) levels)).2 }, none)
    | _ => (s, none)
  | .prepare =>
    match s.dumping with
    | some (begun, .captured k) => s.proceed (begun, .prepared k) (Snapshot.prepare path s.disk)
    | _ => (s, none)
  | .writePart content =>
    match s.dumping with
    | some (_, .prepared _) =>
      ({ s with disk := (Snapshot.writeBeside path content s.disk).2 }, none)
    | _ => (s, none)
  | .write =>
    match s.dumping with
    | some (begun, .prepared k) =>
      s.proceed (begun, .written k)
        (Snapshot.writeBeside path (Snapshot.encode k.metrics) s.disk)
    | _ => (s, none)
  | .move =>
    match s.dumping with
    | some (_, .written k) =>
      match Snapshot.moveInto path s.disk with
      | (none, disk) => (⟨s.held, disk, none, some k⟩, some (.ok k.metrics.length))
      | (some f, disk) => ({ s with disk, dumping := none }, some (.error f))
    | _ => (s, none)
  | .fail f =>
    match s.dumping with
    | some _ => ({ s with dumping := none }, some (.error f))
    | none => (s, none)
  | .crash restores => (⟨reopen path restores s.disk, s.disk, none, s.latest⟩, none)

def run (path : String) (s : Dumped) : List Event → Dumped × List (Result Nat)
  | [] => (s, [])
  | e :: rest =>
    let (s, result) := s.step path e
    let (s, results) := s.run path rest
    (s, result.toList ++ results)

/-- The steps of a dump. -/
def dumpEvents : List Event := [.readCounters, .readGauges, .prepare, .write, .move]

/-- The steps of a dump, one after the other, are the dump. -/
theorem run_dumpEvents (path : String) {s : Dumped} (hs : s.dumping = none) :
    s.run path dumpEvents =
      match (Store.memory s.held).dump path s.disk with
      | (.ok n, disk) => (⟨s.held, disk, none, some s.held⟩, [.ok n])
      | (.error f, disk) => (⟨s.held, disk, none, s.latest⟩, [.error f]) := by
  obtain ⟨⟨counters, gauges⟩, disk, dumping, latest⟩ := s
  obtain rfl : dumping = none := hs
  have hmetrics : (Store.memory ⟨counters, gauges⟩).metrics =
      .ok (Holdings.metrics ⟨counters, gauges⟩) := rfl
  simp only [dumpEvents, run, step, Store.dump, hmetrics, Snapshot.dump, Snapshot.step]
  rcases hprepare : Snapshot.prepare path disk with ⟨_ | f, made⟩
  · simp only [proceed]
    rcases hwrite : Snapshot.writeBeside path (Snapshot.encode (Holdings.metrics ⟨counters, gauges⟩))
      made with ⟨_ | f, written⟩
    · simp only
      rcases hmove : Snapshot.moveInto path written with ⟨_ | f, moved⟩
      · simp
      · simp
    · simp
  · simp [proceed]

/-! ## What stands at the path -/

/-- What stands at a path on a disk that was once another one: what stood there then, or the
whole snapshot of the state that was captured last. -/
structure Placed (path : String) (origin : Disk) (latest : Option Holdings) (d : Disk) : Prop where
  current : d.current = origin.current
  first : latest = none → d.fileAt? (origin.placeOf path) = origin.fileAt? (origin.placeOf path)
  file : ∀ k, latest = some k →
    d.fileAt? (origin.placeOf path) = some (.file (Snapshot.encode k.metrics))
  leads : ∀ k, latest = some k → d.place? path = some (origin.placeOf path)

namespace Placed

variable {path : String} {origin d e : Disk} {latest : Option Holdings}

theorem start (path : String) (d : Disk) : Placed path d none d :=
  ⟨rfl, fun _ => rfl, nofun, nofun⟩

theorem keep (h : Placed path origin latest d) (hkeeps : Disk.Keeps (origin.placeOf path) d e) :
    Placed path origin latest e where
  current := hkeeps.current.trans h.current
  first hnone := hkeeps.fileAt?.trans (h.first hnone)
  file k hk := hkeeps.fileAt?.trans (h.file k hk)
  leads k hk := hkeeps.place? (h.file k hk) (h.leads k hk)

theorem move (h : Placed path origin latest d) {k : Holdings}
    (hbeside : d.fileAt? (origin.placeOf (PathText.beside path)) =
      some (.file (Snapshot.encode k.metrics)))
    (hmove : d.move? (PathText.beside path) path = some e) : Placed path origin (some k) e := by
  obtain ⟨node, hnode, hcurrent, hfile, hleads⟩ := Disk.move?_eq_some hmove
  rw [Disk.placeOf_congr h.current, hbeside] at hnode
  rw [Disk.placeOf_congr h.current] at hfile hleads
  obtain rfl := Option.some.inj hnode
  refine ⟨hcurrent.trans h.current, nofun, ?_, ?_⟩
  · rintro _ ⟨⟩
    exact hfile
  · rintro _ ⟨⟩
    exact hleads

theorem read? {k : Holdings} (h : Placed path origin (some k) d) :
    d.read? path = some (Snapshot.encode k.metrics) :=
  Disk.read?_of_fileAt? (h.leads k rfl) (h.file k rfl)

end Placed

/-! ## The steps of a dump -/

section Steps

variable (path : String) {origin : Disk} {d : Disk} (hcurrent : d.current = origin.current)

include hcurrent

theorem keeps_writeBeside (content : Bytes) :
    Disk.Keeps (origin.placeOf path) d (Snapshot.writeBeside path content d).2 := by
  rw [Snapshot.writeBeside]
  split
  · rename_i e hwrite
    refine Disk.keeps_write? hwrite ?_
    rw [Disk.placeOf_congr hcurrent]
    exact origin.placeOf_beside_ne path
  · exact .refl _ d

theorem fileAt?_writeBeside {content : Bytes} {e : Disk}
    (h : Snapshot.writeBeside path content d = (none, e)) :
    e.fileAt? (origin.placeOf (PathText.beside path)) = some (.file content) := by
  rw [Snapshot.writeBeside] at h
  split at h
  · rename_i hwrite
    obtain rfl := (Prod.mk.inj h).2
    rw [(Disk.write?_eq_some hwrite).1, Disk.placeOf_congr hcurrent, Disk.fileAt?_put, if_pos rfl]
  · exact nomatch h

end Steps

theorem keeps_prepare (path : String) (d : Disk) (place : Path) :
    Disk.Keeps place d (Snapshot.prepare path d).2 :=
  (d.grown_makeDirs (PathText.parent path)).keeps place

theorem move?_of_moveInto {path : String} {d e : Disk}
    (h : Snapshot.moveInto path d = (none, e)) : d.move? (PathText.beside path) path = some e := by
  rw [Snapshot.moveInto] at h
  split at h
  · cases h
    assumption
  · cases h

theorem eq_of_moveInto_error {path : String} {d e : Disk} {f : Fault}
    (h : Snapshot.moveInto path d = (some f, e)) : e = d := by
  rw [Snapshot.moveInto] at h
  split at h
  · cases h
  · cases h
    rfl

/-- A dump that succeeds leaves its whole snapshot at the path. -/
theorem read?_of_dump {path : String} {ms : List Metric} {d e : Disk}
    (h : Snapshot.dump path ms d = (none, e)) : e.read? path = some (Snapshot.encode ms) := by
  rw [Snapshot.dump] at h
  rcases hprepare : Snapshot.prepare path d with ⟨_ | f, made⟩
  · have hcurrent : made.current = d.current := by
      have hkeeps := keeps_prepare path d (d.placeOf path)
      rw [hprepare] at hkeeps
      exact hkeeps.current
    rcases hwrite : Snapshot.writeBeside path (Snapshot.encode ms) made with ⟨_ | f, written⟩
    · have hbeside := fileAt?_writeBeside path hcurrent hwrite
      have hwritten : written.current = d.current := by
        have hkeeps := keeps_writeBeside path hcurrent (Snapshot.encode ms)
        rw [hwrite] at hkeeps
        exact hkeeps.current.trans hcurrent
      have hmove : Snapshot.moveInto path written = (none, e) := by
        simpa only [Snapshot.step, hprepare, hwrite] using h
      obtain ⟨node, hnode, _, hfile, hleads⟩ := Disk.move?_eq_some (move?_of_moveInto hmove)
      rw [Disk.placeOf_congr hwritten, hbeside] at hnode
      cases hnode
      exact Disk.read?_of_fileAt? hleads hfile
    · simp [Snapshot.step, hprepare, hwrite] at h
  · simp [Snapshot.step, hprepare] at h

/-! ## What every run keeps -/

/-- What a dump that has come so far has made sure of. -/
def Assured (path : String) (origin d : Disk) : Dumping → Prop
  | .counted _ => True
  | .captured k | .prepared k => k.Finite
  | .written k => k.Finite ∧ d.fileAt? (origin.placeOf (PathText.beside path)) =
      some (.file (Snapshot.encode k.metrics))

/-- What every run keeps: something whole stands at the path, and it has not changed since the
dump that goes on began. -/
structure Sound (path : String) (origin : Disk) (s : Dumped) : Prop where
  placed : Placed path origin s.latest s.disk
  held : s.held.Finite
  latest : ∀ k, s.latest = some k → k.Finite
  dumping : ∀ begun stage, s.dumping = some (begun, stage) →
    s.disk.fileAt? (origin.placeOf path) = begun.fileAt? (origin.placeOf path) ∧
      Assured path origin s.disk stage

/-- What an event brings is finite. -/
def Event.Finite : Event → Prop
  | .call c => c.Finite
  | _ => True

theorem sound_start (path : String) {h : Holdings} (hh : h.Finite) (d : Disk) :
    Sound path d (start h d) := ⟨.start path d, hh, nofun, nofun⟩

theorem finite_reopen (path : String) (restores : Bool) (d : Disk) :
    (reopen path restores d).Finite := by
  unfold reopen
  split
  · rename_i n store hrestore
    obtain ⟨ms, hload, hrest⟩ := Result.bind_eq_ok_iff.mp hrestore
    obtain ⟨store, hreplace, hstore⟩ := Result.bind_eq_ok_iff.mp hrest
    cases hstore
    obtain ⟨k, hk, rfl⟩ := Result.map_eq_ok_iff.mp hreplace
    refine Memory.finite_replaceAll .empty ?_ hk
    rw [Snapshot.load] at hload
    split at hload
    · cases hload
    · split at hload
      · cases hload
        exact Snapshot.finite_of_decode? (by assumption)
      · cases hload
  · exact .empty

theorem sound_disk {path : String} {origin begun e : Disk} {s : Dumped} {stage next : Dumping}
    (h : Sound path origin s) (hs : s.dumping = some (begun, stage))
    (hkeeps : Disk.Keeps (origin.placeOf path) s.disk e) (hnext : Assured path origin e next) :
    Sound path origin ⟨s.held, e, some (begun, next), s.latest⟩ := by
  refine ⟨h.placed.keep hkeeps, h.held, h.latest, ?_⟩
  rintro _ _ ⟨⟩
  exact ⟨hkeeps.fileAt?.trans (h.dumping begun stage hs).1, hnext⟩

theorem sound_proceed {path : String} {origin begun : Disk} {s : Dumped} {stage next : Dumping}
    (h : Sound path origin s) (hs : s.dumping = some (begun, stage)) {r : Option Fault × Disk}
    (hkeeps : Disk.Keeps (origin.placeOf path) s.disk r.2)
    (hnext : r.1 = none → Assured path origin r.2 next) :
    Sound path origin (s.proceed (begun, next) r).1 := by
  obtain ⟨_ | f, disk⟩ := r
  · exact sound_disk h hs hkeeps (hnext rfl)
  · exact ⟨h.placed.keep hkeeps, h.held, h.latest, nofun⟩

theorem sound_step {path : String} {origin : Disk} {s : Dumped} (h : Sound path origin s)
    {e : Event} (he : e.Finite) : Sound path origin (s.step path e).1 := by
  have hcurrent := h.placed.current
  cases e with
  | call c => exact ⟨h.placed, Memory.finite_afterCall h.held he, h.latest, h.dumping⟩
  | readCounters =>
      simp only [step]
      split
      · refine ⟨h.placed, h.held, h.latest, ?_⟩
        rintro _ _ ⟨⟩
        exact ⟨rfl, trivial⟩
      · exact h
  | readGauges =>
      simp only [step]
      split
      · rename_i begun first hs
        refine ⟨h.placed, h.held, h.latest, ?_⟩
        rintro _ _ ⟨⟩
        -- The gauges are those that are held now.
        exact ⟨(h.dumping _ _ hs).1, h.held⟩
      · exact h
  | makeDirs levels =>
      simp only [step]
      split
      · rename_i begun k hs
        rw [hs]
        exact sound_disk h hs ((s.disk.grown_makeDirs _).keeps _) (h.dumping _ _ hs).2
      · exact h
  | prepare =>
      simp only [step]
      split
      · rename_i begun k hs
        exact sound_proceed h hs (keeps_prepare path s.disk _) fun _ => (h.dumping _ _ hs).2
      · exact h
  | writePart content =>
      simp only [step]
      split
      · rename_i begun k hs
        rw [hs]
        exact sound_disk h hs (keeps_writeBeside path hcurrent content) (h.dumping _ _ hs).2
      · exact h
  | write =>
      simp only [step]
      split
      · rename_i begun k hs
        refine sound_proceed h hs (keeps_writeBeside path hcurrent _) fun hnone => ?_
        exact ⟨(h.dumping _ _ hs).2, fileAt?_writeBeside path hcurrent (Prod.ext hnone rfl)⟩
      · exact h
  | move =>
      simp only [step]
      split
      · rename_i begun k hs
        -- Nothing has touched what `write` left beside the path.
        obtain ⟨_, hfinite, hbeside⟩ := h.dumping _ _ hs
        split
        · rename_i disk hmove
          refine ⟨h.placed.move hbeside (move?_of_moveInto hmove), h.held, ?_, nofun⟩
          rintro _ ⟨⟩
          exact hfinite
        · rename_i f disk hmove
          obtain rfl := eq_of_moveInto_error hmove
          exact ⟨h.placed, h.held, h.latest, nofun⟩
      · exact h
  | fail f =>
      simp only [step]
      split
      · exact ⟨h.placed, h.held, h.latest, nofun⟩
      · exact h
  | crash restores => exact ⟨h.placed, finite_reopen path restores s.disk, h.latest, nofun⟩

theorem sound_run {path : String} {origin : Disk} {s : Dumped} (h : Sound path origin s)
    {events : List Event} (he : ∀ e ∈ events, e.Finite) :
    Sound path origin (s.run path events).1 := by
  induction events generalizing s with
  | nil => exact h
  | cons e rest ih =>
      exact ih (sound_step h (he e List.mem_cons_self)) fun x hx => he x (List.mem_cons_of_mem e hx)

theorem disk_proceed (s : Dumped) (next : Disk × Dumping) (r : Option Fault × Disk) :
    (s.proceed next r).1.disk = r.2 := by
  obtain ⟨_ | f, disk⟩ := r
  · rfl
  · rfl

/-- Nothing but a dump that succeeds touches the file at the path. -/
theorem keeps_step {path : String} {origin : Disk} {s : Dumped}
    (hcurrent : s.disk.current = origin.current) {e : Event}
    (he : ∀ n, (s.step path e).2 ≠ some (.ok n)) :
    Disk.Keeps (origin.placeOf path) s.disk (s.step path e).1.disk := by
  cases e with
  | call c => exact .refl _ _
  | crash restores => exact .refl _ _
  | readCounters | readGauges | fail f =>
      simp only [step]
      split
      · exact .refl _ _
      · exact .refl _ _
  | makeDirs levels =>
      simp only [step]
      split
      · exact (Disk.grown_makeDirs _ _).keeps _
      · exact .refl _ _
  | prepare =>
      simp only [step]
      split
      · rw [disk_proceed]
        exact keeps_prepare path s.disk _
      · exact .refl _ _
  | writePart content =>
      simp only [step]
      split
      · exact keeps_writeBeside path hcurrent content
      · exact .refl _ _
  | write =>
      simp only [step]
      split
      · rw [disk_proceed]
        exact keeps_writeBeside path hcurrent _
      · exact .refl _ _
  | move =>
      simp only [step] at he ⊢
      split
      · rename_i begun k hs
        simp only [hs] at he
        split
        · rename_i disk hmove
          simp only [hmove] at he
          exact absurd rfl (he _)
        · rename_i f disk hmove
          obtain rfl := eq_of_moveInto_error hmove
          exact .refl _ _
      · exact .refl _ _

/-- A dump that ends with a fault leaves at the path the file that was there when it began. -/
theorem fileAt?_of_error {path : String} {origin : Disk} {s : Dumped} (h : Sound path origin s)
    {e : Event} {f : Fault} (hf : (s.step path e).2 = some (.error f)) :
    ∃ begun stage, s.dumping = some (begun, stage) ∧
      (s.step path e).1.disk.fileAt? (origin.placeOf path) =
        begun.fileAt? (origin.placeOf path) := by
  have hkeeps : Disk.Keeps (origin.placeOf path) s.disk (s.step path e).1.disk :=
    keeps_step h.placed.current fun n => by rw [hf]; exact nofun
  cases hs : s.dumping with
  | none => cases e <;> simp [step, hs] at hf
  | some dumping =>
      obtain ⟨begun, stage⟩ := dumping
      exact ⟨begun, stage, rfl, hkeeps.fileAt?.trans (h.dumping begun stage hs).1⟩

/-- After every run there stands at the path the file that was there at first, or the whole
snapshot of what the latest dump captured whose snapshot was moved there; a dump that ends
with a fault has changed nothing there; and once a snapshot was moved whose levels read back, a
process that begins with an empty store restores what it shows. -/
theorem recovers (path : String) {h : Holdings} (hh : h.Finite) (d : Disk) {events : List Event}
    (he : ∀ e ∈ events, e.Finite) :
    let s := ((start h d).run path events).1
    (s.latest = none → s.disk.fileAt? (d.placeOf path) = d.fileAt? (d.placeOf path)) ∧
      (∀ k, s.latest = some k →
        s.disk.fileAt? (d.placeOf path) = some (.file (Snapshot.encode k.metrics))) ∧
      (∀ e f, (s.step path e).2 = some (.error f) → ∃ begun stage,
        s.dumping = some (begun, stage) ∧ (s.step path e).1.disk.fileAt? (d.placeOf path) =
          begun.fileAt? (d.placeOf path)) ∧
      ∀ k, s.latest = some k → k.ReadsBack →
        Store.inMemory.restore path s.disk = .ok (k.metrics.length, .memory k) := by
  have hsound := sound_run (sound_start path hh d) he
  intro s
  refine ⟨hsound.placed.first, hsound.placed.file, fun e f => fileAt?_of_error hsound, ?_⟩
  intro k hk hback
  have hplaced := hsound.placed
  rw [show ((start h d).run path events).1.latest = some k from hk] at hplaced
  exact Store.restore_of_read? (hsound.latest k hk) hback hplaced.read?

/-- A dump during which a level is set, and another one that a crash cuts short when half of
its snapshot is written. -/
def sampleEvents : List Event :=
  [.call (.update (.counter "a" 1)), .readCounters, .call (.update (.gauge "b" .zero)),
    .readGauges, .prepare, .write, .move, .call (.update (.counter "a" 1)), .readCounters,
    .readGauges, .makeDirs 0, .prepare, .writePart [0x5B], .crash true]

theorem finite_sampleEvents : ∀ e ∈ sampleEvents, e.Finite := by
  have hzero : Binary64.zero.isFinite = true := by decide
  have hcounter : (Event.call (.update (.counter "a" 1))).Finite := by
    intro m hm x hx
    obtain rfl := List.mem_singleton.mp hm
    cases hx
  have hgauge : (Event.call (.update (.gauge "b" .zero))).Finite := by
    intro m hm x hx
    obtain rfl := List.mem_singleton.mp hm
    cases hx
    exact hzero
  intro e he
  simp only [sampleEvents, List.mem_cons, List.not_mem_nil, or_false] at he
  rcases he with rfl | rfl | rfl | rfl | rfl | rfl | rfl | rfl | rfl | rfl | rfl | rfl | rfl | rfl
  all_goals first | exact hcounter | exact hgauge | exact trivial

/-- After the crash the first dump is restored: the counter as it was then, and the level that
was set while it went on. -/
theorem recovers_sampleEvents :
    Holdings.empty.Finite ∧ (∀ e ∈ sampleEvents, e.Finite) ∧
      let s := ((start .empty .empty).run "/m.json" sampleEvents).1
      s.latest.map (fun k => (k.counters.toList, k.gauges.toList)) =
          some ([("a", 1)], [("b", .zero)]) ∧
        ∀ k, s.latest = some k → Store.inMemory.restore "/m.json" s.disk =
          .ok (k.metrics.length, .memory k) := by
  have hlatest : ((start .empty .empty).run "/m.json" sampleEvents).1.latest.map
      (fun k => (k.counters.toList, k.gauges.toList)) = some ([("a", 1)], [("b", .zero)]) := by
    decide +kernel
  refine ⟨.empty, finite_sampleEvents, hlatest, fun k hk => ?_⟩
  have hback : k.ReadsBack := by
    rw [hk, Option.map_some, Option.some.injEq, Prod.mk.injEq] at hlatest
    refine Holdings.readsBack_of_toList ?_
    rw [hlatest.2]
    decide +kernel
  exact (recovers "/m.json" .empty .empty finite_sampleEvents).2.2.2 k hk hback

end Dumped

end Telemetry
