/-
A loop that writes snapshots, event by event.

The loop works while others change the store, and it may be told to stop at any moment: before its
first tick, while it waits, or while it writes.  Where a tick has come as well it may take this one
first.  A dump goes step by step, each of which may fail, and reads the counters before the gauges.

What an event comes to is said once, for a dump (`Dumping.Goes`) and for the loop
(`DumpLoop.State.Does`).  Where every dump is taken at a stroke the loop is the one that runs
(`DumpLoop.run_onStore`).
-/
import Telemetry.Proofs.Store.Histories
import Telemetry.Proofs.Store.Recovery
import Telemetry.Store.DumpLoop

namespace Telemetry

theorem Store.metrics_eq_held {s : Store} {ms : List Metric} (h : s.metrics = .ok ms) :
    ms = s.held.metrics := by
  cases s with
  | memory k =>
      cases h
      rfl
  | database db =>
      obtain ⟨c, hc, rfl⟩ := Result.map_eq_ok_iff.mp h
      rw [Database.connection] at hc
      split at hc
      · cases hc
      · rename_i hphase
        cases hc
        simp only [held, hphase]
      · cases hc

/-! ## One dump -/

namespace Dumping

/-- What happens to a dump that goes on. -/
inductive Step where
  | readGauges
  /-- Some of the directories above the snapshot are made: those so many levels up. -/
  | makeDirs (levels : Nat)
  | prepare
  /-- Something other than the snapshot is written beside its place: a part of it, say. -/
  | writePart (content : Bytes)
  | write
  | move
  /-- The step that the dump has come to fails. -/
  | fail (f : Fault)

/-- How a dump stands. -/
inductive Progress where
  | goesOn (stage : Dumping)
  /-- It is over: the snapshot of a state is in its place, or there is a fault. -/
  | ends (outcome : Result Holdings)

/-- How a dump stands after something that it did to the disk. -/
def Progress.after (next : Progress) : Option Fault × Disk → Disk × Progress
  | (none, d) => (d, next)
  | (some f, d) => (d, .ends (.error f))

/-- The disk after a step of a dump, and how the dump stands.  A step that it has not come to does
nothing. -/
def step (path : String) (store : Store) (d : Disk) : Dumping → Step → Disk × Progress
  | _, .fail f => (d, .ends (.error f))
  | .counted first, .readGauges =>
    match store.metrics with
    | .ok _ => (d, .goesOn (.captured ⟨first.counters, store.held.gauges⟩))
    | .error f => (d, .ends (.error f))
  | .captured k, .makeDirs levels =>
    ((d.makeDirs (Dumped.levelUp (PathText.parent path) levels)).2, .goesOn (.captured k))
  | .captured k, .prepare =>
    (Progress.goesOn (.prepared k)).after (Snapshot.prepare path d)
  | .prepared k, .writePart content =>
    ((Snapshot.writeBeside path content d).2, .goesOn (.prepared k))
  | .prepared k, .write =>
    (Progress.goesOn (.written k)).after
      (Snapshot.writeBeside path (Snapshot.encode k.metrics) d)
  | .written k, .move => (Progress.ends (.ok k)).after (Snapshot.moveInto path d)
  | stage, _ => (d, .goesOn stage)

/-- The steps that lead a dump to its end. -/
def steps : List Step := [.readGauges, .prepare, .write, .move]

/-- Those of them that are still to come. -/
def remaining : Dumping → List Step
  | .counted _ => steps
  | .captured _ => [.prepare, .write, .move]
  | .prepared _ => [.write, .move]
  | .written _ => [.move]

/-- The state that a dump has captured. -/
def state? : Dumping → Option Holdings
  | .counted _ => none
  | .captured k | .prepared k | .written k => some k

/-- The counters that a dump has read. -/
def counters : Dumping → Std.ExtTreeMap String Int64
  | .counted k | .captured k | .prepared k | .written k => k.counters

/-- A snapshot that is written stands beside its place. -/
def Beside (path : String) (origin d : Disk) : Dumping → Prop
  | .written k => d.fileAt? (origin.placeOf (PathText.beside path)) =
      some (.file (Snapshot.encode k.metrics))
  | _ => True

/-- What a step of a dump comes to, on a disk that was once another one. -/
inductive Goes (path : String) (origin : Disk) (store : Store) (d : Disk) :
    Dumping → Step → Disk → Progress → Prop
  /-- The dump stays where it is. -/
  | stays {stage : Dumping} {st : Step} {e : Disk} :
      stage.remaining.head? ≠ some st → Disk.Keeps (origin.placeOf path) d e →
      (stage.Beside path origin d → stage.Beside path origin e) →
      Goes path origin store d stage st e (.goesOn stage)
  | fails {stage : Dumping} {st : Step} {e : Disk} {f : Fault} :
      Disk.Keeps (origin.placeOf path) d e →
      Goes path origin store d stage st e (.ends (.error f))
  | reads {first : Holdings} {ms : List Metric} : store.metrics = .ok ms →
      Goes path origin store d (.counted first) .readGauges d
        (.goesOn (.captured ⟨first.counters, store.held.gauges⟩))
  | prepares {k : Holdings} {e : Disk} : Disk.Keeps (origin.placeOf path) d e →
      Goes path origin store d (.captured k) .prepare e (.goesOn (.prepared k))
  | writes {k : Holdings} {e : Disk} : Disk.Keeps (origin.placeOf path) d e →
      Beside path origin e (.written k) →
      Goes path origin store d (.prepared k) .write e (.goesOn (.written k))
  | moves {k : Holdings} {e : Disk} : d.move? (PathText.beside path) path = some e →
      Goes path origin store d (.written k) .move e (.ends (.ok k))

variable {path : String} {store : Store} {d e origin : Disk} {stage next : Dumping} {st : Step}

theorem goes_step (path : String) (store : Store) (hcurrent : d.current = origin.current)
    (stage : Dumping) (st : Step) :
    Goes path origin store d stage st (stage.step path store d st).1
      (stage.step path store d st).2 := by
  unfold step
  split
  · exact .fails (.refl _ d)
  · split
    · exact .reads ‹_›
    · exact .fails (.refl _ d)
  · exact .stays nofun ((d.grown_makeDirs _).keeps _) fun _ => trivial
  · have hkeeps := Dumped.keeps_prepare path d (origin.placeOf path)
    rcases hprepare : Snapshot.prepare path d with ⟨_ | f, made⟩
    · rw [hprepare] at hkeeps
      exact .prepares hkeeps
    · rw [hprepare] at hkeeps
      exact .fails hkeeps
  · exact .stays nofun (Dumped.keeps_writeBeside path hcurrent _) fun _ => trivial
  · rename_i k
    have hkeeps := Dumped.keeps_writeBeside path hcurrent (Snapshot.encode k.metrics)
    rcases hwrite : Snapshot.writeBeside path (Snapshot.encode k.metrics) d with ⟨_ | f, written⟩
    · rw [hwrite] at hkeeps
      exact .writes hkeeps (Dumped.fileAt?_writeBeside path hcurrent hwrite)
    · rw [hwrite] at hkeeps
      exact .fails hkeeps
  · rcases hmove : Snapshot.moveInto path d with ⟨_ | f, moved⟩
    · exact .moves (Dumped.move?_of_moveInto hmove)
    · obtain rfl := Dumped.eq_of_moveInto_error hmove
      exact .fails (.refl _ _)
  · rename_i hreads _ hprepare _ hwrite hmove
    refine .stays ?_ (.refl _ d) id
    cases stage with
    | counted first =>
        rintro ⟨⟩
        exact hreads first rfl rfl
    | captured k =>
        rintro ⟨⟩
        exact hprepare k rfl rfl
    | prepared k =>
        rintro ⟨⟩
        exact hwrite k rfl rfl
    | written k =>
        rintro ⟨⟩
        exact hmove k rfl rfl

end Dumping

/-! ## The loop -/

namespace DumpLoop

/-- A loop that writes snapshots, with what it works on. -/
structure State where
  store : Store
  disk : Disk
  /-- Whether the loop was told to stop; it need not have noticed. -/
  told : Bool
  phase : Loop.Phase
  /-- The dump that goes on. -/
  dumping : Option Dumping

/-- What happens to such a loop. -/
inductive Event where
  /-- The store is changed by others. -/
  | outside (change : Store → Store)
  /-- The loop is told to stop. -/
  | cancel
  /-- The loop takes a tick. -/
  | tick
  /-- The loop notices that it was told to stop. -/
  | notice
  /-- Something happens to the dump that goes on. -/
  | dump (st : Dumping.Step)

/-- A dump that is over. -/
structure Attempt where
  /-- Whether it was the leave that the loop took. -/
  last : Bool
  /-- The state whose snapshot was moved into its place, if nothing failed. -/
  outcome : Result Holdings

/-- The state that the latest of several attempts left a snapshot of. -/
def latest (attempts : List Attempt) : Option Holdings :=
  (attempts.filterMap fun a => a.outcome.toOption).getLast?

namespace State

def start (store : Store) (d : Disk) : State := ⟨store, d, false, .starting, none⟩

/-- The loop has ended and returned. -/
def IsOver (s : State) : Prop := s.phase = .ended ∧ s.dumping = none

/-- The loop when its dump is over. -/
def finish (s : State) (disk : Disk) (outcome : Result Holdings) : State × Option Attempt :=
  ({ s with disk, dumping := none }, some ⟨s.phase = .ended, outcome⟩)

/-- The loop when it begins a dump. -/
def begin (s : State) : State × Option Attempt :=
  match s.store.metrics with
  | .ok _ => ({ s with dumping := some (.counted s.store.held) }, none)
  | .error f => s.finish s.disk (.error f)

/-- The loop after a signal. -/
def hear (s : State) (signal : Loop.Signal) : State × Option Attempt :=
  match s.phase.on signal with
  | (phase, .rest) => ({ s with phase }, none)
  | (phase, _) => { s with phase }.begin

/-- The loop after a step of its dump. -/
def goOn (s : State) : Disk × Dumping.Progress → State × Option Attempt
  | (disk, .goesOn stage) => ({ s with disk, dumping := some stage }, none)
  | (disk, .ends outcome) => s.finish disk outcome

/-- The loop after an event, and the attempt that is over then.  While a dump goes on the loop
hears nothing. -/
def step (path : String) (s : State) : Event → State × Option Attempt
  | .outside change => ({ s with store := change s.store }, none)
  | .cancel => ({ s with told := true }, none)
  | .tick =>
    match s.dumping with
    | none => s.hear .tick
    | some _ => (s, none)
  | .notice =>
    match s.dumping, s.told with
    | none, true => s.hear .cancel
    | _, _ => (s, none)
  | .dump st =>
    match s.dumping with
    | none => (s, none)
    | some stage => s.goOn (stage.step path s.store s.disk st)

def run (path : String) (s : State) : List Event → State × List Attempt
  | [] => (s, [])
  | e :: rest =>
    let (s, attempt) := s.step path e
    let (s, attempts) := s.run path rest
    (s, attempt.toList ++ attempts)

end State

variable {path : String} {origin : Disk} {s t : State} {e : Event} {phase : Loop.Phase}
  {attempts : List Attempt}

theorem latest_concat_ok {a : Attempt} {k : Holdings} (h : a.outcome = .ok k) :
    latest (attempts ++ [a]) = some k := by
  simp [latest, h, Except.toOption]

theorem latest_concat_error {a : Attempt} {f : Fault} (h : a.outcome = .error f) :
    latest (attempts ++ [a]) = latest attempts := by
  simp [latest, h, Except.toOption]

namespace State

theorem run_append (path : String) (s : State) (xs ys : List Event) :
    s.run path (xs ++ ys) = (((s.run path xs).1.run path ys).1,
      (s.run path xs).2 ++ ((s.run path xs).1.run path ys).2) := by
  induction xs generalizing s with
  | nil => simp [run]
  | cons x rest ih => simp only [List.cons_append, run, ih, List.append_assoc]

theorem run_concat (path : String) (s : State) (events : List Event) (e : Event) :
    s.run path (events ++ [e]) = (((s.run path events).1.step path e).1,
      (s.run path events).2 ++ ((s.run path events).1.step path e).2.toList) := by
  rw [run_append]
  simp only [run, List.append_nil]

/-- What holds at first and is kept by every event holds after every run. -/
theorem run_induction {motive : List Event → State → List Attempt → Prop} (path : String)
    (s : State) (nil : motive [] s [])
    (concat : ∀ events e, motive events (s.run path events).1 (s.run path events).2 →
      motive (events ++ [e]) ((s.run path events).1.step path e).1
        ((s.run path events).2 ++ ((s.run path events).1.step path e).2.toList))
    (events : List Event) : motive events (s.run path events).1 (s.run path events).2 := by
  induction events using List.reverseRecOn with
  | nil => exact nil
  | append_singleton events e ih =>
      rw [run_concat]
      exact concat events e ih

/-! ## What an event does -/

/-- An event begins a dump, and the phase of the loop is another one then. -/
inductive Begins (s : State) : Event → Loop.Phase → Prop
  | periodic : s.dumping = none → s.phase = .running → Begins s .tick .running
  | last : s.dumping = none → s.told = true → s.phase ≠ .ended → Begins s .notice .ended

/-- What an event comes to. -/
inductive Does (path : String) (origin : Disk) (s : State) : Event → State → Option Attempt → Prop
  | changes (change : Store → Store) :
      Does path origin s (.outside change) { s with store := change s.store } none
  | hears : Does path origin s .cancel { s with told := true } none
  | passes : s.dumping = none → s.phase = .starting →
      Does path origin s .tick { s with phase := .running } none
  | waits : (s.dumping = none → s.phase = .ended) → Does path origin s .tick s none
  | works : (s.dumping = none → s.told = true → s.phase = .ended) →
      Does path origin s .notice s none
  | rests {st : Dumping.Step} : s.dumping = none → Does path origin s (.dump st) s none
  | begins {e : Event} {phase : Loop.Phase} : Begins s e phase →
      Does path origin s e { s with phase, dumping := some (.counted s.store.held) } none
  | refused {e : Event} {phase : Loop.Phase} {f : Fault} : Begins s e phase →
      Does path origin s e { s with phase, dumping := none } (some ⟨phase = .ended, .error f⟩)
  | goesOn {stage next : Dumping} {st : Dumping.Step} {disk : Disk} : s.dumping = some stage →
      stage.Goes path origin s.store s.disk st disk (.goesOn next) →
      Does path origin s (.dump st) { s with disk, dumping := some next } none
  | ends {stage : Dumping} {st : Dumping.Step} {disk : Disk} {outcome : Result Holdings} :
      s.dumping = some stage → stage.Goes path origin s.store s.disk st disk (.ends outcome) →
      Does path origin s (.dump st) { s with disk, dumping := none }
        (some ⟨s.phase = .ended, outcome⟩)

theorem does_begin (h : Begins s e phase) :
    Does path origin s e ({ s with phase }.begin).1 ({ s with phase }.begin).2 := by
  rw [begin]
  split
  · exact .begins h
  · exact .refused h

theorem does_step (path : String) (hcurrent : s.disk.current = origin.current) (e : Event) :
    Does path origin s e (s.step path e).1 (s.step path e).2 := by
  cases e with
  | outside change => exact .changes change
  | cancel => exact .hears
  | tick =>
      simp only [step]
      split
      · rename_i hidle
        cases hphase : s.phase with
        | starting =>
            simp only [hear, hphase, Loop.Phase.on]
            exact .passes hidle hphase
        | running =>
            simp only [hear, hphase, Loop.Phase.on]
            exact does_begin (.periodic hidle hphase)
        | ended =>
            simp only [hear, hphase, Loop.Phase.on]
            rw [← hphase]
            exact .waits fun _ => hphase
      · rename_i hbusy
        exact .waits fun hidle => nomatch hidle.symm.trans hbusy
  | notice =>
      simp only [step]
      split
      · rename_i hidle htold
        by_cases hphase : s.phase = .ended
        · simp only [hear, hphase, Loop.Phase.on]
          rw [← hphase]
          exact .works fun _ _ => hphase
        · have hleave : s.phase.on .cancel = (.ended, .leave) := by
            cases h : s.phase with
            | starting | running => rfl
            | ended => exact absurd h hphase
          simp only [hear, hleave]
          exact does_begin (.last hidle htold hphase)
      · rename_i hbusy
        exact .works fun hidle htold => absurd htold (hbusy hidle)
  | dump st =>
      simp only [step]
      split
      · exact .rests ‹_›
      · rename_i stage hstage
        have hgoes := Dumping.goes_step path s.store hcurrent stage st
        rcases hstep : stage.step path s.store s.disk st with ⟨disk, next | outcome⟩
        · rw [hstep] at hgoes
          exact .goesOn hstage hgoes
        · rw [hstep] at hgoes
          exact .ends hstage hgoes

/-! ## Dumps at a stroke -/

theorem run_steps_of_idle (hs : s.dumping = none) :
    s.run path (Dumping.steps.map .dump) = (s, []) := by
  simp [Dumping.steps, run, step, hs]

/-- The steps of a dump, one after the other, are the dump. -/
theorem run_begin (path : String) (s : State) :
    (s.begin.1.run path (Dumping.steps.map .dump)).1 =
      { s with disk := (s.store.dump path s.disk).2, dumping := none } := by
  rw [begin, Store.dump]
  cases hmetrics : s.store.metrics with
  | error f =>
      change (State.run path { s with dumping := none } _).1 = _
      rw [run_steps_of_idle rfl]
  | ok ms =>
      obtain rfl := Store.metrics_eq_held hmetrics
      simp only [Dumping.steps, List.map_cons, List.map_nil, run, step, goOn, Dumping.step, hmetrics,
        Snapshot.dump, Snapshot.step]
      rcases Snapshot.prepare path s.disk with ⟨_ | f, made⟩
      · simp only [Dumping.Progress.after]
        rcases Snapshot.writeBeside path (Snapshot.encode s.store.held.metrics) made with
          ⟨_ | f, written⟩
        · simp only
          rcases Snapshot.moveInto path written with ⟨_ | f, moved⟩
          · rfl
          · rfl
        · rfl
      · rfl

end State

/-- The events of a loop whose dumps are taken at a stroke. -/
def spread : Loop.Event Store → List Event
  | .signal .tick => .tick :: Dumping.steps.map .dump
  | .signal .cancel => .cancel :: .notice :: Dumping.steps.map .dump
  | .outside change => [.outside change]

/-- An event that changes only the store. -/
def onStore : Loop.Event Store → Loop.Event (Store × Disk)
  | .signal signal => .signal signal
  | .outside change => .outside fun state => (change state.1, state.2)

namespace State

theorem run_hear (path : String) (hs : s.dumping = none) (signal : Loop.Signal) :
    let t := ((s.hear signal).1.run path (Dumping.steps.map .dump)).1
    Loop.step (dump path) (dump path) (s.phase, s.store, s.disk) (.signal signal) =
        (t.phase, t.store, t.disk) ∧ t.dumping = none := by
  simp only [hear, Loop.step]
  rcases s.phase.on signal with ⟨phase, act⟩
  cases act with
  | rest =>
      dsimp only
      rw [run_steps_of_idle (s := { s with phase }) hs]
      exact ⟨rfl, hs⟩
  | work | leave =>
      dsimp only
      rw [run_begin]
      exact ⟨rfl, rfl⟩

theorem run_spread (path : String) (hs : s.dumping = none) (e : Loop.Event Store) :
    let t := (s.run path (spread e)).1
    Loop.step (dump path) (dump path) (s.phase, s.store, s.disk) (onStore e) =
        (t.phase, t.store, t.disk) ∧ t.dumping = none := by
  obtain ⟨store, disk, told, phase, dumping⟩ := s
  obtain rfl : dumping = none := hs
  cases e with
  | signal signal =>
      cases signal with
      | tick => exact run_hear path (s := ⟨store, disk, told, phase, none⟩) rfl .tick
      | cancel => exact run_hear path (s := ⟨store, disk, true, phase, none⟩) rfl .cancel
  | outside change => exact ⟨rfl, rfl⟩

theorem run_flatMap_spread (path : String) (hs : s.dumping = none)
    (events : List (Loop.Event Store)) :
    let t := (s.run path (events.flatMap spread)).1
    Loop.run (dump path) (dump path) (s.phase, s.store, s.disk) (events.map onStore) =
        (t.phase, t.store, t.disk) ∧ t.dumping = none := by
  induction events generalizing s with
  | nil => exact ⟨rfl, hs⟩
  | cons e rest ih =>
      obtain ⟨hstep, hidle⟩ := run_spread path hs e
      obtain ⟨hrest, hends⟩ := ih hidle
      rw [List.flatMap_cons, run_append]
      refine ⟨?_, hends⟩
      rw [← hrest, ← hstep]
      rfl

end State

/-- What the loop does is what it does when its dumps are taken at a stroke. -/
theorem run_onStore (path : String) (store : Store) (d : Disk) (events : List (Loop.Event Store)) :
    let s := ((State.start store d).run path (events.flatMap spread)).1
    run path (store, d) (events.map onStore) = (s.phase, s.store, s.disk) ∧ s.dumping = none :=
  State.run_flatMap_spread path (s := State.start store d) rfl events

end DumpLoop

end Telemetry
