/-
Periodic loops.

A loop works at every tick until it is told to stop.  A loop that starts late
lets its first tick, which comes at once, go by.  Being told to stop ends a loop
whatever it was waiting for; it may take its leave, and does nothing after that.

A loop keeps only its phase.  What it works on is a state that others change as
well, so a run is a list of events: signals to the loop and changes from outside.
-/
namespace Telemetry.Loop

/-- How far a loop is. -/
inductive Phase where
  /-- The first tick is still to go by. -/
  | starting
  | running
  | ended
deriving DecidableEq, Repr

/-- What a loop waits for. -/
inductive Signal where
  | tick
  | cancel
deriving DecidableEq, Repr

/-- What a loop does on a signal. -/
inductive Act where
  | rest
  | work
  | leave
deriving DecidableEq, Repr

/-- The phase after a signal, and what the loop does. -/
def Phase.on : Phase → Signal → Phase × Act
  | .starting, .tick => (.running, .rest)
  | .running, .tick => (.running, .work)
  | .ended, _ => (.ended, .rest)
  | _, .cancel => (.ended, .leave)

/-- What happens while a loop runs. -/
inductive Event (σ : Type) where
  | signal (s : Signal)
  | outside (change : σ → σ)

/-- The phase and the state after an event. -/
def step {σ : Type} (work leave : σ → σ) (run : Phase × σ) : Event σ → Phase × σ
  | .signal s =>
    match run.1.on s with
    | (phase, .rest) => (phase, run.2)
    | (phase, .work) => (phase, work run.2)
    | (phase, .leave) => (phase, leave run.2)
  | .outside change => (run.1, change run.2)

/-- The phase and the state after events. -/
def run {σ : Type} (work leave : σ → σ) (start : Phase × σ) (events : List (Event σ)) : Phase × σ :=
  events.foldl (step work leave) start

/-- The number of multiples of an interval below a moment. -/
def ticksBefore (interval moment : Nat) : Nat := (moment + interval - 1) / interval

/-- The ticks from one moment up to another, if there is one at every multiple of
the interval. -/
def ticks {σ : Type} (interval start stop : Nat) : List (Event σ) :=
  List.replicate (ticksBefore interval stop - ticksBefore interval start) (.signal .tick)

end Telemetry.Loop
