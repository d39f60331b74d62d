/-
The loop that writes snapshots.

It writes one at every tick but the first, and a last one when it is told to
stop.  A snapshot that cannot be written changes nothing about the loop.
-/
import Telemetry.Loop
import Telemetry.Store.Basic

namespace Telemetry.DumpLoop

/-- Writes a snapshot of a store to a path, if that is possible. -/
def dump (path : String) (state : Store × Disk) : Store × Disk :=
  (state.1, (state.1.dump path state.2).2)

def run (path : String) (state : Store × Disk) (events : List (Loop.Event (Store × Disk))) :
    Loop.Phase × Store × Disk :=
  Loop.run (dump path) (dump path) (.starting, state) events

end Telemetry.DumpLoop
