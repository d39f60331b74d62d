/-
The two programs: the server and the agent.

Each reads its settings from the command line, the environment and perhaps a
file, starts, and runs until it is told to stop.  These are the runs in which
nothing comes in before that.
-/
import Telemetry.Agent.Start
import Telemetry.Options.Exit
import Telemetry.Server.Lifecycle
import Telemetry.Yaml.Reader

namespace Telemetry.Program

/-- Runs a server that is told to stop at once. -/
def runServer (s : Server.Settings) (p : Ports) (d : Disk) : Result Unit × Disk :=
  match Server.Running.start s p d with
  | .ok r => (.ok (), (r.run Server.Running.shutdown).1.disk)
  | .error f => (.error f, d)

/-- The server: its exit code and what it leaves on the disk. -/
def server (arguments : List String) (environment : List (String × String)) (p : Ports) (d : Disk) :
    UInt8 × Disk :=
  match Arguments.parse Server.Settings.flags arguments environment with
  | .error f => (Exit.ofArguments f, d)
  | .ok given =>
    match Server.Settings.resolve Yaml.parse? given d with
    | .error _ => (Exit.failure, d)
    | .ok s =>
      let (result, d) := runServer s p d
      (Exit.ofResult result, d)

/-- Runs an agent that is told to stop at once. -/
def runAgent (s : Agent.Settings) (d : Disk) : Result Unit := (Agent.start s d).map fun _ => ()

/-- The agent: its exit code and what it leaves on the disk. -/
def agent (arguments : List String) (environment : List (String × String)) (d : Disk) :
    UInt8 × Disk :=
  match Arguments.parse Agent.Settings.flags arguments environment with
  | .error f => (Exit.ofArguments f, d)
  | .ok given =>
    (Exit.ofResult ((Agent.Settings.resolve Yaml.parse? given d).bind fun s => runAgent s d), d)

end Telemetry.Program
