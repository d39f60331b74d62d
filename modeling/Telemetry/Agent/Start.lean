/-
Starting the agent.
-/
import Telemetry.Agent.Poller
import Telemetry.Agent.Reporter
import Telemetry.Agent.Transport

namespace Telemetry.Agent

/-- An agent at work. -/
structure Running where
  settings : Settings
  store : Store
  transport : Transport

/-- The agent of settings; it starts with an empty store. -/
def start (s : Settings) (d : Disk) : Result Running :=
  (Transport.ofSettings s d).map fun transport => ⟨s, .inMemory, transport⟩

end Telemetry.Agent
