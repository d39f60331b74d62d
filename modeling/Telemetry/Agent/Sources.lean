/-
What the agent measures by itself: the process it runs in, the host it runs on,
and how often it measured.
-/
import Telemetry.Agent.Allocation
import Telemetry.Metric

namespace Telemetry.Agent

/-- What the host tells about the process. -/
structure ProcessUsage where
  /-- Octets of memory that are resident. -/
  resident : Nat
  /-- Octets of address space. -/
  virtual : Nat
  /-- The share of a processor, in percent. -/
  cpu : Binary64

/-- What the host tells about itself. -/
structure HostUsage where
  totalMemory : Nat
  freeMemory : Nat
  /-- The load of each processor, in percent. -/
  cpus : List Binary64

namespace Sources

def whole (id : String) (n : Nat) : Metric := .gauge id (Binary64.ofNat n)

/-- The metrics of the process; those that the host would have to tell are missing
if it does not. -/
def runtime (u : Usage) (process : Option ProcessUsage) : Result (List Metric) :=
  .ok ([whole "Alloc" u.live.toNat, whole "TotalAlloc" u.total.toNat,
    whole "Mallocs" u.grants.toNat, whole "Frees" u.frees.toNat,
    whole "HeapObjects" u.heapObjects.toNat] ++
    match process with
    | some p =>
      [whole "ProcessResident" p.resident, whole "ProcessVirtual" p.virtual,
       .gauge "ProcessCpuPercent" p.cpu]
    | none => [])

/-- The metrics of the host; a host without memory tells nothing. -/
def host (h : HostUsage) : Result (List Metric) :=
  if h.totalMemory = 0 then .error (.unavailable "host memory stats unavailable")
  else
    .ok ([whole "TotalMemory" h.totalMemory, whole "FreeMemory" h.freeMemory] ++
      h.cpus.zipIdx.map fun (load, i) => .gauge ("CPUutilization" ++ Integer.ofNat (i + 1)) load)

/-- One more measurement, and a number drawn at random. -/
def poll (random : Binary64) : Result (List Metric) :=
  .ok [.counter "PollCount" 1, .gauge "RandomValue" random]

/-- Every source by its name, in the order they are asked. -/
def standard (u : Usage) (process : Option ProcessUsage) (h : HostUsage) (random : Binary64) :
    List (String × Result (List Metric)) :=
  [("runtime", runtime u process), ("host", host h), ("poll", poll random)]

end Sources

end Telemetry.Agent
