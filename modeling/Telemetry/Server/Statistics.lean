/-
What a server counts: requests by route and status, stored metrics by kind,
and refusals by cause.
-/
import Telemetry.Counters
import Telemetry.Fault
import Telemetry.Metric

namespace Telemetry

/-- The counters of a server. -/
structure Statistics where
  requests : Counters
  updates : Counters
  rejections : Counters

namespace Statistics

def empty : Statistics := ⟨.empty, .empty, .empty⟩

instance : Inhabited Statistics := ⟨empty⟩

def requestLabels (route : String) (status : Nat) : List Label :=
  [("route", route), ("status", Integer.ofNat status)]

def updateLabels (kind : Kind) : List Label := [("kind", kind.name)]

def rejectionLabels (code : Fault.Code) : List Label := [("code", code.name)]

/-- Counts a request that was answered. -/
def observe (s : Statistics) (route : String) (status : Nat) : Statistics :=
  { s with requests := s.requests.inc (requestLabels route status) }

/-- Counts metrics that were stored. -/
def updated (s : Statistics) (kind : Kind) (n : Nat) : Statistics :=
  { s with updates := s.updates.add (updateLabels kind) (UInt64.ofNat n) }

def rejected (s : Statistics) (code : Fault.Code) : Statistics :=
  { s with rejections := s.rejections.inc (rejectionLabels code) }

end Statistics

end Telemetry
