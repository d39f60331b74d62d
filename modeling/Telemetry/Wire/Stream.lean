/-
Streams of frames.

On a connection every frame is preceded by its length in four octets, most
significant first.  A length above the limit ends the stream, and so does an end
inside a frame.
-/
import Telemetry.Bytes

namespace Telemetry.Stream

def maxFrame : Nat := 8 * 1024 * 1024

/-- A frame as it stands on a stream. -/
def written (frame : Bytes) : Bytes := Bytes.ofNatBE 4 frame.length ++ frame

/-- What a stream begins with. -/
inductive Start where
  /-- A frame, and what follows it. -/
  | frame (frame rest : Bytes)
  /-- A part of a frame, or nothing. -/
  | incomplete
  /-- A length above the limit. -/
  | tooLong
deriving DecidableEq, Repr

/-- Splits a stream behind its first frame. -/
def start : Bytes → Start
  | a :: b :: c :: d :: rest =>
    let n := Bytes.toNatBE [a, b, c, d]
    if maxFrame < n then .tooLong
    else
      let frame := rest.take n
      if frame.length < n then .incomplete else .frame frame (rest.drop n)
  | _ => .incomplete

theorem length_of_start {b frame rest : Bytes} (h : start b = .frame frame rest) :
    rest.length < b.length := by
  unfold start at h
  split at h
  · dsimp only at h
    split at h
    · cases h
    · split at h
      · cases h
      · injection h with _ h
        subst h
        simp only [List.length_drop, List.length_cons]
        omega
  · cases h

/-- The whole frames of a stream, what is left of it, and whether a length was
above the limit. -/
def frames (b : Bytes) : List Bytes × Bytes × Bool :=
  match _h : start b with
  | .frame frame rest =>
    let (more, left, broken) := frames rest
    (frame :: more, left, broken)
  | .incomplete => ([], b, false)
  | .tooLong => ([], b, true)
termination_by b.length
decreasing_by exact length_of_start _h

end Telemetry.Stream
