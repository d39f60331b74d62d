/-
Frames of the call protocol.

A frame is a version, a method, flags, a sequence number if the lowest flag is
set, and a payload that fills the rest.  A reply repeats the method and the
sequence number of its request and sets the response flag.
-/
import Telemetry.Wire.MetricJson
import Telemetry.Wire.ReplyJson

namespace Telemetry

/-- A frame; its fields need not agree with each other. -/
structure Frame where
  version : UInt8
  method : UInt8
  flags : UInt8
  /-- The number that pairs a request with its reply. -/
  seq : Option UInt32
  payload : Bytes
deriving DecidableEq, Repr

namespace Frame

def currentVersion : UInt8 := 1

/-- The flag that announces a sequence number. -/
def seqFlag : UInt8 := 1

/-- The flag of a reply. -/
def responseFlag : UInt8 := 2

/-- The method that updates one metric. -/
def updateMethod : UInt8 := 1

/-- The flag that says whether there is a sequence number. -/
def flagOf (seq : Option UInt32) : UInt8 := if seq.isSome then seqFlag else 0

def request (method : UInt8) (seq : Option UInt32) (payload : Bytes) : Frame :=
  ⟨currentVersion, method, flagOf seq, seq, payload⟩

def reply (f : Frame) (payload : Bytes) : Frame :=
  ⟨currentVersion, f.method, responseFlag ||| flagOf f.seq, f.seq, payload⟩

/-- Whether the response flag is set. -/
def isResponse (f : Frame) : Bool := f.flags &&& responseFlag ≠ 0

/-- The octets of a sequence number, least significant first. -/
def seqBytes : Option UInt32 → Bytes
  | none => []
  | some n => Bytes.ofNatLE 4 n.toNat

/-- The octets of a frame; the lowest flag tells whether a sequence number
follows, whatever the frame's flags say. -/
def encode (f : Frame) : Bytes :=
  f.version :: f.method :: ((f.flags &&& ~~~ seqFlag) ||| flagOf f.seq)
    :: seqBytes f.seq ++ f.payload

/-- The frame that octets write. -/
def decode : Bytes → Result Frame
  | version :: method :: flags :: rest =>
    if version ≠ currentVersion then
      .error (.badRequest ("unsupported rpc frame version " ++ Integer.ofNat version.toNat))
    else if flags &&& seqFlag = 0 then .ok ⟨version, method, flags, none, rest⟩
    else
      match rest with
      | a :: b :: c :: d :: payload =>
        .ok ⟨version, method, flags, some (UInt32.ofNat (Bytes.toNatLE [a, b, c, d])), payload⟩
      | _ => .error (.badRequest "seq flag set but missing u32")
  | _ => .error (.badRequest "rpc frame too short")

/-- The request that updates a metric. -/
def updateRequest (seq : UInt32) (m : Metric) : Frame :=
  request updateMethod (some seq) m.encode

/-- The metric that a frame asks to update. -/
def update (f : Frame) : Result Metric := Metric.decodeUpdate f.payload

/-- The reply that a frame carries. -/
def response (f : Frame) : Result Reply :=
  match Reply.parse? f.payload with
  | some r => .ok r
  | none => .error (.badRequest "invalid rpc response: malformed response")

end Frame

end Telemetry
