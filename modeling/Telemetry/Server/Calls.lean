/-
Calls.

A call is a frame.  Every frame is answered with one frame, also when it cannot
be read.  What the frame is decides first, then where it comes from, then what
it asks for.  Every frame is counted by its method and the status of its answer.
-/
import Telemetry.Server.Requests
import Telemetry.Wire.Frame
import Telemetry.Wire.Stream

namespace Telemetry.Server

/-- A method that can be called. -/
inductive Method where
  | updateMetric
deriving DecidableEq, Repr

namespace Method

def number : Method → UInt8
  | updateMetric => Frame.updateMethod

def name : Method → String
  | updateMetric => "update_metric"

def all : List Method := [updateMetric]

def ofNumber? (n : UInt8) : Option Method := all.find? fun m => m.number = n

end Method

def callName (f : Frame) : String :=
  "rpc:" ++ ((Method.ofNumber? f.method).map Method.name).getD "unknown"

def unreadableName : String := "rpc:invalid"

/-- Refuses a peer outside the trusted subnet. -/
def checkPeer (s : Server) (peer : IpAddr) : Result Unit :=
  match s.subnet with
  | some n => n.checkAddress peer
  | none => .ok ()

/-- What a method does. -/
def perform (s : Server) (f : Frame) : Method → Result (Reply × Server)
  | .updateMetric => do
    let m ← f.update
    let t ← s.save m
    .ok (.success savedText, t)

/-- Carries out a call. -/
def call (s : Server) (peer : IpAddr) (f : Frame) : Result (Reply × Server) := do
  if f.isResponse then .error (.badRequest "unexpected response frame")
  else
    s.checkPeer peer
    match Method.ofNumber? f.method with
    | some method => s.perform f method
    | none => .error (.badRequest ("unknown rpc method: " ++ Integer.ofNat f.method.toNat))

/-- The answer to a frame that cannot be read; it is not signed. -/
def orphan (fault : Fault) : Frame :=
  ⟨Frame.currentVersion, 0, Frame.responseFlag, none, (Reply.ofFault fault).encode⟩

/-- Answers a frame. -/
def answerFrame (s : Server) (peer : IpAddr) (f : Frame) : Frame × Server :=
  let (reply, status, t) := match s.call peer f with
    | .ok (reply, t) => (reply, 200, t)
    | .error fault => (Reply.ofFault fault, fault.status, s)
  (f.reply (reply.signed s.signer).encode, t.observe (callName f) status)

/-- Answers the octets of a frame. -/
def answer (s : Server) (peer : IpAddr) (raw : Bytes) : Frame × Server :=
  match Frame.decode raw with
  | .ok f => s.answerFrame peer f
  | .error fault => (orphan fault, s.observe unreadableName fault.status)

def answerAll (s : Server) (peer : IpAddr) : List Bytes → List Frame × Server
  | [] => ([], s)
  | raw :: rest =>
    let (reply, t) := s.answer peer raw
    let (replies, t) := t.answerAll peer rest
    (reply :: replies, t)

/-- A connection: what was received of a frame that is not yet whole, and whether
the connection is over. -/
structure Connection where
  pending : Bytes
  closed : Bool
deriving DecidableEq, Repr

/-- A new connection. -/
def Connection.opened : Connection := ⟨[], false⟩

/-- Answers what is received on a connection. -/
def receive (s : Server) (peer : IpAddr) (c : Connection) (received : Bytes) :
    List Frame × Connection × Server :=
  if c.closed then ([], c, s)
  else
    let (frames, left, broken) := Stream.frames (c.pending ++ received)
    let (replies, t) := s.answerAll peer frames
    (replies, ⟨left, broken⟩, t)

end Telemetry.Server
