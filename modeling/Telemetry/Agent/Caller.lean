/-
Delivery by calls.

Every metric goes in a call of its own over one connection, which is kept for
the next delivery.  A call is answered by the next frame on the connection, and
that has to be a response with the number of the call.  When the connection
fails, or the answers are out of order, it is given up and the remaining metrics
are not sent; any other fault concerns only its metric.

Nothing is assumed of a peer: it is whatever connects and answers.
-/
import Telemetry.Signature
import Telemetry.Wire.Body
import Telemetry.Wire.Frame
import Telemetry.Wire.Stream

namespace Telemetry.Agent

/-- Why there is no connection. -/
inductive ConnectFault where
  | timedOut
  | failed (reason : String)
deriving DecidableEq, Repr

/-- What comes of sending a frame and waiting for another. -/
inductive Exchange where
  | sendTimedOut
  | sendFailed (reason : String)
  /-- No frame comes in time. -/
  | silent
  | closed
  | readFailed (reason : String)
  | answered (frame : Bytes)
deriving DecidableEq, Repr

/-- Something to connect to: `κ` are its connections, and `σ` is what it remembers. -/
structure Peer (σ κ : Type) where
  connect : σ → Except ConnectFault κ × σ
  exchange : κ → Bytes → σ → Exchange × σ

/-- A client that makes calls. -/
structure Caller where
  address : String
  signer : Option Signer

/-- What a client keeps between deliveries. -/
structure CallerState (κ : Type) where
  connection : Option κ
  /-- The number of the next call. -/
  nextSeq : UInt32
deriving DecidableEq, Repr

def CallerState.initial {κ : Type} : CallerState κ := ⟨none, 1⟩

def Exchange.frame : Exchange → Result Bytes
  | sendTimedOut => .error (.unavailable "rpc send timed out")
  | sendFailed reason => .error (.unavailable ("rpc send: " ++ reason))
  | silent => .error (.unavailable "rpc reply timed out")
  | closed => .error (.unavailable "rpc connection closed")
  | readFailed reason => .error (.unavailable ("rpc read: " ++ reason))
  | answered frame =>
    if Stream.maxFrame < frame.length then .error (.unavailable "rpc read: frame size too big")
    else .ok frame

/-- How a call ended. -/
inductive Verdict where
  | acknowledged
  /-- The call failed, but the next one may not. -/
  | rejected (fault : Fault)
  /-- The connection is of no more use. -/
  | broken (fault : Fault)
deriving DecidableEq, Repr

/-- What the reply to a call, or its fault, means. -/
def Verdict.ofReply : Result Reply → Verdict
  | .ok r => if r.isError then rejected (.badRequest r.error) else acknowledged
  | .error (.unavailable subject) => broken (.unavailable subject)
  | .error f => rejected f

/-- What came of the calls of a delivery. -/
structure Delivered where
  /-- The places of the metrics that were acknowledged. -/
  places : List Nat
  /-- The last fault. -/
  fault : Option Fault
  /-- Whether the connection is still of use. -/
  healthy : Bool
deriving DecidableEq, Repr

namespace Caller

def seqText : Option UInt32 → String
  | some n => "Some(" ++ Integer.ofNat n.toNat ++ ")"
  | none => "None"

/-- The complaint about a frame that does not answer a call. -/
def outOfOrder (seq : UInt32) (got : Option UInt32) : Fault :=
  .unavailable ("rpc reply out of order: expected seq " ++ Integer.ofNat seq.toNat ++ ", got "
    ++ seqText got)

/-- Refuses a signed reply whose signature is wrong. -/
def checkReply (c : Caller) (r : Reply) : Result Unit :=
  match c.signer with
  | some s => if r.hash = "" then .ok () else s.verifyReply r
  | none => .ok ()

/-- The reply that a frame brings to a call. -/
def reply (c : Caller) (seq : UInt32) (raw : Bytes) : Result Reply := do
  let f ← Frame.decode raw
  if ¬ f.isResponse ∨ f.seq ≠ some seq then .error (outOfOrder seq f.seq)
  else
    let r ← f.response
    c.checkReply r
    .ok r

/-- Sends a frame, which may not be too long, and waits for another. -/
def send {σ κ : Type} (peer : Peer σ κ) (k : κ) (frame : Bytes) (w : σ) : Exchange × σ :=
  if Stream.maxFrame < frame.length then (.sendFailed "frame size too big", w)
  else peer.exchange k frame w

/-- One call.  A metric that cannot be signed uses up no number. -/
def call {σ κ : Type} (c : Caller) (peer : Peer σ κ) (k : κ) (m : Metric) (seq : UInt32) (w : σ) :
    Verdict × UInt32 × σ :=
  match m.signed c.signer with
  | .error f => (.ofReply (.error f), seq, w)
  | .ok m =>
    let (exchange, w) := send peer k (Frame.updateRequest seq m).encode w
    (.ofReply (exchange.frame.bind (c.reply seq)), seq + 1, w)

/-- One call for each metric in turn, as long as the connection is of use; `i` is
the place of the first. -/
def calls {σ κ : Type} (c : Caller) (peer : Peer σ κ) (k : κ) (i : Nat) :
    List Metric → UInt32 → σ → Delivered × UInt32 × σ
  | [], seq, w => (⟨[], none, true⟩, seq, w)
  | m :: rest, seq, w =>
    match c.call peer k m seq w with
    | (.acknowledged, seq, w) =>
      let (d, seq, w) := c.calls peer k (i + 1) rest seq w
      ({ d with places := i :: d.places }, seq, w)
    | (.rejected f, seq, w) =>
      let (d, seq, w) := c.calls peer k (i + 1) rest seq w
      ({ d with fault := d.fault.or (some f) }, seq, w)
    | (.broken f, seq, w) => (⟨[], some f, false⟩, seq, w)

/-- What a delivery yields: its last fault, if nothing was acknowledged and there
was one. -/
def conclude (d : Delivered) : Result (List Nat) :=
  match d.places, d.fault with
  | [], some f => .error f
  | places, _ => .ok places

/-- The complaint about a peer that cannot be connected to. -/
def unconnected (c : Caller) : ConnectFault → Fault
  | .timedOut => .unavailable ("connect " ++ c.address ++ " timed out")
  | .failed reason => .unavailable ("connect " ++ c.address ++ ": " ++ reason)

/-- The connection that is kept, or a new one. -/
def connection {σ κ : Type} (peer : Peer σ κ) (kept : Option κ) (w : σ) :
    Except ConnectFault κ × σ :=
  match kept with
  | some k => (.ok k, w)
  | none => peer.connect w

/-- Delivers metrics with one call each. -/
def deliver {σ κ : Type} (c : Caller) (peer : Peer σ κ) (ms : List Metric)
    (state : CallerState κ × σ) : Result (List Nat) × CallerState κ × σ :=
  let (s, w) := state
  match connection peer s.connection w with
  | (.error f, w) => (.error (c.unconnected f), ⟨none, s.nextSeq⟩, w)
  | (.ok k, w) =>
    let (d, seq, w) := c.calls peer k 0 ms s.nextSeq w
    (conclude d, ⟨if d.healthy then some k else none, seq⟩, w)

end Caller

end Telemetry.Agent
