/-
A server from its start to its end.

At the start the store is opened, the server is made and its addresses are
taken; whatever fails ends it there.  A server in memory begins with its
snapshot, if it is to and if there is one that can be read, and writes another
from time to time.

The end begins with a signal.  From then on nothing new comes in, but what came
in before is still handled, in any order with the last snapshot.  A run is a list
of events, so every order of them is a run.
-/
import Telemetry.Net.Ports
import Telemetry.Server.Calls
import Telemetry.Store.DumpLoop

namespace Telemetry.Server

/-- The store that settings name, with what its snapshot holds. -/
def openStore (s : Settings) (d : Disk) : Result Store :=
  match s.dsn with
  | some dsn => (Store.database (.ofDsn dsn)).initialise d
  | none =>
    if s.restore then
      match Store.inMemory.restore s.storeFile d with
      | .ok (_, store) => .ok store
      | .error _ => .ok .inMemory
    else .ok .inMemory

def bind (text : String) (p : Ports) : Result Ports :=
  match SocketAddr.ofText? text with
  | none => .error (.badRequest ("invalid listen address: " ++ text))
  | some a =>
    match p.listen? a with
    | some p => .ok p
    | none => .error (.internal ("bind " ++ a.text ++ " failed: address not available"))

/-- Listens at the addresses of settings: for requests, and perhaps for calls. -/
def bindAll (s : Settings) (p : Ports) : Result Ports := do
  let p ← bind s.listen p
  match Settings.present s.rpcListen with
  | some address => bind address p
  | none => .ok p

/-- A server that runs. -/
structure Running where
  server : Server
  disk : Disk
  /-- Where snapshots go, and how far the loop is that writes them; a database has
  no such loop. -/
  dumps : Option (String × Loop.Phase)
  /-- Requests that came in and are not yet answered. -/
  requests : List Http.Request
  /-- Frames that came in and are not yet answered, with their peers. -/
  frames : List (IpAddr × Bytes)
  /-- Whether the end has begun. -/
  ending : Bool
  /-- Whether the end is over. -/
  ended : Bool

namespace Running

/-- A server when it starts to run. -/
def start (s : Settings) (p : Ports) (d : Disk) : Result Running := do
  let store ← openStore s d
  let server ← Server.ofSettings s store d
  let _ ← bindAll s p
  let dumps := if s.dsn.isNone then some (s.storeFile, Loop.Phase.starting) else none
  .ok ⟨server, d, dumps, [], [], false, false⟩

/-- What happens to a server that runs. -/
inductive Event where
  /-- A request comes in. -/
  | request (r : Http.Request)
  /-- A frame comes in. -/
  | frame (peer : IpAddr) (raw : Bytes)
  /-- The request in a place is answered. -/
  | answerRequest (place : Nat)
  /-- The frame in a place is answered. -/
  | answerFrame (place : Nat)
  /-- The time for a snapshot comes. -/
  | tick
  /-- The end begins. -/
  | cancel
  /-- The loop that writes snapshots takes notice of the end. -/
  | lastDump
  /-- Everything is done that the end waits for. -/
  | finish

/-- What a server says. -/
inductive Output where
  | response (request : Http.Request) (response : Http.Response)
  | reply (peer : IpAddr) (raw : Bytes) (reply : Frame)

/-- The server after a signal to the loop that writes snapshots. -/
def signal (r : Running) (s : Loop.Signal) : Running :=
  match r.dumps with
  | none => r
  | some (path, phase) =>
    let dump := DumpLoop.dump path
    let (phase, _, disk) := Loop.step dump dump (phase, r.server.store, r.disk) (.signal s)
    { r with disk, dumps := some (path, phase) }

/-- Whether no snapshot is written any more. -/
def dumpsOver (r : Running) : Bool := r.dumps.all fun (_, phase) => phase = .ended

/-- The server after an event, and what it says. -/
def step (r : Running) : Event → Running × Option Output
  | .request request =>
    (if r.ending then r else { r with requests := r.requests ++ [request] }, none)
  | .frame peer raw =>
    (if r.ending then r else { r with frames := r.frames ++ [(peer, raw)] }, none)
  | .answerRequest place =>
    match r.requests[place]? with
    | some request =>
      let (response, server) := r.server.serve request
      ({ r with server, requests := r.requests.eraseIdx place }, some (.response request response))
    | none => (r, none)
  | .answerFrame place =>
    match r.frames[place]? with
    | some (peer, raw) =>
      let (reply, server) := r.server.answer peer raw
      ({ r with server, frames := r.frames.eraseIdx place }, some (.reply peer raw reply))
    | none => (r, none)
  | .tick => (r.signal .tick, none)
  | .cancel => ({ r with ending := true }, none)
  | .lastDump => (if r.ending then r.signal .cancel else r, none)
  | .finish =>
    if r.ending ∧ r.requests = [] ∧ r.dumpsOver then
      let disk := r.server.store.save r.disk
      let server := { r.server with store := r.server.store.close }
      ({ r with disk, server, ended := true }, none)
    else (r, none)

def run (r : Running) : List Event → Running × List Output
  | [] => (r, [])
  | e :: rest =>
    let (r, output) := r.step e
    let (r, outputs) := r.run rest
    (r, output.toList ++ outputs)

/-- The shortest end. -/
def shutdown : List Event := [.cancel, .lastDump, .finish]

end Running

end Telemetry.Server
