/-
Answers and how they are shown.

An operation answers with a metric or a message, or is refused.  The client's
headers decide the form in which either is shown and whether it is compressed.
-/
import Telemetry.Gzip.Deflate
import Telemetry.Server.Body

namespace Telemetry.Server

/-- What a successful operation answers. -/
inductive Answer where
  | metric (m : Metric)
  | message (text : String)
deriving DecidableEq, Repr

/-- What a client wants to see. -/
structure Wish where
  format : BodyFormat
  gzip : Bool
deriving DecidableEq, Repr

/-- What the headers of a request ask for. -/
def Wish.ofRequest (r : Http.Request) : Wish :=
  ⟨.ofAccept (r.header? "accept"), headerListsGzip r "accept-encoding"⟩

/-- A response with content in the form that is wished for. -/
def shown (w : Wish) (status : Nat) (body : Bytes) : Http.Response :=
  ⟨status, some w.format.contentType, if w.gzip then some "gzip" else none, none,
   if w.gzip then Gzip.compress body else body⟩

def Answer.body (signer : Option Signer) (format : BodyFormat) : Answer → Result Bytes
  | .metric m => m.body signer format
  | .message text => .ok ((Reply.success text).body signer format)

/-- The response to a success.  Should the answer have no form at all, the
complaint about that is shown instead. -/
def accept (s : Server) (w : Wish) (a : Answer) : Http.Response :=
  match a.body s.signer w.format with
  | .ok body => shown w 200 body
  | .error f => .plain 500 f.message

/-- The response to a refusal. -/
def complaint (s : Server) (w : Wish) (f : Fault) : Http.Response :=
  shown w f.status ((Reply.ofFault f).body s.signer w.format)

/-- Refuses a request, which is counted. -/
def refuse (s : Server) (w : Wish) (f : Fault) : Http.Response × Server :=
  (s.complaint w f, { s with stats := s.stats.rejected f.code })

/-- Shows how an operation ended; a refusal leaves the server as it was, but for
what it counts. -/
def conclude (s : Server) (w : Wish) : Result (Answer × Server) → Http.Response × Server
  | .ok (a, t) => (t.accept w a, t)
  | .error f => s.refuse w f

end Telemetry.Server
