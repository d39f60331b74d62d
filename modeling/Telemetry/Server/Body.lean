/-
Bodies of requests.

A body has to be announced as JSON and may not be too long.  It is sealed if the
server has a private key, and what was sealed may have been compressed.
-/
import Telemetry.Gzip.Member
import Telemetry.Http.Message
import Telemetry.Server.Basic
import Telemetry.Wire.Body

namespace Telemetry.Server

/-- Whether a media type, with any parameters, is that of JSON. -/
def isJson (contentType : Option String) : Bool :=
  match contentType with
  | some t => Text.lower (Text.trim (String.ofList (Text.before ';' t.toList))) = "application/json"
  | none => false

/-- Whether the header of a name lists the gzip coding. -/
def headerListsGzip (r : Http.Request) (name : String) : Bool :=
  match r.header? name with
  | some h => listsGzip h
  | none => false

def maxBody : Nat := 2 * 1024 * 1024

/-- Opens a body: first the seal, then the compression. -/
def openBody (s : Server) (raw : Bytes) (gzipped : Bool) : Result Bytes := do
  let b ← match s.unsealer with
    | some u => u.openBody raw
    | none => .ok raw
  if gzipped then Gzip.gunzip Gzip.maxInflated b else .ok b

/-- The plain body of a request. -/
def plainBody (s : Server) (r : Http.Request) : Result Bytes :=
  if ¬ isJson (r.header? "content-type") then
    .error (.badRequest "content type must be application/json")
  else if maxBody < r.body.length then .error (.badRequest "unreadable body: too long")
  else s.openBody r.body (headerListsGzip r "content-encoding")

end Telemetry.Server
