/-
Delivery by request.

All metrics go in one request: signed each, written as one list, compressed and
perhaps sealed.  The server takes all of them or none.  A reply that bears a
signature has to bear a right one; a reply without one is taken as it is.
-/
import Telemetry.Gzip.Deflate
import Telemetry.Http.Message
import Telemetry.Http.Status
import Telemetry.Http.Url
import Telemetry.Seal.Sealing
import Telemetry.Text.Lossy
import Telemetry.Wire.Body

namespace Telemetry.Agent

/-- A client that posts batches. -/
structure Poster where
  address : String
  signer : Option Signer
  sealer : Option Sealer

/-- What comes of posting a request. -/
inductive Posted where
  /-- There is no reply. -/
  | failed (reason : String)
  /-- The body of the reply does not get here. -/
  | cut (reason : String)
  | replied (status : Nat) (body : Bytes)

namespace Poster

def withoutSlashes (address : String) : String :=
  String.ofList (address.toList.reverse.dropWhile (· = '/')).reverse

def url (p : Poster) : String :=
  let base := withoutSlashes p.address
  if p.address.startsWith "http://" ∨ p.address.startsWith "https://" then base ++ "/updates/"
  else "http://" ++ base ++ "/updates/"

/-- The body that carries metrics. -/
def body (p : Poster) (seeds : Nat → Oaep.Seed) (ms : List Metric) : Result Bytes := do
  let packed := Gzip.compress (← Metric.batchBody p.signer ms)
  match p.sealer with
  | some s => s.sealBody seeds packed
  | none => .ok packed

/-- The request that carries a body to an address. -/
def request (url : Http.Url) (body : Bytes) : Http.Request :=
  ⟨"POST", url.target,
   [("host", Bytes.ofText url.authority), ("content-type", Bytes.ofText "application/json"),
    ("content-encoding", Bytes.ofText "gzip"), ("accept", Bytes.ofText "application/json")], body⟩

/-- Where a request can be sent to, or why there is no such place. -/
def destination (p : Poster) : Except String Http.Url :=
  match Http.Url.parse p.url with
  | .error flaw => .error ("builder error: " ++ flaw.message)
  | .ok url =>
    if Http.Url.maxLength < url.text.utf8ByteSize then
      .error ("builder error for url (" ++ url.text ++ "): Parsed Url is not a valid Uri")
    else if url.secure then
      .error ("error sending request for url (" ++ url.text
        ++ "): error trying to connect: invalid URL, scheme is not http")
    else .ok url

/-- Refuses a signed reply whose signature is wrong. -/
def checkReply (p : Poster) (body : Bytes) : Result Unit :=
  match p.signer, Reply.parse? body with
  | some s, some r => if r.hash = "" then .ok () else s.verifyReply r
  | _, _ => .ok ()

/-- Refuses what is not a reply of success. -/
def judge (p : Poster) : Posted → Result Unit
  | .failed reason => .error (.unavailable ("POST " ++ p.url ++ ": " ++ reason))
  | .cut reason => .error (.unavailable ("read reply: " ++ reason))
  | .replied status received =>
    let body := if Http.Status.hasContent status then received else []
    if Http.Status.isSuccess status then p.checkReply body
    else
      .error (.unavailable ("server replied " ++ Http.Status.text status ++ ": "
        ++ Text.trim (Lossy.text body)))

/-- Delivers metrics with one request; all of them are acknowledged, or none. -/
def deliver {σ : Type} (p : Poster) (seeds : Nat → Oaep.Seed)
    (post : Http.Request → σ → Posted × σ) (ms : List Metric) (w : σ) : Result (List Nat) × σ :=
  match p.body seeds ms with
  | .error f => (.error f, w)
  | .ok body =>
    let (posted, w) := match p.destination with
      | .error reason => (.failed reason, w)
      | .ok url => post (request url body) w
    ((p.judge posted).map fun _ => List.range ms.length, w)

end Poster

end Telemetry.Agent
