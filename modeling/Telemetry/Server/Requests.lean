/-
Requests.

A request is matched to a route, its origin is checked, and it is handled if
the route takes its method.  A request to a route is counted when its response
is made, whatever the response is; one to no route is not counted.
-/
import Telemetry.Server.Answer
import Telemetry.Server.Page
import Telemetry.Server.Route
import Telemetry.Wire.Path

namespace Telemetry.Server

def savedText : String := "metric was saved"

def batchSavedText : String := "metrics batch was updated"

def workingText : String := "DB is working correctly"

/-- The metric that is held for a query. -/
def lookup (s : Server) (query : Metric) : Result (Answer × Server) :=
  (s.store.lookup query).map fun m => (.metric m, s)

def store1 (s : Server) (m : Metric) : Result (Answer × Server) :=
  (s.save m).map fun t => (.message savedText, t)

/-- The complaint about an update without a signature. -/
def unsignedPath : Fault := .authFailed "unsigned path update while a key is configured"

/-- An update by segments.  It carries no signature, so with a key there are
none of these. -/
def updateAt (s : Server) (kind id value : String) : Result (Answer × Server) := do
  let m ← Metric.ofPath kind id (some value)
  if m.isQuery then .error (.nullAttr ("value of " ++ kind ++ " " ++ id))
  else if s.signer.isSome then .error unsignedPath
  else s.store1 m

/-- An update by a metric. -/
def update (s : Server) (body : Bytes) : Result (Answer × Server) :=
  (Metric.decodeUpdate body).bind s.store1

/-- An update by a batch. -/
def updates (s : Server) (body : Bytes) : Result (Answer × Server) := do
  let batch ← Metric.decodeBatch body
  let t ← s.saveAll batch
  .ok (.message batchSavedText, t)

/-- A query by segments. -/
def valueAt (s : Server) (kind id : String) : Result (Answer × Server) :=
  (Metric.ofPath kind id none).bind s.lookup

/-- A query by a metric, of which only the kind and the identifier count. -/
def value (s : Server) (body : Bytes) : Result (Answer × Server) := do
  let m ← Metric.decode body
  s.lookup (.query m.id m.kind)

/-- What is wrong with a store that does not work. -/
def downReason : Fault → String
  | .unavailable reason => reason
  | f => f.message

/-- Whether the store works. -/
def ping (s : Server) : Result (Answer × Server) :=
  match s.store.available with
  | .ok () => .ok (.message workingText, s)
  | .error f => .error (.unavailable ("DB is down: " ++ downReason f))

def page (s : Server) : Http.Response :=
  ⟨200, some "text/html; charset=utf-8", none, none,
   Bytes.ofText (Page.render s.store.metrics s.stats)⟩

/-- A decoded segment, or the name of one that is no text. -/
def segment (name written : String) : Except String String :=
  match Http.Target.decode? written with
  | some text => .ok text
  | none => .error name

def badSegment (name : String) : Http.Response :=
  .plain 400 ("Invalid URL: Invalid UTF-8 in `" ++ name ++ "`")

/-- Shows how an operation on segments ended; a bad segment does not count as a
refusal. -/
def concludeSegments (s : Server) (w : Wish) :
    Except String (Result (Answer × Server)) → Http.Response × Server
  | .ok result => s.conclude w result
  | .error name => (badSegment name, s)

/-- Goes on with the plain body of a request. -/
def withBody (s : Server) (w : Wish) (r : Http.Request)
    (operation : Bytes → Result (Answer × Server)) : Http.Response × Server :=
  s.conclude w ((s.plainBody r).bind operation)

/-- Handles a request whose route takes its method. -/
def handle (s : Server) (r : Http.Request) : Route → Http.Response × Server
  | .home => (s.page, s)
  | .ping => s.conclude (.ofRequest r) s.ping
  | .update => s.withBody (.ofRequest r) r s.update
  | .updates => s.withBody (.ofRequest r) r s.updates
  | .value => s.withBody (.ofRequest r) r s.value
  | .updateAt kind id value =>
    s.concludeSegments (.ofRequest r) do
      let kind ← segment "kind" kind
      let id ← segment "id" id
      let value ← segment "value" value
      return s.updateAt kind id value
  | .valueAt kind id =>
    s.concludeSegments (.ofRequest r) do
      let kind ← segment "kind" kind
      let id ← segment "id" id
      return s.valueAt kind id

/-- Refuses a request that does not come from the trusted subnet. -/
def checkOrigin (s : Server) (r : Http.Request) : Result Unit :=
  match s.subnet with
  | some n => n.checkHeader (r.header? Subnet.header)
  | none => .ok ()

/-- Goes on with a request that comes from the trusted subnet. -/
def guarded (s : Server) (r : Http.Request) (next : Unit → Http.Response × Server) :
    Http.Response × Server :=
  match s.checkOrigin r with
  | .ok () => next ()
  | .error f => s.refuse (.ofRequest r) f

/-- Answers a request to a route: without content if only the headers were asked
for, and with the right methods if the method is wrong. -/
def respond (s : Server) (r : Http.Request) (route : Route) : Http.Response × Server :=
  if route.takes r.method then
    let (response, t) := s.guarded r fun _ => s.handle r route
    (if r.method = "HEAD" then response.bodiless else response, t)
  else
    let (response, t) := s.guarded r fun _ => (Http.Response.empty 405, s)
    ({ response with allow := some route.allow }, t)

def observe (s : Server) (route : String) (status : Nat) : Server :=
  { s with stats := s.stats.observe route status }

/-- Answers a request. -/
def serve (s : Server) (r : Http.Request) : Http.Response × Server :=
  match Route.ofPath? r.path with
  | none => (.empty 404, s)
  | some route =>
    let (response, t) := s.respond r route
    (response, t.observe route.name response.status)

end Telemetry.Server
