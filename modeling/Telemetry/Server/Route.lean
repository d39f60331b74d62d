/-
Routes.

A route is found by the segments of a path as they are written.  A segment in
the middle may be empty, the last one of a route with segments may not.
-/
import Telemetry.Http.Message

namespace Telemetry.Server

/-- What a path asks for. -/
inductive Route where
  /-- The status page. -/
  | home
  /-- Whether the store works. -/
  | ping
  /-- An update by a metric in the body. -/
  | update
  /-- An update by segments, which are still encoded. -/
  | updateAt (kind id value : String)
  /-- An update by a batch in the body. -/
  | updates
  /-- A query by a metric in the body. -/
  | value
  /-- A query by segments, which are still encoded. -/
  | valueAt (kind id : String)
deriving DecidableEq, Repr

namespace Route

/-- The route of a path, if there is one. -/
def ofPath? (path : String) : Option Route :=
  match Text.split '/' path with
  | ["", ""] => some home
  | ["", "ping"] => some ping
  | ["", "update", ""] => some update
  | ["", "update", kind, id, last] => if last = "" then none else some (updateAt kind id last)
  | ["", "updates", ""] => some updates
  | ["", "value", ""] => some value
  | ["", "value", kind, id] => if id = "" then none else some (valueAt kind id)
  | _ => none

def name : Route → String
  | home => "/"
  | ping => "/ping"
  | update => "/update/"
  | updateAt _ _ _ => "/update/:kind/:id/:value"
  | updates => "/updates/"
  | value => "/value/"
  | valueAt _ _ => "/value/:kind/:id"

/-- Whether a route is read from; the others are posted to. -/
def isRead : Route → Bool
  | home | ping | valueAt _ _ => true
  | update | updateAt _ _ _ | updates | value => false

def methods (r : Route) : List String := if r.isRead then ["GET", "HEAD"] else ["POST"]

def takes (r : Route) (method : String) : Bool := r.methods.contains method

/-- The methods that a route takes, as a header lists them. -/
def allow (r : Route) : String := String.intercalate "," r.methods

end Route

end Telemetry.Server
