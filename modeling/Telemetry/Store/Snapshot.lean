/-
Snapshots.

A snapshot is the JSON list of everything a store holds.  It is written to a
file beside its place and then moved there, so whatever fails on the way, the
place holds either what it held before or the whole new snapshot.

Reading takes any list of documents: an entry that is no complete metric is
passed over, and the others are written in place of what is held.
-/
import Telemetry.Store.Disk
import Telemetry.Wire.MetricJson

namespace Telemetry.Snapshot

/-- The complaint about a path that cannot be used. -/
def unusable (path reason : String) : Fault := .internal (path ++ ": " ++ reason)

/-- The text of a snapshot. -/
def encode (ms : List Metric) : Bytes := (Json.array (ms.map Metric.toJson)).indented 0

/-- Makes the directory that a snapshot goes into. -/
def prepare (path : String) (d : Disk) : Option Fault × Disk :=
  let above := PathText.parent path
  let (made, d) := d.makeDirs above
  (if made then none else some (unusable above "not a directory"), d)

/-- Writes a snapshot beside its place. -/
def writeBeside (path : String) (content : Bytes) (d : Disk) : Option Fault × Disk :=
  match d.write? (PathText.beside path) content with
  | some d => (none, d)
  | none => (some (unusable (PathText.beside path) "cannot be written"), d)

/-- Moves a snapshot from beside its place into it. -/
def moveInto (path : String) (d : Disk) : Option Fault × Disk :=
  match d.move? (PathText.beside path) path with
  | some d => (none, d)
  | none => (some (unusable path "cannot be replaced"), d)

/-- Goes on with a step on the disk, unless the one before failed.  What was done
to the disk stays done. -/
def step (f : Disk → Option Fault × Disk) (state : Option Fault × Disk) : Option Fault × Disk :=
  match state with
  | (some fault, d) => (some fault, d)
  | (none, d) => f d

/-- Writes a snapshot of metrics to a path, in three steps. -/
def dump (path : String) (ms : List Metric) (d : Disk) : Option Fault × Disk :=
  step (moveInto path) (step (writeBeside path (encode ms)) (step (prepare path) (none, d)))

/-- An entry with its fields read as characters, of several with one name the
last. -/
def normalEntry : Json → Json
  | .object fields =>
    .object (((Json.lastNamed ((Json.named? fields).getD [])).map fun (name, value) =>
      ((Bytes.ofText name).flatMap Json.escape, value)))
  | j => j

/-- The metric that an entry is, if it is a complete one; it need not be named. -/
def entry? (j : Json) : Option Metric :=
  match (Draft.ofJson? (normalEntry j)).map Draft.metric with
  | some (.ok m) =>
    match m.reading with
    | .ok _ => some m
    | .error _ => none
  | _ => none

/-- How many arrays and objects may not be open at once. -/
def depthLimit : Nat := 128

/-- The entries of a snapshot. -/
def entries? (content : Bytes) : Option (List Json) :=
  match Json.parseWithin? depthLimit content with
  | some (.array items) => if Json.arePlain items then some items else none
  | _ => none

/-- The metrics that a snapshot holds. -/
def decode? (content : Bytes) : Option (List Metric) :=
  (entries? content).map fun items => items.filterMap entry?

/-- The metrics of the snapshot at a path. -/
def load (path : String) (d : Disk) : Result (List Metric) :=
  match d.read? path with
  | none => .error (unusable path "cannot be read")
  | some content =>
    match decode? content with
    | some ms => .ok ms
    | none => .error (.badRequest ("snapshot " ++ path ++ ": malformed snapshot"))

end Telemetry.Snapshot
