/-
The store in a database.

A database is opened once, and closing it is final.  Everything is written
inside a transaction: the rows of a batch change one by one on a copy of the
tables, and the copy takes their place only when every row was accepted.
-/
import Telemetry.Store.Disk
import Telemetry.Store.Dsn

namespace Telemetry

/-- An open database. -/
structure Connection where
  /-- The file it is kept in, if it is kept at all. -/
  file : Option Path
  readOnly : Bool
  tables : Holdings

/-- Where a database is in its life. -/
inductive Phase where
  | unopened
  | opened (connection : Connection)
  | closed (last : Connection)

/-- A database and where it is found. -/
structure Database where
  dsn : String
  phase : Phase

namespace Database

/-- A database that is not yet open. -/
def ofDsn (dsn : String) : Database := ⟨dsn, .unopened⟩

def uninitialised : Fault := .unavailable "store is not initialised"

/-- The complaint about a statement that cannot be carried out. -/
def refused (reason : String) : Fault := .internal ("database error: " ++ reason)

/-- The complaint about a database that cannot be opened. -/
def unopenable (reason : String) : Fault := .unavailable ("cannot open database: " ++ reason)

def closedText : String := "attempted to acquire a connection on a closed pool"

/-- What a database says when it refuses something. -/
def said (code : String) (reason : String) : String :=
  "error returned from database: (code: " ++ code ++ ") " ++ reason

/-- What is said of a write to a database that may only be read. -/
def readOnlyText : String := said "8" "attempt to write a readonly database"

/-- The complaint about a database whose tables cannot be set up. -/
def unprepared (reason : String) : Fault := .unavailable ("schema setup failed: " ++ reason)

/-! ## Opening -/

/-- How many octets the names on a path take, with a slash before each. -/
def pathLength (p : Path) : Nat := p.foldl (fun n name => n + name.utf8ByteSize + 1) 0

def maxPathLength : Nat := 511

/-- How much longer the path of a journal is than that of its database. -/
def journalLength : Nat := 8

/-- One step along the path of a database.  A step back leads back also from where
nothing stands. -/
def step? (d : Disk) (place : Path) (step : String) : Option Path :=
  if step = "." then some place
  else if step = ".." then some place.dropLast
  else
    let next := place ++ [step]
    match d.follow [] next with
    | .barred => none
    | _ => if maxPathLength < pathLength next then none else some next

/-- The place of a database by the path text of its file. -/
def place? (d : Disk) (text : String) : Option Path :=
  let start := if PathText.isAbsolute text then [] else d.current
  ((PathText.steps text).foldlM (step? d) start).filter fun p =>
    p ≠ [] ∧ pathLength p + journalLength ≤ maxPathLength + 1

/-- Sets up a database at a place where there is room for one. -/
def prepared (l : Locator) (place : Path) : Result Connection :=
  if l.isReadOnly then .error (unprepared readOnlyText)
  else if Disk.maxNameLength < (place.getLast?.getD "").utf8ByteSize + journalLength then
    .error (unprepared (said "14" "unable to open database file"))
  else .ok ⟨some place, false, .empty⟩

/-- Opens the database at a place.  A file of at most one octet is taken for an
empty one. -/
def openAt (l : Locator) (place : Path) (d : Disk) : Result Connection :=
  match d.follow [] place with
  | .found _ (.database tables) => .ok ⟨some place, l.isReadOnly, tables⟩
  | .found _ (.file content) =>
    if content.length ≤ 1 then prepared l place
    else .error (unprepared (said "26" "file is not a database"))
  | .found _ .directory =>
    if l.rights = .read then .error (unprepared (said "266" "disk I/O error"))
    else .error (unopenable "unable to open database file")
  | .free _ =>
    if l.rights = .create then prepared l place
    else .error (unopenable "unable to open database file")
  | _ => .error (unopenable "unable to open database file")

/-- Opens the database that a locator leads to. -/
def openLocated (l : Locator) (d : Disk) : Result Connection :=
  if ¬l.isAccessible then .error (unopenable "no such way to access files")
  else if l.isFileless then
    if l.isReadOnly then .error (unprepared readOnlyText) else .ok ⟨none, false, .empty⟩
  else
    match place? d l.path with
    | some place => openAt l place d
    | none => .error (unopenable "unable to open database file")

/-- Opens the database that a text names. -/
def connect (text : String) (d : Disk) : Result Connection :=
  match Dsn.ofText? text with
  | none => .error (.unavailable "invalid database dsn: malformed dsn")
  | some dsn =>
    match dsn.locator? with
    | some l => openLocated l d
    | none => .error (unopenable "malformed name")

/-- Opens a database that is not yet open. -/
def initialise (db : Database) (d : Disk) : Result Database :=
  match db.phase with
  | .unopened => (connect db.dsn d).map fun c => { db with phase := .opened c }
  | _ => .ok db

/-- The open connection, for a statement. -/
def connection (db : Database) : Result Connection :=
  match db.phase with
  | .unopened => .error uninitialised
  | .opened c => .ok c
  | .closed _ => .error (refused closedText)

/-- Closes a database for good. -/
def close (db : Database) : Database :=
  match db.phase with
  | .opened c => { db with phase := .closed c }
  | _ => db

/-- The disk with the tables of a connection in their file. -/
def save (db : Database) (d : Disk) : Disk :=
  match db.phase with
  | .opened ⟨some p, _, tables⟩ | .closed ⟨some p, _, tables⟩ => d.put p (.database tables)
  | _ => d

def available (db : Database) : Result Unit :=
  match db.phase with
  | .unopened => .error uninitialised
  | .opened _ => .ok ()
  | .closed _ => .error (.unavailable closedText)

/-! ## Rows -/

/-- Whether the sum of a row and an increment is in range; worked out with 64-bit
differences that themselves stay in range. -/
def mayAdd (held increment : Int64) : Bool :=
  (0 ≤ increment && held ≤ Int64.maxValue - increment)
    || (increment < 0 && Int64.minValue - increment ≤ held)

/-- Adds to the row of a counter, or makes the row. -/
def addRow (t : Holdings) (id : String) (delta : Int64) : Result Holdings :=
  match t.counters[id]? with
  | none => .ok (t.put id (.counter delta))
  | some held =>
    if mayAdd held delta then .ok (t.put id (.counter (held + delta)))
    else .error (Holdings.overflow id)

/-- The level that a row keeps: a zero has no sign in it. -/
def kept (level : Binary64) : Binary64 := if level.magnitude = 0 then .zero else level

/-- Sets the row of a gauge; what is not a number is no value of a row. -/
def setGauge (t : Holdings) (id : String) (level : Binary64) : Result Holdings :=
  if level.isNaN then .error (refused "NOT NULL constraint failed")
  else .ok (t.put id (.gauge (kept level)))

/-- Changes one row, counters by an increment. -/
def accumulate (t : Holdings) : String × Reading → Result Holdings
  | (id, .counter delta) => addRow t id delta
  | (id, .gauge level) => setGauge t id level

/-- Sets one row. -/
def assign (t : Holdings) : String × Reading → Result Holdings
  | (id, .counter amount) => .ok (t.put id (.counter amount))
  | (id, .gauge level) => setGauge t id level

/-! ## Transactions -/

/-- Changes rows of an open database one after the other.  Where one is refused,
the tables stay as they were. -/
def transact (row : Holdings → String × Reading → Result Holdings) (db : Database)
    (rs : List (String × Reading)) : Result Database :=
  db.connection.bind fun c =>
    if c.readOnly ∧ rs ≠ [] then .error (refused readOnlyText)
    else
      (rs.foldlM row c.tables).map fun tables => { db with phase := .opened { c with tables } }

/-- Writes metrics; they have to be complete before the database is asked. -/
def writeAll (row : Holdings → String × Reading → Result Holdings) (db : Database)
    (ms : List Metric) : Result Database :=
  (Holdings.readings ms).bind (transact row db)

/-- Applies a batch as a whole. -/
def updateAll (db : Database) (batch : List Metric) : Result Database :=
  db.writeAll accumulate batch

def update (db : Database) (m : Metric) : Result Database := db.updateAll [m]

def replaceAll (db : Database) (ms : List Metric) : Result Database := db.writeAll assign ms

/-- Sets a counter that is held to zero. -/
def reset (db : Database) (id : String) : Result Database :=
  db.connection.bind fun c =>
    if c.readOnly then .error (refused readOnlyText)
    else (c.tables.reset id).map fun tables => { db with phase := .opened { c with tables } }

def lookup (db : Database) (query : Metric) : Result Metric :=
  db.connection.bind fun c => c.tables.lookup query

def metrics (db : Database) : Result (List Metric) := db.connection.map fun c => c.tables.metrics

end Database

end Telemetry
