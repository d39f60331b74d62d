/-
Faults: why an operation was refused.

A fault is a cause together with the text that names its subject.  The cause
alone decides the status code a client sees; `Fault.message` is the one place
where the wording of a cause is written.
-/
namespace Telemetry

/-- Why an operation was refused, with the subject of the refusal. -/
inductive Fault where
  /-- No such metric is stored. -/
  | notFound (subject : String)
  /-- The kind of a metric is not known. -/
  | badType (subject : String)
  /-- A metric lacks the field of its kind. -/
  | nullAttr (subject : String)
  /-- A metric carries a value that its kind cannot hold. -/
  | badAttrValue (subject : String)
  /-- A signature is missing or wrong. -/
  | authFailed (subject : String)
  /-- The origin of a request is not trusted. -/
  | accessDenied (subject : String)
  /-- A request or a setting is malformed. -/
  | badRequest (subject : String)
  /-- A peer or a backend cannot be reached. -/
  | unavailable (subject : String)
  /-- A resource of the process itself failed. -/
  | internal (subject : String)
deriving DecidableEq, Repr

namespace Fault

/-- The causes alone. -/
inductive Code where
  | notFound | badType | nullAttr | badAttrValue | authFailed
  | accessDenied | badRequest | unavailable | internal
deriving DecidableEq, Repr

def code : Fault → Code
  | notFound _ => .notFound
  | badType _ => .badType
  | nullAttr _ => .nullAttr
  | badAttrValue _ => .badAttrValue
  | authFailed _ => .authFailed
  | accessDenied _ => .accessDenied
  | badRequest _ => .badRequest
  | unavailable _ => .unavailable
  | internal _ => .internal

def subject : Fault → String
  | notFound s | badType s | nullAttr s | badAttrValue s | authFailed s
  | accessDenied s | badRequest s | unavailable s | internal s => s

/-- The fault of a given cause about a given subject. -/
def ofCode (subject : String) : Code → Fault
  | .notFound => notFound subject
  | .badType => badType subject
  | .nullAttr => nullAttr subject
  | .badAttrValue => badAttrValue subject
  | .authFailed => authFailed subject
  | .accessDenied => accessDenied subject
  | .badRequest => badRequest subject
  | .unavailable => unavailable subject
  | .internal => internal subject

/-- What stands before the subject in the text of a fault; a denied access
speaks for itself. -/
def Code.lead : Code → String
  | .notFound => "metric not found: "
  | .badType => "metric has unsupported type: "
  | .nullAttr => "metric has not set attribute: "
  | .badAttrValue => "bad attribute value: "
  | .authFailed => "auth failed: "
  | .accessDenied => ""
  | .badRequest => "bad request: "
  | .unavailable => "unavailable: "
  | .internal => "internal: "

/-- The text of a fault. -/
def message (f : Fault) : String := f.code.lead ++ f.subject

/-- The name of a cause on the wire and in statistics. -/
def Code.name : Code → String
  | .notFound => "NOT_FOUND"
  | .badType => "BAD_TYPE"
  | .nullAttr => "NULL_ATTR"
  | .badAttrValue => "BAD_ATTR_VALUE"
  | .authFailed => "AUTH_FAILED"
  | .accessDenied => "ACCESS_DENIED"
  | .badRequest => "BAD_REQUEST"
  | .unavailable => "UNAVAILABLE"
  | .internal => "INTERNAL"

def Code.all : List Code :=
  [.notFound, .badType, .nullAttr, .badAttrValue, .authFailed,
   .accessDenied, .badRequest, .unavailable, .internal]

/-- The status a client is answered with. -/
def Code.status : Code → Nat
  | .notFound => 404
  | .badType => 501
  | .nullAttr | .badAttrValue | .authFailed | .badRequest => 400
  | .accessDenied => 403
  | .unavailable | .internal => 500

def status (f : Fault) : Nat := f.code.status

/-- Whether the client, and not the server, has to mend its ways. -/
def isClientFault (f : Fault) : Bool :=
  (400 ≤ f.status ∧ f.status < 500) ∨ f.status = 501

@[simp] theorem code_ofCode (s : String) (c : Code) : (ofCode s c).code = c := by
  cases c <;> rfl

@[simp] theorem subject_ofCode (s : String) (c : Code) : (ofCode s c).subject = s := by
  cases c <;> rfl

/-- Where a refusal leaves nothing behind, an operation is a value or a fault. -/
abbrev Result (α : Type) := Except Fault α

end Fault

export Fault (Result)

end Telemetry
