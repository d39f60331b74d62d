/-
JSON documents.

A document is a tree.  Strings are kept as they stand between their quotes and
numbers as they are written, because what a string or a number has to satisfy
depends on who asks for it: a field that is skipped needs JSON's grammar and
nothing more.
-/
import Telemetry.Json.Number
import Telemetry.Json.Quoted

namespace Telemetry

/-- A JSON document. -/
inductive Json where
  | null
  | bool (value : Bool)
  | number (value : Json.Number)
  /-- A string, as it stands between its quotes. -/
  | string (raw : Bytes)
  | array (items : List Json)
  /-- Fields in the order of the text, names as between their quotes. -/
  | object (fields : List (Bytes × Json))
deriving Inhabited

namespace Json

/-- The characters of a string. -/
def text? : Json → Option String
  | string raw => unquote? raw
  | _ => none

/-- The signed 64-bit integer that a document is. -/
def int64? : Json → Option Int64
  | number n => n.int64?
  | _ => none

/-- The double nearest to the number that a document is. -/
def binary64? : Json → Option Binary64
  | number n => n.binary64?
  | _ => none

/-- A field that may be left out or be null. -/
def optional {α : Type} (read : Json → Option α) : Option Json → Option (Option α)
  | none | some null => some none
  | some j => (read j).map some

/-- Fields with their names read; a name that stands for no characters spoils
the object. -/
def named? (fields : List (Bytes × Json)) : Option (List (String × Json)) :=
  fields.mapM fun (key, value) => (unquote? key).map (·, value)

/-- The values of the named fields of a record, in the order of `names`.

An object may have other fields as well, but no named one twice.  An array
lists the values in order; it may be shorter than `names` but not longer. -/
def slots? (names : List String) : Json → Option (List (Option Json))
  | object fields =>
    (named? fields).bind fun fields =>
      if names.all fun n => (fields.filter (·.1 = n)).length ≤ 1 then
        some (names.map fun n => (fields.find? (·.1 = n)).map (·.2))
      else none
  | array items =>
    if items.length ≤ names.length then
      some (items.map some ++ List.replicate (names.length - items.length) none)
    else none
  | _ => none

/-- Fields without those whose name comes again later. -/
def lastNamed : List (String × Json) → List (String × Json)
  | [] => []
  | field :: rest =>
    if rest.any (·.1 = field.1) then lastNamed rest else field :: lastNamed rest

mutual
/-- Whether a document holds only strings that stand for characters and numbers
that are in range. -/
def isPlain : Json → Bool
  | null | bool _ => true
  | number n => n.binary64?.isSome
  | string raw => (unquote? raw).isSome
  | array items => arePlain items
  | object fields => fieldsPlain fields

def arePlain : List Json → Bool
  | [] => true
  | j :: rest => isPlain j && arePlain rest

def fieldsPlain : List (Bytes × Json) → Bool
  | [] => true
  | (key, j) :: rest => (unquote? key).isSome && isPlain j && fieldsPlain rest
end

end Json

end Telemetry
