/-
Writing JSON.

There are two layouts: `compact`, without a blank, and `indented`, with every
item and every field on a line of its own, two spaces deeper than what holds
it.  Both write a string as it is kept, so escaping is the work of `Json.ofText`.
-/
import Telemetry.Json.Basic

namespace Telemetry.Json

/-- The string of a text. -/
def ofText (s : String) : Json := .string ((Bytes.ofText s).flatMap escape)

def ofInt64 (d : Int64) : Json := .number (.ofInt d.toInt)

/-- The number of a double; one that is not finite is null. -/
def ofBinary64 (x : Binary64) : Json :=
  match Number.ofBinary64? x with
  | some n => .number n
  | none => .null

/-- An object of named values, without those that are absent. -/
def record (fields : List (String × Option Json)) : Json :=
  .object (fields.filterMap fun (name, value) => value.map ((Bytes.ofText name).flatMap escape, ·))

def ascii (cs : List Char) : Bytes := cs.map fun c => UInt8.ofNat c.toNat

def quoted (raw : Bytes) : Bytes := 34 :: raw ++ [34]

/-- A document that is neither an array nor an object. -/
def leaf : Json → Bytes
  | null => Bytes.ofText "null"
  | bool true => Bytes.ofText "true"
  | bool false => Bytes.ofText "false"
  | number n => ascii n.chars
  | string raw => quoted raw
  | _ => []

mutual
/-- A document without blanks. -/
def compact : Json → Bytes
  | array items => 91 :: compactItems items ++ [93]
  | object fields => 123 :: compactFields fields ++ [125]
  | null => leaf null
  | bool b => leaf (bool b)
  | number n => leaf (number n)
  | string raw => leaf (string raw)

def compactItems : List Json → Bytes
  | [] => []
  | [j] => compact j
  | j :: k :: rest => compact j ++ 44 :: compactItems (k :: rest)

def compactFields : List (Bytes × Json) → Bytes
  | [] => []
  | [(key, j)] => quoted key ++ 58 :: compact j
  | (key, j) :: k :: rest => quoted key ++ 58 :: compact j ++ 44 :: compactFields (k :: rest)
end

/-- The beginning of a line at a depth. -/
def newline (depth : Nat) : Bytes := 10 :: List.replicate (2 * depth) 32

mutual
/-- A document with a line for every item and field; `depth` counts what holds it. -/
def indented (depth : Nat) : Json → Bytes
  | array [] => [91, 93]
  | array (j :: rest) =>
    91 :: newline (depth + 1) ++ indentedItems (depth + 1) (j :: rest) ++ newline depth ++ [93]
  | object [] => [123, 125]
  | object (f :: rest) =>
    123 :: newline (depth + 1) ++ indentedFields (depth + 1) (f :: rest) ++ newline depth ++ [125]
  | null => leaf null
  | bool b => leaf (bool b)
  | number n => leaf (number n)
  | string raw => leaf (string raw)

def indentedItems (depth : Nat) : List Json → Bytes
  | [] => []
  | [j] => indented depth j
  | j :: k :: rest => indented depth j ++ 44 :: newline depth ++ indentedItems depth (k :: rest)

def indentedFields (depth : Nat) : List (Bytes × Json) → Bytes
  | [] => []
  | [(key, j)] => quoted key ++ 58 :: 32 :: indented depth j
  | (key, j) :: k :: rest =>
    quoted key ++ 58 :: 32 :: indented depth j ++ 44 :: newline depth
      ++ indentedFields depth (k :: rest)
end

end Telemetry.Json
