/-
Octets shown as text whatever they are.

Every well-formed UTF-8 character is kept.  Where none starts, the longest
piece that could have begun one is shown as a single replacement character.
-/
import Telemetry.Bytes

namespace Telemetry.Lossy

/-- What the first octet of a character asks of the next one, and how many
octets follow it. -/
def lead? (a : UInt8) : Option (Nat × UInt8 × UInt8) :=
  if a < 0xC2 then none
  else if a ≤ 0xDF then some (1, 0x80, 0xBF)
  else if a = 0xE0 then some (2, 0xA0, 0xBF)
  else if a = 0xED then some (2, 0x80, 0x9F)
  else if a ≤ 0xEF then some (2, 0x80, 0xBF)
  else if a = 0xF0 then some (3, 0x90, 0xBF)
  else if a ≤ 0xF3 then some (3, 0x80, 0xBF)
  else if a = 0xF4 then some (3, 0x80, 0x8F)
  else none

/-- How many of the octets after a first one belong to its character: at most
`owed`, the first of them inside the given bounds. -/
def tailLength (owed : Nat) (low high : UInt8) : Bytes → Nat
  | [] => 0
  | b :: rest =>
    match owed with
    | 0 => 0
    | n + 1 => if low ≤ b ∧ b ≤ high then 1 + tailLength n 0x80 0xBF rest else 0

def replacement : Char := Char.ofNat 0xFFFD

/-- The characters shown for octets. -/
def chars : Bytes → List Char
  | [] => []
  | a :: rest =>
    if a < 0x80 then Char.ofNat a.toNat :: chars rest
    else
      match lead? a with
      | none => replacement :: chars rest
      | some (owed, low, high) =>
        let n := tailLength owed low high rest
        let shown :=
          if n = owed then
            ((Bytes.text? (a :: rest.take n)).map String.toList).getD [replacement]
          else [replacement]
        shown ++ chars (rest.drop n)
termination_by b => b.length
decreasing_by all_goals simp only [List.length_cons, List.length_drop]; omega

/-- The text shown for octets. -/
def text (b : Bytes) : String := String.ofList (chars b)

end Telemetry.Lossy
