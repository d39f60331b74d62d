/-
Base64 text of octets.

Reading is strict: whole groups of four, padding only at the very end, and no
stray bit behind the last octet.
-/
import Telemetry.Bytes

namespace Telemetry.Base64

/-- The six bits that a character stands for. -/
def value? (c : UInt8) : Option Nat :=
  if 65 ≤ c ∧ c ≤ 90 then some (c.toNat - 65)
  else if 97 ≤ c ∧ c ≤ 122 then some (c.toNat - 71)
  else if 48 ≤ c ∧ c ≤ 57 then some (c.toNat + 4)
  else if c = 43 then some 62
  else if c = 47 then some 63
  else none

/-- The octets of a last group, which may be padded. -/
def lastGroup? (a b c d : UInt8) : Option Bytes := do
  let a ← value? a
  let b ← value? b
  if c = 61 then
    if d = 61 ∧ b % 16 = 0 then some [UInt8.ofNat (a * 4 + b / 16)] else none
  else
    let c ← value? c
    if d = 61 then
      if c % 4 = 0 then
        some [UInt8.ofNat (a * 4 + b / 16), UInt8.ofNat (b % 16 * 16 + c / 4)]
      else none
    else
      let d ← value? d
      some [UInt8.ofNat (a * 4 + b / 16), UInt8.ofNat (b % 16 * 16 + c / 4),
        UInt8.ofNat (c % 4 * 64 + d)]

/-- The octets of a group that others follow. -/
def group? (a b c d : UInt8) : Option Bytes :=
  if c = 61 ∨ d = 61 then none else lastGroup? a b c d

def decode? : Bytes → Option Bytes
  | [] => some []
  | [a, b, c, d] => lastGroup? a b c d
  | a :: b :: c :: d :: rest => do
    let group ← group? a b c d
    let more ← decode? rest
    some (group ++ more)
  | _ => none

end Telemetry.Base64
