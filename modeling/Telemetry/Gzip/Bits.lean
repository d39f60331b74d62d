/-
A stream of bits, the lowest bit of every octet first.

Reading ends in two ways that are told apart: the stream may be cut short, or
what it says may make no sense.
-/
import Telemetry.Bytes

namespace Telemetry.Gzip

/-- Why a compressed stream cannot be read on. -/
inductive Stop where
  /-- The stream ends before its content does. -/
  | truncated
  /-- The stream says something that has no meaning. -/
  | corrupt
deriving DecidableEq, Repr

/-- The octets still to be read and how many bits of the first one are spent. -/
structure Bits where
  bytes : Bytes
  spent : Nat
deriving DecidableEq, Repr

namespace Bits

def ofBytes (b : Bytes) : Bits := ⟨b, 0⟩

def next (s : Bits) : Except Stop (Bool × Bits) :=
  match s.bytes with
  | [] => .error .truncated
  | x :: rest =>
    let bit := (x.toNat >>> s.spent) % 2 = 1
    if s.spent < 7 then .ok (bit, ⟨x :: rest, s.spent + 1⟩) else .ok (bit, ⟨rest, 0⟩)

/-- The number that the next `n` bits write, the lowest first. -/
def number : Nat → Bits → Except Stop (Nat × Bits)
  | 0, s => .ok (0, s)
  | n + 1, s => do
    let (bit, s) ← s.next
    let (high, s) ← number n s
    .ok (bit.toNat + 2 * high, s)

/-- The octets after the one that is partly spent. -/
def rest (s : Bits) : Bytes := if s.spent = 0 then s.bytes else s.bytes.tail

/-- The stream from the next octet on. -/
def align (s : Bits) : Bits := ⟨s.rest, 0⟩

end Bits

/-- Packs bits into octets, the lowest bit first; the last octet is filled up
with zeros. -/
def pack : List Bool → Bytes
  | a :: b :: c :: d :: e :: f :: g :: h :: more =>
    let low := a.toNat + 2 * b.toNat + 4 * c.toNat + 8 * d.toNat
    let high := e.toNat + 2 * f.toNat + 4 * g.toNat + 8 * h.toNat
    UInt8.ofNat (low + 16 * high) :: pack more
  | [] => []
  | few => [UInt8.ofNat (few.foldr (fun bit n => bit.toNat + 2 * n) 0)]

end Telemetry.Gzip
