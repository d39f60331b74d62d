/-
Hexadecimal text of octets: two digits per octet, high half first.

Writing uses lower-case digits; reading takes both cases and refuses an odd
number of digits.
-/
import Telemetry.Bytes

namespace Telemetry.Hex

def digit (n : Nat) : Char := Nat.digitChar n

def value? (c : Char) : Option Nat :=
  if '0' ≤ c ∧ c ≤ '9' then some (c.toNat - 48)
  else if 'a' ≤ c ∧ c ≤ 'f' then some (c.toNat - 87)
  else if 'A' ≤ c ∧ c ≤ 'F' then some (c.toNat - 55)
  else none

/-- The two digits of an octet. -/
def pair (x : UInt8) : List Char := [digit (x.toNat / 16), digit (x.toNat % 16)]

def encode (b : Bytes) : String := String.ofList (b.flatMap pair)

/-- Reads digits two at a time; `done` holds the octets read so far, the latest first. -/
def decodeChars : List Char → Bytes → Option Bytes
  | [], done => some done.reverse
  | [_], _ => none
  | h :: l :: rest, done =>
    match value? h, value? l with
    | some a, some b => decodeChars rest (UInt8.ofNat (16 * a + b) :: done)
    | _, _ => none

def decode? (s : String) : Option Bytes := decodeChars s.toList []

theorem value?_digit {n : Nat} (h : n < 16) : value? (digit n) = some n := by
  have : ∀ n : Fin 16, value? (digit n.val) = some n.val := by decide
  exact this ⟨n, h⟩

theorem decodeChars_flatMap_pair (b done : Bytes) :
    decodeChars (b.flatMap pair) done = some (done.reverse ++ b) := by
  induction b generalizing done with
  | nil => simp [decodeChars]
  | cons x rest ih =>
    have hx := x.toNat_lt
    have hh : value? (digit (x.toNat / 16)) = some (x.toNat / 16) := value?_digit (by omega)
    have hl : value? (digit (x.toNat % 16)) = some (x.toNat % 16) := value?_digit (by omega)
    have hsum : 16 * (x.toNat / 16) + x.toNat % 16 = x.toNat := by omega
    simp [pair, decodeChars, hh, hl, ih, hsum]

/-- What is written reads back. -/
@[simp] theorem decode?_encode (b : Bytes) : decode? (encode b) = some b := by
  simp [decode?, encode, decodeChars_flatMap_pair]

end Telemetry.Hex
