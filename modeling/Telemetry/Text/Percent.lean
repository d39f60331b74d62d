/-
Octets written with percent signs.

A percent sign and two hexadecimal digits stand for an octet.  Writing chooses
which characters stay as they are; all others become their octets.
-/
import Telemetry.Text.Hex

namespace Telemetry.Percent

/-- Octets with what is written with percent signs undone; a percent sign without
two digits behind it stands for itself. -/
def decode : Bytes → Bytes
  | 0x25 :: a :: b :: rest =>
    match Hex.value? (Char.ofNat a.toNat), Hex.value? (Char.ofNat b.toNat) with
    | some high, some low => UInt8.ofNat (high * 16 + low) :: decode rest
    | _, _ => 0x25 :: decode (a :: b :: rest)
  | x :: rest => x :: decode rest
  | [] => []

/-- An octet written with a percent sign. -/
def octet (x : UInt8) : List Char := '%' :: (Hex.pair x).map Char.toUpper

/-- Characters with those that do not stay written as octets. -/
def encode (stays : Char → Bool) (cs : List Char) : List Char :=
  cs.flatMap fun c =>
    if stays c then [c] else (Bytes.ofText (String.singleton c)).flatMap octet

end Telemetry.Percent
