/-
Trusted subnets.

A subnet is the leading bits that its addresses share.  A long address that
stands for a short one belongs to a short subnet like the short one itself.
-/
import Telemetry.Fault
import Telemetry.Net.Address
import Telemetry.Text.Pieces

namespace Telemetry

/-- The mask of the first `length` bits of a word. -/
def leadingMask (width length : Nat) : BitVec width :=
  if length = 0 then 0 else BitVec.allOnes width <<< (width - length)

/-- The bits of a word behind the first `length` replaced by zeros. -/
def leadingBits {width : Nat} (length : Nat) (a : BitVec width) : BitVec width :=
  a &&& leadingMask width length

/-- The addresses that share their first bits with a network. -/
inductive Subnet where
  | v4 (network : BitVec 32) (length : Nat)
  | v6 (network : BitVec 128) (length : Nat)
deriving DecidableEq, Repr

namespace Subnet

/-- The subnet of an address; the bits behind the first `length` do not matter. -/
def ofAddress? (a : IpAddr) (length : Nat) : Option Subnet :=
  match a with
  | .v4 bits => if length ≤ 32 then some (v4 (leadingBits length bits) length) else none
  | .v6 bits => if length ≤ 128 then some (v6 (leadingBits length bits) length) else none

/-- The subnet that an address, a slash and a length make. -/
def ofText? (s : String) : Option Subnet :=
  (Text.cut? '/' (Text.trimChars s.toList)).bind fun (address, length) =>
    (IpAddr.ofText? (String.ofList address)).bind fun a =>
      (Integer.below? 256 (String.ofList length)).bind (ofAddress? a)

/-- The subnet of a text, which has to be one. -/
def parse (s : String) : Result Subnet :=
  match ofText? s with
  | some n => .ok n
  | none => .error (.badRequest ("invalid trusted subnet: " ++ s))

/-- Whether an address shares the first bits of the network. -/
def contains : Subnet → IpAddr → Bool
  | v4 network length, .v4 a => leadingBits length a = network
  | v6 network length, .v6 a => leadingBits length a = network
  | v4 network length, .v6 a =>
    match IpAddr.mapped? a with
    | some short => leadingBits length short = network
    | none => false
  | v6 _ _, .v4 _ => false

def text : Subnet → String
  | v4 network length => (IpAddr.v4 network).text ++ "/" ++ Integer.ofNat length
  | v6 network length => (IpAddr.v6 network).text ++ "/" ++ Integer.ofNat length

/-- The header that carries a client's address. -/
def header : String := "X-Real-IP"

/-- Refuses an address outside the subnet. -/
def checkAddress (n : Subnet) (a : IpAddr) : Result Unit :=
  if n.contains a then .ok () else .error (.accessDenied "Access denied")

/-- Refuses a header that is missing, blank or no address, and an address
outside the subnet. -/
def checkHeader (n : Subnet) (value : Option String) : Result Unit :=
  let raw := Text.trim (value.getD "")
  if raw = "" then .error (.accessDenied (header ++ " is not set"))
  else
    match IpAddr.ofText? raw with
    | some a => n.checkAddress a
    | none => .error (.accessDenied (header ++ "=" ++ raw ++ " is not a valid IP"))

end Subnet

end Telemetry
