/-
Hosts of addresses.

A host is a name or the address of a network.  A long network address stands in
brackets.  A name whose last part is a number has to be a short network address,
whose numbers may be octal or hexadecimal and of which the last one fills all
octets that are left.
-/
import Telemetry.Net.Address
import Telemetry.Text.Lossy
import Telemetry.Text.Percent
import Telemetry.Text.Pieces

namespace Telemetry.Http

/-- What is wrong with the text of an address. -/
inductive UrlFlaw where
  | noScheme
  | noHost
  | badName
  | badShortAddress
  | badLongAddress
  | badPort
deriving DecidableEq, Repr

def UrlFlaw.message : UrlFlaw → String
  | noScheme => "relative URL without a base"
  | noHost => "empty host"
  | badName => "invalid international domain name"
  | badShortAddress => "invalid IPv4 address"
  | badLongAddress => "invalid IPv6 address"
  | badPort => "invalid port number"

namespace Host

/-- The digits and the base of a number. -/
def based : List Char → Nat × List Char
  | '0' :: 'x' :: cs | '0' :: 'X' :: cs => (16, cs)
  | '0' :: c :: cs => (8, c :: cs)
  | cs => (10, cs)

def number? (cs : List Char) : Option Nat :=
  if cs = [] then none
  else
    let (base, digits) := based cs
    digits.foldlM (fun n c => (IpAddr.digit? base c).map fun d => n * base + d) 0

def parts (name : List Char) : List (List Char) :=
  match (Text.splitChars '.' name).reverse with
  | [] :: last :: rest => (last :: rest).reverse
  | parts => parts.reverse

/-- Whether the last part of a name is a number. -/
def endsInNumber (name : List Char) : Bool :=
  (parts name).getLast?.any fun cs =>
    (number? cs).isSome || (cs ≠ [] && cs.all fun c => '0' ≤ c && c ≤ '9')

/-- The short address of numbers, of which the last one takes `octets` octets. -/
def joined? : Nat → List Nat → Option Nat
  | octets, [n] => if n < 1 <<< (8 * octets) then some n else none
  | octets + 1, n :: rest =>
    if n < 256 then (joined? octets rest).map fun low => n <<< (8 * octets) + low else none
  | _, _ => none

/-- The short address that a name is. -/
def shortAddress? (name : List Char) : Option (BitVec 32) :=
  ((parts name).mapM number?).bind fun ns => (joined? 4 ns).map (BitVec.ofNat 32)

/-- Whether a character may not stand in a name. -/
def isForbidden (c : Char) : Bool :=
  c.toNat ≤ 0x20 || c.toNat = 0x7F
    || ['#', '%', '/', ':', '<', '>', '?', '@', '[', '\\', ']', '^', '|'].contains c

/-- The host that characters name, in its usual form. -/
def parse (cs : List Char) : Except UrlFlaw String :=
  match cs with
  | [] => .error .noHost
  | '[' :: rest =>
    match rest.reverse with
    | ']' :: inner =>
      match IpAddr.readV6? inner.reverse with
      | some (a, []) => .ok ("[" ++ (IpAddr.v6 a).text ++ "]")
      | _ => .error .badLongAddress
    | _ => .error .badLongAddress
  | cs =>
    let octets := Percent.decode (Bytes.ofText (String.ofList cs))
    let name := (Lossy.chars octets).map Char.toLower
    if name.any isForbidden then .error .badName
    else if endsInNumber name then
      match shortAddress? name with
      | some a => .ok (IpAddr.v4 a).text
      | none => .error .badShortAddress
    else .ok (String.ofList name)

end Host

end Telemetry.Http
