/-
Network addresses and their text.

An address has 32 or 128 bits.  The short form is four decimal numbers, the
long one eight hexadecimal groups, of which one run of zeros may be left out
and the last two may be written like a short address.  Reading consumes
characters from the left; a text is an address when nothing is left over.
-/
import Telemetry.Text.Hex
import Telemetry.Text.Integer

namespace Telemetry

/-- A network address of either family. -/
inductive IpAddr where
  | v4 (bits : BitVec 32)
  | v6 (bits : BitVec 128)
deriving DecidableEq, Repr

namespace IpAddr

def digit? (base : Nat) (c : Char) : Option Nat := (Hex.value? c).filter (· < base)

/-- The digits at the front, as many as there are. -/
def leading (base : Nat) (cs : List Char) : List Nat :=
  (cs.takeWhile fun c => (digit? base c).isSome).filterMap (digit? base)

/-- The number that the digits at the front write; `bound` is above every number
allowed, `most` the most digits. -/
def number? (base : Nat) (most : Option Nat) (bound : Nat) (cs : List Char) :
    Option (Nat × List Char) :=
  let ds := leading base cs
  let n := ds.foldl (fun n d => n * base + d) 0
  if ds = [] ∨ (most.any fun m => m < ds.length) ∨ bound ≤ n then none
  else some (n, cs.drop ds.length)

/-- What follows a character, if it stands here. -/
def after? (c : Char) : List Char → Option (List Char)
  | d :: rest => if c = d then some rest else none
  | [] => none

def octet? (cs : List Char) : Option (Nat × List Char) :=
  (number? 10 (some 3) 256 cs).filter fun (_, rest) =>
    cs.head? ≠ some '0' || cs.length = rest.length + 1

/-- A short address at the front. -/
def readV4? (cs : List Char) : Option (BitVec 32 × List Char) := do
  let (a, cs) ← octet? cs
  let (b, cs) ← octet? (← after? '.' cs)
  let (c, cs) ← octet? (← after? '.' cs)
  let (d, cs) ← octet? (← after? '.' cs)
  some (BitVec.ofNat 32 (((a * 256 + b) * 256 + c) * 256 + d), cs)

def separated? (first : Bool) (cs : List Char) : Option (List Char) :=
  if first then some cs else after? ':' cs

/-- At most `room` groups at the front, a colon between them, and whether the
last two were written like a short address. -/
def groups (first : Bool) : Nat → List Char → List Nat × Bool × List Char
  | 0, cs => ([], false, cs)
  | room + 1, cs =>
    match (if room = 0 then none else (separated? first cs).bind readV4?) with
    | some (a, rest) => ([a.toNat / 65536, a.toNat % 65536], true, rest)
    | none =>
      match (separated? first cs).bind (number? 16 (some 4) 65536) with
      | none => ([], false, cs)
      | some (g, rest) =>
        let (gs, short, rest) := groups false room rest
        (g :: gs, short, rest)

/-- The bits of eight groups. -/
def ofGroups (gs : List Nat) : BitVec 128 :=
  BitVec.ofNat 128 (gs.foldl (fun n g => n * 65536 + g) 0)

/-- A long address at the front.  A double colon stands for at least one group. -/
def readV6? (cs : List Char) : Option (BitVec 128 × List Char) :=
  let (head, short, rest) := groups true 8 cs
  if head.length = 8 then some (ofGroups head, rest)
  else if short then none
  else
    ((after? ':' rest).bind (after? ':')).map fun rest =>
      let (tail, _, rest) := groups true (7 - head.length) rest
      (ofGroups (head ++ List.replicate (8 - head.length - tail.length) 0 ++ tail), rest)

/-- An address at the front. -/
def read? (cs : List Char) : Option (IpAddr × List Char) :=
  ((readV4? cs).map fun (a, rest) => (v4 a, rest)).or
    ((readV6? cs).map fun (a, rest) => (v6 a, rest))

/-- The address that a text is. -/
def ofText? (s : String) : Option IpAddr :=
  match read? s.toList with
  | some (a, []) => some a
  | _ => none

/-- The short address that a long one stands for. -/
def mapped? (a : BitVec 128) : Option (BitVec 32) :=
  if a.toNat >>> 32 = 0xFFFF then some (BitVec.ofNat 32 a.toNat) else none

def textV4 (a : BitVec 32) : List Char :=
  List.intercalate ['.'] ([24, 16, 8, 0].map fun k => Integer.digits (a.toNat >>> k % 256))

def groupsOf (a : BitVec 128) : List Nat :=
  [112, 96, 80, 64, 48, 32, 16, 0].map fun k => a.toNat >>> k % 65536

/-- How many groups at the front are zero. -/
def zeros (gs : List Nat) : Nat := (gs.takeWhile (· = 0)).length

/-- The longest run of zeros: where it starts and how long it is.  Of equally
long ones it is the first. -/
def longestZeros (start : Nat) : List Nat → Nat × Nat
  | [] => (start, 0)
  | g :: rest =>
    let later := longestZeros (start + 1) rest
    let here := zeros (g :: rest)
    if later.2 ≤ here then (start, here) else later

/-- Groups with a colon between them. -/
def groupText (gs : List Nat) : List Char := List.intercalate [':'] (gs.map (Nat.toDigits 16))

/-- The text of a long address: the longest run of two or more zeros is left out. -/
def textV6 (a : BitVec 128) : List Char :=
  match mapped? a with
  | some short => "::ffff:".toList ++ textV4 short
  | none =>
    let gs := groupsOf a
    let (start, length) := longestZeros 0 gs
    if 1 < length then
      groupText (gs.take start) ++ [':', ':'] ++ groupText (gs.drop (start + length))
    else groupText gs

def text : IpAddr → String
  | v4 a => String.ofList (textV4 a)
  | v6 a => String.ofList (textV6 a)

def loopback : IpAddr := v4 0x7F000001#32

end IpAddr

/-- An address with a port. -/
structure SocketAddr where
  ip : IpAddr
  /-- The scope that a long address is meant in; zero is none in particular. -/
  scope : Nat
  port : Nat
deriving DecidableEq, Repr

namespace SocketAddr

/-- A colon and a port at the front. -/
def port? (cs : List Char) : Option (Nat × List Char) :=
  (IpAddr.after? ':' cs).bind (IpAddr.number? 10 none 65536)

/-- The scope at the front, which may be left out. -/
def readScope (cs : List Char) : Nat × List Char :=
  ((IpAddr.after? '%' cs).bind (IpAddr.number? 10 none UInt32.size)).getD (0, cs)

/-- A short address with a port. -/
def readV4? (cs : List Char) : Option (SocketAddr × List Char) := do
  let (a, cs) ← IpAddr.readV4? cs
  let (port, cs) ← port? cs
  some (⟨.v4 a, 0, port⟩, cs)

/-- A long address in brackets, perhaps with a scope, and a port. -/
def readV6? (cs : List Char) : Option (SocketAddr × List Char) := do
  let cs ← IpAddr.after? '[' cs
  let (a, cs) ← IpAddr.readV6? cs
  let (scope, cs) := readScope cs
  let (port, cs) ← port? (← IpAddr.after? ']' cs)
  some (⟨.v6 a, scope, port⟩, cs)

/-- The address with a port that a text is. -/
def ofText? (s : String) : Option SocketAddr :=
  match (readV4? s.toList).or (readV6? s.toList) with
  | some (a, []) => some a
  | _ => none

def text (a : SocketAddr) : String :=
  let ip := match a.ip with
    | .v4 _ => a.ip.text
    | .v6 _ =>
      "[" ++ a.ip.text ++ (if a.scope = 0 then "" else "%" ++ Integer.ofNat a.scope) ++ "]"
  ip ++ ":" ++ Integer.ofNat a.port

end SocketAddr

end Telemetry
