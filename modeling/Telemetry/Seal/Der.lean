/-
Tagged elements in their distinguished form.

An element is a tag, a length in as few octets as it takes, and content.  A
number has no superfluous leading zero and is not negative.  Some tags have a
meaning of their own; others are numbered, and what they mean depends on where
they stand.
-/
import Telemetry.Bytes

namespace Telemetry.Der

/-- A tag with its content. -/
structure Element where
  tag : UInt8
  content : Bytes
deriving DecidableEq, Repr

/-- The number of a numbered tag. -/
def tagNumber (tag : UInt8) : UInt8 := tag &&& 0x1F

/-- The tags with a meaning of their own. -/
def plainTags : List UInt8 :=
  [0x01, 0x02, 0x03, 0x04, 0x05, 0x06, 0x09, 0x0A, 0x0C, 0x12, 0x13, 0x14, 0x15, 0x16, 0x17, 0x18,
    0x1A, 0x1E, 0x30, 0x31]

/-- Whether a tag is one at all; no number takes more than one octet. -/
def isTag (tag : UInt8) : Bool := plainTags.contains tag || (0x40 ≤ tag && tagNumber tag ≠ 31)

/-- The length that octets write, and what follows it. -/
def length? : Bytes → Option (Nat × Bytes)
  | [] => none
  | x :: rest =>
    if x < 128 then some (x.toNat, rest)
    else
      let size := x.toNat - 128
      let octets := rest.take size
      let n := Bytes.toNatBE octets
      if 1 ≤ size ∧ size ≤ 4 ∧ octets.length = size ∧ 128 ≤ n ∧ octets.head? ≠ some 0 then
        some (n, rest.drop size)
      else none

/-- The first element, and what follows it. -/
def element? : Bytes → Option (Element × Bytes)
  | [] => none
  | tag :: rest => do
    let (n, rest) ← length? rest
    if isTag tag ∧ (rest.take n).length = n then some (⟨tag, rest.take n⟩, rest.drop n) else none

/-- All elements; there are fewer of them than `fuel`. -/
def elementsWithin? : Nat → Bytes → Option (List Element)
  | 0, _ => none
  | _ + 1, [] => some []
  | fuel + 1, x :: rest => do
    let (e, rest) ← element? (x :: rest)
    let more ← elementsWithin? fuel rest
    some (e :: more)

def elements? (b : Bytes) : Option (List Element) := elementsWithin? (b.length + 1) b

def numberTag : UInt8 := 0x02

def bitsTag : UInt8 := 0x03

def octetsTag : UInt8 := 0x04

def nameTag : UInt8 := 0x06

def sequenceTag : UInt8 := 0x30

def Element.number? (e : Element) : Option Nat :=
  if e.tag = numberTag then
    match e.content with
    | [] => none
    | [x] => if x < 128 then some x.toNat else none
    | x :: y :: rest =>
      if 128 ≤ x ∨ (x = 0 ∧ y < 128) then none else some (Bytes.toNatBE (x :: y :: rest))
  else none

/-- Whether the tag of an element has a number within what the element is part of. -/
def Element.isPart (e : Element) : Bool := 0x80 ≤ e.tag && e.tag < 0xC0

/-- Whether an element is a numbered part that wraps another element. -/
def Element.isWrapping (e : Element) : Bool :=
  e.isPart && 0xA0 ≤ e.tag && (element? e.content).any (·.2 = [])

/-- The items of a sequence. -/
def Element.items? (e : Element) : Option (List Element) :=
  if e.tag = sequenceTag then elements? e.content else none

/-- The items of the one sequence that octets are. -/
def sequence? (b : Bytes) : Option (List Element) :=
  match element? b with
  | some (e, []) => e.items?
  | _ => none

end Telemetry.Der
