/-
Writing gzip members.

Content is cut into pieces, and every piece becomes a block: literals and copies
under the fixed code if there is little of it, else under codes made for it; or
the piece as it is, if that is shorter.  No block refers to an earlier one, and
every block begins at an octet boundary.
-/
import Telemetry.Gzip.CodeLengths
import Telemetry.Gzip.Crc32
import Telemetry.Gzip.Repeats

namespace Telemetry.Gzip

/-- The `n` low bits of a number, the lowest first. -/
def lowBits : Nat → Nat → List Bool
  | 0, _ => []
  | n + 1, x => (x % 2 = 1) :: lowBits n (x / 2)

/-- The last of some symbols whose least value is not above a value. -/
def symbolFor (base : Nat → Nat × Nat) (first count value : Nat) : Nat :=
  first + (((List.range count).reverse.find? fun i => (base (first + i)).1 ≤ value).getD 0)

def lengthSymbol (length : Nat) : Nat := symbolFor Cursor.lengthBase 257 29 length

def distanceSymbol (distance : Nat) : Nat := symbolFor Cursor.distanceBase 0 30 distance

def endSymbol : Nat := 256

def wordOf (words : Array (List Bool)) (symbol : Nat) : List Bool := (words[symbol]?).getD []

/-- A symbol with the bits that are added to its least value. -/
def valueBits (words : Array (List Bool)) (base : Nat → Nat × Nat) (symbol value : Nat) :
    List Bool :=
  wordOf words symbol ++ lowBits (base symbol).2 (value - (base symbol).1)

/-- The bits of an item. -/
def itemBits (literals distances : Array (List Bool)) : Item → List Bool
  | .nothing => []
  | .literal x => wordOf literals x.toNat
  | .copy length distance =>
    valueBits literals Cursor.lengthBase (lengthSymbol length) length
      ++ valueBits distances Cursor.distanceBase (distanceSymbol distance) distance

/-- The bits of items and of the end of their block. -/
def contentBits (literals distances : List Nat) (items : List Item) : List Bool :=
  let literals := CodeLengths.words literals
  let distances := CodeLengths.words distances
  items.flatMap (itemBits literals distances) ++ wordOf literals endSymbol

/-- How often each of so many symbols is used. -/
def tally (size : Nat) (symbols : List Nat) : List Nat :=
  (symbols.foldl (fun (uses : Array Nat) symbol => uses.modify symbol (· + 1))
    (Array.replicate size 0)).toList

/-- The symbols of literals and lengths that items use, and the end of their block. -/
def literalSymbols (items : List Item) : List Nat :=
  endSymbol :: items.filterMap fun
    | .nothing => none
    | .literal x => some x.toNat
    | .copy length _ => some (lengthSymbol length)

/-- The symbols of distances that items use. -/
def distanceSymbols (items : List Item) : List Nat :=
  items.filterMap fun
    | .copy _ distance => some (distanceSymbol distance)
    | _ => none

/-- Numbers without the zeros at their end, but at least some of them. -/
def trimZeros (least : Nat) (ns : List Nat) : List Nat :=
  let kept := (ns.reverse.dropWhile (· = 0)).length
  ns.take (max least kept)

/-- Runs of equal numbers, with their lengths. -/
def runs : List Nat → List (Nat × Nat)
  | [] => []
  | x :: rest =>
    match runs rest with
    | (y, n) :: more => if x = y then (y, n + 1) :: more else (x, 1) :: (y, n) :: more
    | [] => [(x, 1)]

/-- A symbol of the code of word lengths, with the number of bits added to it and
what they say. -/
structure LengthItem where
  symbol : Nat
  bits : Nat
  value : Nat

/-- A run of zeros. -/
def zeroItems (n : Nat) : List LengthItem :=
  let left := n % 138
  List.replicate (n / 138) ⟨18, 7, 127⟩ ++
    if left < 3 then List.replicate left ⟨0, 0, 0⟩
    else if left ≤ 10 then [⟨17, 3, left - 3⟩]
    else [⟨18, 7, left - 11⟩]

/-- A run of one length: the length, and how often it is repeated. -/
def repeatItems (length n : Nat) : List LengthItem :=
  let left := (n - 1) % 6
  ⟨length, 0, 0⟩ :: List.replicate ((n - 1) / 6) ⟨16, 2, 3⟩ ++
    if left < 3 then List.replicate left ⟨length, 0, 0⟩ else [⟨16, 2, left - 3⟩]

/-- The items that write word lengths. -/
def lengthItems (lengths : List Nat) : List LengthItem :=
  (runs lengths).flatMap fun (length, n) =>
    if length = 0 then zeroItems n else repeatItems length n

/-- The bits that write the two codes of a block. -/
def codeBits (literals distances : List Nat) : List Bool :=
  let literals := trimZeros 257 literals
  let distances := trimZeros 1 distances
  let items := lengthItems (literals ++ distances)
  let short := CodeLengths.ofUses 7 (tally 19 (items.map LengthItem.symbol))
  let written := trimZeros 4 (Cursor.lengthOrder.map fun symbol => (short[symbol]?).getD 0)
  let words := CodeLengths.words short
  lowBits 5 (literals.length - 257) ++ lowBits 5 (distances.length - 1)
    ++ lowBits 4 (written.length - 4) ++ written.flatMap (lowBits 3)
    ++ items.flatMap fun item => wordOf words item.symbol ++ lowBits item.bits item.value

/-- Content of this length or more gets codes of its own. -/
def ownCodeLength : Nat := 48

/-- The bits of a block of content. -/
def blockBits (final : Bool) (b : Bytes) : List Bool :=
  let items := Repeats.items b
  if b.length < ownCodeLength then
    final :: lowBits 2 1 ++ contentBits Cursor.fixedLiterals Cursor.fixedDistances items
  else
    let literals := CodeLengths.ofUses 15 (tally 286 (literalSymbols items))
    let distances := CodeLengths.ofUses 15 (tally 30 (distanceSymbols items))
    final :: lowBits 2 2 ++ codeBits literals distances ++ contentBits literals distances items

/-- A stored block, from an octet boundary on. -/
def storedBlock (final : Bool) (b : Bytes) : Bytes :=
  UInt8.ofNat final.toNat :: Bytes.ofNatLE 2 b.length ++ Bytes.ofNatLE 2 (65535 - b.length) ++ b

/-- The octets of bits with which a block ends.  An empty stored block follows one
that is not the last, so that the next begins at an octet boundary. -/
def closed (final : Bool) (bits : List Bool) : Bytes :=
  if final then pack bits else pack (bits ++ false :: lowBits 2 0) ++ [0, 0, 255, 255]

/-- Content of up to this length is never stored: it is shorter as literals. -/
def literalLength : Nat := 32

/-- A block, stored if its bits would not take fewer octets than its content. -/
def block (final : Bool) (b : Bytes) : Bytes :=
  let bits := blockBits final b
  if literalLength < b.length ∧ b.length ≤ bits.length / 8 + 1 then storedBlock final b
  else closed final bits

def blocks : List Bytes → Bytes
  | [] => block true []
  | [b] => block true b
  | b :: c :: rest => block false b ++ blocks (c :: rest)

/-- The most content that is one block. -/
def blockLength : Nat := 31 * 1024

/-- The deflated form of content. -/
def deflate (b : Bytes) : Bytes := blocks (Bytes.chunks blockLength b)

/-- The header that announces nothing but the method. -/
def plainHeader : Bytes := [0x1f, 0x8b, 8, 0, 0, 0, 0, 0, 0, 255]

/-- The member of content and its deflated form. -/
def member (deflated b : Bytes) : Bytes :=
  plainHeader ++ deflated ++ Bytes.ofNatLE 4 (Crc32.checksum b).toNat ++ Bytes.ofNatLE 4 b.length

/-- The member of content. -/
def compress (b : Bytes) : Bytes := member (deflate b) b

end Telemetry.Gzip
