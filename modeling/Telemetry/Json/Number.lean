/-
Numbers as JSON writes them.

A number is kept as it stands in the text: its sign, its digits on both sides
of the point and its exponent.  Which numeric type it is meant for is decided
by the reader of a field: an integer has neither point nor exponent, and the
integer reading refuses a negative zero.

A double is read in two roundings.  The digits are taken into an integer of 64
bits as long as they fit (`gather`); those before the point that do not fit move
it, and those behind it are dropped.  The integer is rounded, and scaled by the
power of ten that is left.  So a number with many digits may be read as a
neighbour of the nearest double, and one that only just rounds to the greatest
double may be refused.
-/
import Telemetry.Bytes
import Telemetry.Text.Integer
import Telemetry.Binary64.Numeral
import Telemetry.Binary64.Scaled

namespace Telemetry.Json

/-- A number in its written form. -/
structure Number where
  /-- Whether a minus stands before the digits. -/
  negative : Bool
  /-- The digits before the point: a lone zero, or digits that start with none. -/
  whole : List Char
  /-- The digits after the point, empty when there is no point. -/
  places : List Char
  /-- The exponent, if one is written. -/
  exponent : Option Int
deriving DecidableEq, Repr

namespace Number

/-- A lone zero or digits that do not start with zero. -/
def isWhole : List Char → Bool
  | [] => false
  | ['0'] => true
  | c :: rest => c ≠ '0' && (c :: rest).all Char.isDigit

/-- The digits after the point, if there is a point, and what follows them. -/
def places? : List Char → Option (List Char × List Char)
  | '.' :: rest =>
    if (rest.takeWhile Char.isDigit).isEmpty then none
    else some (rest.takeWhile Char.isDigit, rest.dropWhile Char.isDigit)
  | cs => some ([], cs)

/-- The exponent that makes up the rest of a number. -/
def exponent? : List Char → Option (Option Int)
  | [] => some none
  | c :: rest =>
    if c = 'e' ∨ c = 'E' then (Integer.signed? (String.ofList rest)).map some else none

/-- The number without its sign. -/
def unsigned? (negative : Bool) (cs : List Char) : Option Number :=
  let whole := cs.takeWhile Char.isDigit
  if isWhole whole then
    (places? (cs.dropWhile Char.isDigit)).bind fun (places, rest) =>
      (exponent? rest).map fun e => ⟨negative, whole, places, e⟩
  else none

/-- The number a text writes. -/
def ofChars? : List Char → Option Number
  | '-' :: rest => unsigned? true rest
  | cs => unsigned? false cs

/-- The value of the digits on both sides of the point, as one integer. -/
def digits (n : Number) : Nat := Binary64.digitsValue (n.whole ++ n.places)

/-- The signed 64-bit integer a number writes: no point, no exponent, no negative
zero, and in range. -/
def int64? (n : Number) : Option Int64 :=
  if n.places = [] ∧ n.exponent = none ∧ ¬(n.negative = true ∧ n.digits = 0) then
    Integer.toInt64? (if n.negative then -(n.digits : Int) else n.digits)
  else none

/-- Takes digits into an integer until the next one would not fit into 64 bits, and
says which are left. -/
def gather : Nat → List Char → Nat × List Char
  | n, [] => (n, [])
  | n, c :: rest =>
    let more := 10 * n + (c.toNat - '0'.toNat)
    if more < UInt64.size then gather more rest else (n, c :: rest)

/-- The integer that the digits of a number are taken into, and the exponent of
ten that the point leaves to it. -/
def significand (n : Number) : Nat × Int :=
  let (whole, uncounted) := gather 0 n.whole
  let (all, dropped) := gather whole n.places
  (all, uncounted.length - (n.places.length - dropped.length : Nat))

/-- The greatest exponent that is looked at. -/
def greatestExponent : Nat := 2147483647

/-- The magnitude that a number is read as, of at least `infinityMagnitude` when
it is out of range. -/
def magnitude (n : Number) : Nat :=
  let (digits, e) := n.significand
  let written := n.exponent.getD 0
  if greatestExponent < written.natAbs then
    if digits = 0 ∨ written < 0 then 0 else Binary64.infinityMagnitude
  else Binary64.timesTen (Binary64.nearest digits 1) (e + written)

/-- The double that a number is read as; `none` when the number is out of range. -/
def binary64? (n : Number) : Option Binary64 :=
  if n.magnitude < Binary64.infinityMagnitude then some (.ofMagnitude n.negative n.magnitude)
  else none

end Number

/-- Where a number is written with a point among its digits, and where with an
exponent. -/
structure Layout where
  /-- The least exponent of the first digit that is still written positionally. -/
  low : Int
  /-- The greatest such exponent. -/
  high : Int
deriving DecidableEq, Repr

/-- Numbers from `1e-5` below `1e16` are written positionally. -/
def layout : Layout := ⟨-5, 15⟩

/-- The digits of a number around a point, a zero standing on either side that
has none. -/
def positional (negative : Bool) (cs : List Char) (e : Int) : Number :=
  if e < 0 then ⟨negative, ['0'], List.replicate (-e - 1).toNat '0' ++ cs, none⟩
  else
    let whole := e.toNat + 1
    if cs.length ≤ whole then
      ⟨negative, cs ++ List.replicate (whole - cs.length) '0', ['0'], none⟩
    else ⟨negative, cs.take whole, cs.drop whole, none⟩

/-- The digits of a number with the point after the first, and an exponent. -/
def scientific (negative : Bool) (cs : List Char) (e : Int) : Number :=
  ⟨negative, cs.take 1, cs.drop 1, some e⟩

namespace Number

/-- The number that writes a positive finite magnitude with the fewest digits
that read back. -/
def ofMagnitude (negative : Bool) (magnitude : Nat) : Number :=
  let d := Binary64.shortest magnitude
  let cs := Integer.digits d.digits
  let e := d.exponent + (cs.length - 1 : Nat)
  if layout.low ≤ e ∧ e ≤ layout.high then positional negative cs e
  else scientific negative cs e

/-- The number that writes a double; none writes one that is not finite. -/
def ofBinary64? (x : Binary64) : Option Number :=
  if x.isFinite then
    some (if x.magnitude = 0 then ⟨x.isNegative, ['0'], ['0'], none⟩
          else ofMagnitude x.isNegative x.magnitude)
  else none

def ofInt (n : Int) : Number := ⟨decide (n < 0), Integer.digits n.natAbs, [], none⟩

/-- The exponent part: a mark, a sign, which is always there, and digits. -/
def exponentChars : Option Int → List Char
  | none => []
  | some e => 'e' :: (if e < 0 then '-' else '+') :: Integer.digits e.natAbs

/-- The characters of a number. -/
def chars (n : Number) : List Char :=
  (if n.negative then ['-'] else []) ++ n.whole
    ++ (if n.places = [] then [] else '.' :: n.places) ++ exponentChars n.exponent

end Number

end Telemetry.Json
