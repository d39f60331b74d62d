/-
Double-precision numbers as bit patterns.

A number is its 64 bits: a sign and a magnitude.  Nothing here computes with
hardware floats; a magnitude is decoded into `significand * 2 ^ exponent` and a
quotient of natural numbers is rounded to the nearest magnitude in exact
arithmetic, so that every statement about these numbers is a statement about
naturals.
-/
namespace Telemetry

/-- An IEEE 754 binary64 number, as its bit pattern. -/
structure Binary64 where
  /-- The 64 bits, sign first. -/
  bits : UInt64
deriving DecidableEq, Repr, Inhabited

namespace Binary64

/-- The magnitude of infinity; every larger magnitude is not a number. -/
def infinityMagnitude : Nat := 0x7FF0000000000000

def signBit : Nat := 0x8000000000000000

def magnitude (x : Binary64) : Nat := x.bits.toNat % signBit

def isNegative (x : Binary64) : Bool := signBit ≤ x.bits.toNat

/-- The number of a sign and a magnitude below the sign bit. -/
def ofMagnitude (negative : Bool) (magnitude : Nat) : Binary64 :=
  ⟨UInt64.ofNat (if negative then signBit + magnitude else magnitude)⟩

/-- Neither infinite nor undefined. -/
def isFinite (x : Binary64) : Bool := x.magnitude < infinityMagnitude

/-- Not a number. -/
def isNaN (x : Binary64) : Bool := infinityMagnitude < x.magnitude

def zero : Binary64 := ⟨0⟩

/-- The least magnitude whose significand has its full length. -/
def leastNormal : Nat := 0x10000000000000

/-- The integer part of the exact value: a finite number is
`significand * 2 ^ exponent`, up to its sign. -/
def significandOf (magnitude : Nat) : Nat :=
  if magnitude < leastNormal then magnitude else leastNormal + magnitude % leastNormal

/-- The binary exponent that goes with `significandOf`. -/
def exponentOf (magnitude : Nat) : Int := ((max (magnitude / leastNormal) 1 : Nat) : Int) - 1075

/-- The quotient rounded to the nearest integer, a half to the even neighbour. -/
def roundDiv (num den : Nat) : Nat :=
  let q := num / den
  let r := num % den
  if 2 * r < den ∨ (2 * r = den ∧ q % 2 = 0) then q else q + 1

/-- The quotient `num * 2 ^ e / den` rounded to the nearest integer. -/
def roundScaled (num den : Nat) (e : Int) : Nat :=
  if 0 ≤ e then roundDiv (num <<< e.toNat) den else roundDiv num (den <<< (-e).toNat)

/-- Whether `den * 2 ^ e ≤ num`. -/
def reaches (num den : Nat) (e : Int) : Bool :=
  if 0 ≤ e then den <<< e.toNat ≤ num else den ≤ num <<< (-e).toNat

/-- The exponent of the last place of the magnitude nearest to `num / den`:
53 bits are kept, fewer below the least normal number. -/
def lastPlace (num den : Nat) : Int :=
  let e : Int := (num.log2 : Int) - den.log2
  max (-1074) (if reaches num den e then e - 52 else e - 53)

/-- The magnitude nearest to `num / den`, a half to the even neighbour.  A
result of at least `infinityMagnitude` says that the quotient is out of range.
Rounding up to a power of two carries into the exponent by itself. -/
def nearest (num den : Nat) : Nat :=
  if num = 0 then 0
  else
    let u := lastPlace num den
    (u + 1074).toNat * leastNormal + roundScaled num den (-u)

/-- The double nearest to a natural number. -/
def ofNat (n : Nat) : Binary64 := ofMagnitude false (nearest n 1)

/-- How far a decimal may lie from one before it is out of range either way. -/
def decimalReach : Int := 400

/-- The number nearest to `digits * 10 ^ e`, with a sign; `none` when it is too
large.  A value far outside the range is settled by its length alone. -/
def ofDecimal? (negative : Bool) (digits : Nat) (e : Int) : Option Binary64 :=
  let length : Int := (digits.log2 : Int) * 30103 / 100000 + e
  let magnitude :=
    if digits = 0 ∨ length < -decimalReach then 0
    else if decimalReach < length then infinityMagnitude
    else if 0 ≤ e then nearest (digits * Nat.pow 10 e.toNat) 1
    else nearest digits (Nat.pow 10 (-e).toNat)
  if magnitude < infinityMagnitude then some (ofMagnitude negative magnitude) else none

/-- The text of the numbers that no digits write. -/
def nonFiniteText (x : Binary64) : String :=
  if x.isNaN then "NaN" else if x.isNegative then "-inf" else "inf"

end Binary64

end Telemetry
