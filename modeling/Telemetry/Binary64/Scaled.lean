/-
Decimals by one product or quotient.

The digits of a decimal are rounded to a magnitude first, and this is multiplied
with or divided by a power of ten, which is rounded as well.  Where none of it
has to be rounded before the last step, the result is the magnitude nearest to
the decimal; elsewhere it may be a neighbour of it.  This is how the numbers of
JSON are read.  Numerals in paths are not read so, but rounded once.
-/
import Telemetry.Binary64.Shortest

namespace Telemetry.Binary64

/-- The product of two finite magnitudes, rounded. -/
def product (a b : Nat) : Nat := nearest ((ratio a).1 * (ratio b).1) ((ratio a).2 * (ratio b).2)

/-- The quotient of two finite magnitudes, of which the second is not zero, rounded. -/
def quotient (a b : Nat) : Nat := nearest ((ratio a).1 * (ratio b).2) ((ratio a).2 * (ratio b).1)

/-- The greatest exponent of ten that is in range. -/
def greatestTen : Nat := 308

/-- The magnitude nearest to a power of ten. -/
def ten (k : Nat) : Nat := nearest (Nat.pow 10 k) 1

/-- A magnitude divided by `10 ^ k`.  A power that is out of range takes more than
one step, as long as there is something left to divide. -/
def lowered : Nat → Nat → Nat → Nat
  | 0, m, k => quotient m (ten k)
  | steps + 1, m, k =>
    if m = 0 then 0 else lowered steps (quotient m (ten greatestTen)) (k - greatestTen)

/-- A magnitude multiplied with `10 ^ e`; the result is at least
`infinityMagnitude` when it is out of range. -/
def timesTen (m : Nat) (e : Int) : Nat :=
  if e < 0 then lowered (((-e).toNat - 1) / greatestTen) m (-e).toNat
  else if e ≤ greatestTen then product m (ten e.toNat)
  else if m = 0 then 0
  else infinityMagnitude

end Telemetry.Binary64
