/-
Decimals with a fixed number of places.

The exact value is scaled by a power of ten and rounded once, a half to the
even neighbour.  A negative sign is kept even when all digits are zero.
-/
import Telemetry.Binary64.Basic
import Telemetry.Text.Integer

namespace Telemetry.Binary64

/-- The value times `10 ^ places`, rounded to the nearest integer. -/
def scaled (places : Nat) (x : Binary64) : Nat :=
  roundScaled (significandOf x.magnitude * Nat.pow 10 places) 1 (exponentOf x.magnitude)

def padLeft (width : Nat) (cs : List Char) : List Char :=
  List.replicate (width - cs.length) '0' ++ cs

/-- The decimal of a scaled integer: its last `places` digits follow the point. -/
def pointed (places n : Nat) : List Char :=
  let cs := padLeft (places + 1) (Integer.digits n)
  let whole := cs.length - places
  if places = 0 then cs else cs.take whole ++ '.' :: cs.drop whole

/-- The decimal of a number with `places` digits after the point. -/
def fixed (places : Nat) (x : Binary64) : String :=
  if x.isFinite then
    let cs := pointed places (x.scaled places)
    String.ofList (if x.isNegative then '-' :: cs else cs)
  else x.nonFiniteText

end Telemetry.Binary64
