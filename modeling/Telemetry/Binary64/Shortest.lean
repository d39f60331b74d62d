/-
The fewest digits that read back.

For a finite magnitude the grids of `d * 10 ^ e` are tried from coarse to fine.
On each grid only the two neighbours of the exact value can be nearest; the
first grid on which one of them rounds back to the magnitude is taken, and of
two that do the nearer one, a tie going to the even digit.  Reading back is
tested by `nearest` itself, so the result reads back by construction; were no
grid to succeed, the exact digits would be written.
-/
import Telemetry.Binary64.Basic

namespace Telemetry.Binary64

/-- A positive decimal `digits * 10 ^ exponent`. -/
structure Decimal where
  /-- The digits as one number. -/
  digits : Nat
  /-- The power of ten they are multiplied by. -/
  exponent : Int
deriving DecidableEq, Repr

/-- The magnitude nearest to a decimal. -/
def Decimal.nearest (d : Decimal) : Nat :=
  if 0 ≤ d.exponent then Binary64.nearest (d.digits * Nat.pow 10 d.exponent.toNat) 1
  else Binary64.nearest d.digits (Nat.pow 10 (-d.exponent).toNat)

/-- The exact value of a magnitude as a quotient of naturals. -/
def ratio (magnitude : Nat) : Nat × Nat :=
  let q := exponentOf magnitude
  if 0 ≤ q then (significandOf magnitude <<< q.toNat, 1)
  else (significandOf magnitude, 1 <<< (-q).toNat)

/-- The decimal that reads back on the grid of `10 ^ e`, if a neighbour of the
value does. -/
def onGrid? (magnitude : Nat) (e : Int) : Option Decimal :=
  let (num, den) := ratio magnitude
  let (num, den) := if 0 ≤ e then (num, den * Nat.pow 10 e.toNat)
    else (num * Nat.pow 10 (-e).toNat, den)
  let low := num / den
  let twice := 2 * (num % den)
  let below : Decimal := ⟨low, e⟩
  let above : Decimal := ⟨low + 1, e⟩
  match decide (below.nearest = magnitude), decide (above.nearest = magnitude) with
  | true, false => some below
  | false, true => some above
  | true, true => some (if twice < den ∨ (twice = den ∧ low % 2 = 0) then below else above)
  | false, false => none

/-- The exact value of a magnitude as a decimal. -/
def exact (magnitude : Nat) : Decimal :=
  let q := exponentOf magnitude
  if 0 ≤ q then ⟨significandOf magnitude <<< q.toNat, 0⟩
  else ⟨significandOf magnitude * Nat.pow 5 (-q).toNat, q⟩

/-- An exponent of ten that the value does not reach. -/
def topExponent (magnitude : Nat) : Int :=
  (((significandOf magnitude).log2 : Int) + exponentOf magnitude) * 30103 / 100000 + 1

/-- Tries `fuel` grids, the coarsest first. -/
def search (magnitude : Nat) : Nat → Int → Decimal
  | 0, _ => exact magnitude
  | fuel + 1, e => (onGrid? magnitude e).getD (search magnitude fuel (e - 1))

/-- Moves the zeros at the end of the digits into the exponent. -/
def Decimal.strip (d : Decimal) : Decimal :=
  if h : d.digits = 0 ∨ d.digits % 10 ≠ 0 then d
  else Decimal.strip ⟨d.digits / 10, d.exponent + 1⟩
termination_by d.digits
decreasing_by simp only [not_or, Decidable.not_not] at h; omega

/-- The shortest decimal that reads back as a positive finite magnitude. -/
def shortest (magnitude : Nat) : Decimal :=
  (search magnitude 19 (topExponent magnitude)).strip

end Telemetry.Binary64
