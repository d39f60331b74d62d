/-
Labelled counters.

A counter is found under its labels whatever their order, so labels are kept
sorted.  Amounts are added modulo `2 ^ 64`.  `snapshot` lists every counter that
was ever used in the order of its labels.
-/
import Std.Data.ExtTreeMap
import Telemetry.Text.Integer

namespace Telemetry

abbrev Label := String × String

namespace Label

def order : Label → Label → Ordering := compareLex (compareOn Prod.fst) (compareOn Prod.snd)

instance : Std.TransCmp order := inferInstanceAs (Std.TransCmp (compareLex _ _))

instance : Std.LawfulEqCmp order where
  eq_of_compare h := by
    simp only [order, compareLex_eq_eq] at h
    exact Prod.ext (Std.LawfulEqCmp.eq_of_compare h.1) (Std.LawfulEqCmp.eq_of_compare h.2)

def sort (labels : List Label) : List Label := labels.mergeSort fun a b => (order a b).isLE

end Label

/-- Counters under sorted labels. -/
structure Counters where
  entries : Std.ExtTreeMap (List Label) UInt64 (List.compareLex Label.order)

namespace Counters

def empty : Counters := ⟨∅⟩

instance : Inhabited Counters := ⟨empty⟩

/-- The value under labels; a counter that was never used is zero. -/
def get (c : Counters) (labels : List Label) : UInt64 := (c.entries[Label.sort labels]?).getD 0

/-- Adds an amount under labels. -/
def add (c : Counters) (labels : List Label) (n : UInt64) : Counters :=
  ⟨c.entries.insert (Label.sort labels) (c.get labels + n)⟩

def inc (c : Counters) (labels : List Label) : Counters := c.add labels 1

/-- Every counter with its value, in the order of labels. -/
def snapshot (c : Counters) : List (List Label × UInt64) := c.entries.toList

end Counters

end Telemetry
