/-
Signed 64-bit values as the integers they stand for.

The operations of `Int64` wrap around.  Where the exact result is in range it is
the result, and only such operations are spoken of here; `Integer.InRange` is
the range that `Integer.toInt64?` checks.
-/
import Telemetry.Text.Integer

namespace Telemetry.Integer

def InRange (n : Int) : Prop := Int64.minValue.toInt ≤ n ∧ n ≤ Int64.maxValue.toInt

instance (n : Int) : Decidable (InRange n) := inferInstanceAs (Decidable (_ ∧ _))

theorem inRange_toInt (d : Int64) : InRange d.toInt := ⟨d.minValue_le_toInt, d.toInt_le⟩

theorem inRange_iff {n : Int} :
    InRange n ↔ -9223372036854775808 ≤ n ∧ n ≤ 9223372036854775807 := Iff.rfl

theorem bmod_of_inRange {n : Int} (h : InRange n) : n.bmod 18446744073709551616 = n := by
  obtain ⟨hlow, hhigh⟩ := inRange_iff.mp h
  exact Int.bmod_eq_of_le (by omega) (by omega)

theorem toInt_add {a b : Int64} (h : InRange (a.toInt + b.toInt)) :
    (a + b).toInt = a.toInt + b.toInt :=
  (Int64.toInt_add a b).trans (bmod_of_inRange h)

theorem toInt_sub {a b : Int64} (h : InRange (a.toInt - b.toInt)) :
    (a - b).toInt = a.toInt - b.toInt :=
  (Int64.toInt_sub a b).trans (bmod_of_inRange h)

theorem toInt_neg {a : Int64} (h : a ≠ Int64.minValue) : (-a).toInt = -a.toInt := by
  have hne : a.toInt ≠ Int64.minValue.toInt := fun e => h (Int64.toInt.inj e)
  have hr := inRange_iff.mp (inRange_toInt a)
  have hmin : Int64.minValue.toInt = -9223372036854775808 := rfl
  rw [Int64.toInt_neg]
  exact bmod_of_inRange (inRange_iff.mpr (by omega))

theorem toInt64?_eq_some_iff {n : Int} {d : Int64} : toInt64? n = some d ↔ d.toInt = n := by
  constructor
  · intro h
    rw [toInt64?] at h
    split at h
    · rename_i hr
      obtain ⟨hlow, hhigh⟩ := inRange_iff.mp hr
      cases h
      exact Int64.toInt_ofInt_of_le (by omega) (by omega)
    · cases h
  · rintro rfl
    exact toInt64?_toInt d

theorem toInt64?_eq_none_iff {n : Int} : toInt64? n = none ↔ ¬ InRange n := by
  rw [toInt64?]
  split
  · rename_i h
    exact ⟨fun hsome => absurd hsome (by simp), fun hn => absurd h hn⟩
  · rename_i h
    exact ⟨fun _ => h, fun _ => rfl⟩

end Telemetry.Integer
