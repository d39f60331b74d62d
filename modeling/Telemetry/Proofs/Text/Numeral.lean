/-
The characters of numerals.

A numeral of an integer, and a decimal with a fixed number of places, are made of digits, a
minus, a point, and the letters of what is not finite (`Numeral`).  So there are characters that
stand in none of them.  The numeral of an integer is read back as the integer.
-/
import Telemetry.Binary64.Fixed
import Telemetry.Proofs.Json.Number

namespace Telemetry

/-- A character that numerals may have. -/
def Numeral (c : Char) : Prop := c.isDigit = true ∨ c ∈ ['-', '.', 'N', 'a', 'i', 'n', 'f']

theorem numeral_of_mem_digits {n : Nat} {c : Char} (hc : c ∈ Integer.digits n) : Numeral c :=
  .inl (Integer.isDigit_of_mem_digits hc)

theorem not_numeral_colon : ¬Numeral ':' := by
  rintro (hdigit | hmem)
  · cases hdigit
  · exact absurd hmem (by decide)

namespace Integer

theorem numeral_of_mem_ofInt {n : Int} {c : Char} (hc : c ∈ (ofInt n).toList) : Numeral c := by
  rw [ofInt] at hc
  split at hc
  · rw [String.toList_ofList] at hc
    rcases List.mem_cons.mp hc with rfl | hdigit
    · exact .inr (by decide)
    · exact numeral_of_mem_digits hdigit
  · rw [String.toList_ofList] at hc
    exact numeral_of_mem_digits hc

theorem signed?_digits (n : Nat) : signed? (String.ofList (digits n)) = some (n : Int) := by
  have hsign : ∀ c rest, digits n = c :: rest → c.isDigit = true := by
    intro c rest h
    apply isDigit_of_mem_digits (n := n)
    rw [h]
    exact List.mem_cons_self
  rw [signed?, String.toList_ofList]
  split
  · rename_i rest h
    exact absurd (hsign '-' rest h) (by decide)
  · rename_i rest h
    exact absurd (hsign '+' rest h) (by decide)
  · rw [digits?_digits]
    rfl

theorem below?_ofNat {n bound : Nat} (h : n < bound) : below? bound (ofNat n) = some n := by
  have hunsigned : unsigned? (ofNat n) = some n := by
    rw [unsigned?, ofNat, String.toList_ofList]
    split
    · rename_i rest hplus
      have hdigit : '+'.isDigit = true := by
        apply isDigit_of_mem_digits (n := n)
        rw [hplus]
        exact List.mem_cons_self
      cases hdigit
    · exact digits?_digits n
  rw [below?, hunsigned, Option.filter_some, if_pos (decide_eq_true h)]

/-- The numeral of an integer is read as this integer. -/
@[simp] theorem signed?_ofInt (n : Int) : signed? (ofInt n) = some n := by
  rw [ofInt]
  split
  · rename_i hneg
    have hback : -(n.natAbs : Int) = n := by omega
    rw [signed?_minus, hback]
  · rename_i hpos
    have hback : (n.natAbs : Int) = n := by omega
    rw [signed?_digits, hback]

theorem ofInt_inj {m n : Int} : ofInt m = ofInt n ↔ m = n := by
  constructor
  · intro h
    have hread := congrArg signed? h
    rw [signed?_ofInt, signed?_ofInt] at hread
    exact Option.some.inj hread
  · rintro rfl
    rfl

theorem ofNat_inj {m n : Nat} : ofNat m = ofNat n ↔ m = n := by
  constructor
  · intro h
    have hread := congrArg signed? h
    rw [ofNat, ofNat, signed?_digits, signed?_digits] at hread
    exact Int.ofNat_inj.mp (Option.some.inj hread)
  · rintro rfl
    rfl

end Integer

namespace Binary64

theorem numeral_of_mem_pointed {places n : Nat} {c : Char} (hc : c ∈ pointed places n) :
    Numeral c := by
  have hpadded : ∀ width, c ∈ padLeft width (Integer.digits n) → Numeral c := by
    intro width hmem
    rw [padLeft] at hmem
    rcases List.mem_append.mp hmem with hzero | hdigit
    · obtain ⟨-, rfl⟩ := List.mem_replicate.mp hzero
      exact .inl rfl
    · exact numeral_of_mem_digits hdigit
  rw [pointed] at hc
  split at hc
  · exact hpadded _ hc
  · rcases List.mem_append.mp hc with hwhole | hrest
    · exact hpadded _ (List.mem_of_mem_take hwhole)
    · rcases List.mem_cons.mp hrest with rfl | hplaces
      · exact .inr (by decide)
      · exact hpadded _ (List.mem_of_mem_drop hplaces)

theorem numeral_of_mem_nonFiniteText {x : Binary64} {c : Char}
    (hc : c ∈ x.nonFiniteText.toList) : Numeral c := by
  have hall : ∀ s ∈ ["NaN", "-inf", "inf"],
      (s.toList.all fun c => ['-', '.', 'N', 'a', 'i', 'n', 'f'].contains c) = true := by decide
  have hmem : x.nonFiniteText ∈ ["NaN", "-inf", "inf"] := by
    rw [nonFiniteText]
    split
    · decide
    · split <;> decide
  exact .inr (List.contains_iff_mem.mp (List.all_eq_true.mp (hall _ hmem) c hc))

theorem numeral_of_mem_fixed {places : Nat} {x : Binary64} {c : Char}
    (hc : c ∈ (x.fixed places).toList) : Numeral c := by
  rw [fixed] at hc
  split at hc
  · rw [String.toList_ofList] at hc
    split at hc
    · rcases List.mem_cons.mp hc with rfl | hmem
      · exact .inr (by decide)
      · exact numeral_of_mem_pointed hmem
    · exact numeral_of_mem_pointed hc
  · exact numeral_of_mem_nonFiniteText hc

end Binary64

end Telemetry
