/-
Rounding as a function of the value.

`nearest` is given a quotient of naturals and works on numerator and denominator.
Its result depends on the quotient alone: it is `nearestTo` of it, a function on
rationals in which the exponent of the last place is a logarithm.  From that follow
the facts by which numerals are read back: scaling numerator and denominator changes
nothing (`nearestTo` does not see it), and the exact value of a finite magnitude rounds
to this magnitude (`nearestTo_value`).
-/
import Mathlib.Algebra.Order.Field.Power
import Mathlib.Algebra.Order.Floor.Semifield
import Mathlib.Data.Int.Log
import Mathlib.Data.Rat.Floor
import Mathlib.Tactic.FieldSimp
import Mathlib.Tactic.Linarith
import Mathlib.Tactic.NormNum
import Mathlib.Tactic.Positivity
import Mathlib.Tactic.Ring
import Telemetry.Binary64.Shortest

namespace Telemetry.Binary64

/-! ## To the nearest integer -/

/-- The integer nearest to a rational that is not negative, a half to the even neighbour. -/
def roundHalf (q : ℚ) : ℕ :=
  if q - ⌊q⌋₊ < 1 / 2 ∨ (q - ⌊q⌋₊ = 1 / 2 ∧ ⌊q⌋₊ % 2 = 0) then ⌊q⌋₊ else ⌊q⌋₊ + 1

theorem roundHalf_natCast (n : ℕ) : roundHalf n = n := by
  rw [roundHalf, Nat.floor_natCast, sub_self, if_pos (Or.inl (by norm_num))]

theorem roundHalf_le (q : ℚ) : roundHalf q ≤ ⌊q⌋₊ + 1 := by
  rw [roundHalf]
  split
  · exact Nat.le_succ _
  · exact le_rfl

theorem roundHalf_eq_zero {q : ℚ} (h : q < 1 / 2) : roundHalf q = 0 := by
  have hfloor : ⌊q⌋₊ = 0 := Nat.floor_eq_zero.mpr (by linarith)
  rw [roundHalf, hfloor, if_pos (Or.inl (by simpa using h))]

theorem roundDiv_eq (num : ℕ) {den : ℕ} (hden : 0 < den) :
    roundDiv num den = roundHalf (num / den) := by
  have hq : (0 : ℚ) < den := by exact_mod_cast hden
  have hrest : (num : ℚ) / den - (num / den : ℕ) = (num % den : ℕ) / den := by
    have hsplit : (num : ℚ) = den * (num / den : ℕ) + (num % den : ℕ) := by
      exact_mod_cast (Nat.div_add_mod num den).symm
    field_simp
    linarith
  have hbelow : (num : ℚ) / den - (num / den : ℕ) < 1 / 2 ↔ 2 * (num % den) < den := by
    rw [hrest, div_lt_div_iff₀ hq two_pos]
    constructor
    · intro h
      have : ((num % den * 2 : ℕ) : ℚ) < (den : ℕ) := by push_cast; linarith
      have := Nat.cast_lt.mp this
      omega
    · intro h
      have : ((2 * (num % den) : ℕ) : ℚ) < (den : ℕ) := Nat.cast_lt.mpr h
      push_cast at this
      linarith
  have hhalf : (num : ℚ) / den - (num / den : ℕ) = 1 / 2 ↔ 2 * (num % den) = den := by
    rw [hrest, div_eq_div_iff hq.ne' two_ne_zero]
    constructor
    · intro h
      have : ((num % den * 2 : ℕ) : ℚ) = (den : ℕ) := by push_cast; linarith
      have := Nat.cast_injective this
      omega
    · intro h
      have : ((2 * (num % den) : ℕ) : ℚ) = (den : ℕ) := congrArg _ h
      push_cast at this
      linarith
  simp only [roundDiv, roundHalf, Nat.floor_div_eq_div, hbelow, hhalf]

theorem roundScaled_eq (num : ℕ) {den : ℕ} (hden : 0 < den) (e : ℤ) :
    roundScaled num den e = roundHalf (num / den * 2 ^ e) := by
  rw [roundScaled]
  split
  · rename_i he
    obtain ⟨n, rfl⟩ := Int.eq_ofNat_of_zero_le he
    rw [roundDiv_eq _ hden, Int.toNat_natCast, Nat.shiftLeft_eq, zpow_natCast]
    push_cast
    rw [div_mul_eq_mul_div]
  · rename_i he
    obtain ⟨n, hn⟩ := Int.eq_ofNat_of_zero_le (by omega : 0 ≤ -e)
    obtain rfl : e = -(n : ℤ) := by omega
    rw [neg_neg, Int.toNat_natCast, Nat.shiftLeft_eq, roundDiv_eq _ (by positivity),
      zpow_neg, zpow_natCast]
    push_cast
    rw [← div_div, div_eq_mul_inv ((num : ℚ) / den)]

/-! ## The exponent of the last place -/

theorem reaches_iff (num : ℕ) {den : ℕ} (hden : 0 < den) (e : ℤ) :
    reaches num den e = true ↔ (2 : ℚ) ^ e ≤ num / den := by
  have hq : (0 : ℚ) < den := by exact_mod_cast hden
  rw [reaches]
  split
  · rename_i he
    obtain ⟨n, rfl⟩ := Int.eq_ofNat_of_zero_le he
    rw [decide_eq_true_eq, Int.toNat_natCast, Nat.shiftLeft_eq, zpow_natCast, le_div_iff₀ hq,
      ← Nat.cast_le (α := ℚ)]
    push_cast
    rw [mul_comm]
  · rename_i he
    obtain ⟨n, hn⟩ := Int.eq_ofNat_of_zero_le (by omega : 0 ≤ -e)
    obtain rfl : e = -(n : ℤ) := by omega
    rw [neg_neg, decide_eq_true_eq, Int.toNat_natCast, Nat.shiftLeft_eq, zpow_neg, zpow_natCast,
      le_div_iff₀ hq, inv_mul_le_iff₀ (by positivity), ← Nat.cast_le (α := ℚ)]
    push_cast
    rw [mul_comm]

theorem two_zpow_le_iff {r : ℚ} (hr : 0 < r) {e : ℤ} : (2 : ℚ) ^ e ≤ r ↔ e ≤ Int.log 2 r := by
  have h := Int.zpow_le_iff_le_log (b := 2) one_lt_two (x := e) hr
  rwa [Nat.cast_ofNat] at h

theorem lt_two_zpow_iff {r : ℚ} (hr : 0 < r) {e : ℤ} : r < (2 : ℚ) ^ e ↔ Int.log 2 r < e := by
  rw [← not_le, ← not_le, two_zpow_le_iff hr]

/-- A quotient lies between powers of two that the lengths of its parts tell. -/
theorem between_lengths {num den : ℕ} (hnum : 0 < num) (hden : 0 < den) :
    (2 : ℚ) ^ ((num.log2 : ℤ) - den.log2 - 1) ≤ num / den ∧
      (num / den : ℚ) < 2 ^ ((num.log2 : ℤ) - den.log2 + 1) := by
  have hq : (0 : ℚ) < den := by exact_mod_cast hden
  have hlow : (2 : ℚ) ^ num.log2 ≤ num := by exact_mod_cast Nat.log2_self_le hnum.ne'
  have hhigh : (num : ℚ) < 2 ^ (num.log2 + 1) := by exact_mod_cast Nat.lt_log2_self
  have hdenLow : (2 : ℚ) ^ den.log2 ≤ den := by exact_mod_cast Nat.log2_self_le hden.ne'
  have hdenHigh : (den : ℚ) < 2 ^ (den.log2 + 1) := by exact_mod_cast Nat.lt_log2_self
  constructor
  · rw [le_div_iff₀ hq]
    calc (2 : ℚ) ^ ((num.log2 : ℤ) - den.log2 - 1) * den
        ≤ 2 ^ ((num.log2 : ℤ) - den.log2 - 1) * 2 ^ (den.log2 + 1) :=
          mul_le_mul_of_nonneg_left hdenHigh.le (by positivity)
      _ = 2 ^ num.log2 := by
          rw [← zpow_natCast, ← zpow_natCast, ← zpow_add₀ two_ne_zero]
          congr 1
          push_cast
          ring
      _ ≤ num := hlow
  · rw [div_lt_iff₀ hq]
    calc (num : ℚ) < 2 ^ (num.log2 + 1) := hhigh
      _ = 2 ^ ((num.log2 : ℤ) - den.log2 + 1) * 2 ^ den.log2 := by
          rw [← zpow_natCast, ← zpow_natCast, ← zpow_add₀ two_ne_zero]
          congr 1
          push_cast
          ring
      _ ≤ 2 ^ ((num.log2 : ℤ) - den.log2 + 1) * den :=
          mul_le_mul_of_nonneg_left hdenLow (by positivity)

/-- The exponent of the last place of the magnitude nearest to a positive rational. -/
def lastPlaceOf (r : ℚ) : ℤ := max (-1074) (Int.log 2 r - 52)

theorem lastPlace_eq {num den : ℕ} (hnum : 0 < num) (hden : 0 < den) :
    lastPlace num den = lastPlaceOf (num / den) := by
  have hpos : (0 : ℚ) < num / den := div_pos (by exact_mod_cast hnum) (by exact_mod_cast hden)
  obtain ⟨hlow, hhigh⟩ := between_lengths hnum hden
  rw [lastPlace, lastPlaceOf]
  congr 1
  have hbelow := (two_zpow_le_iff hpos).mp hlow
  have habove := (lt_two_zpow_iff hpos).mp hhigh
  split
  · rename_i h
    have hreached := (two_zpow_le_iff hpos).mp ((reaches_iff num hden _).mp h)
    omega
  · rename_i h
    have hmissed := (lt_two_zpow_iff hpos).mp
      (not_le.mp fun hle => h ((reaches_iff num hden _).mpr hle))
    omega

/-! ## To the nearest magnitude -/

/-- The magnitude nearest to a rational that is not negative. -/
def nearestTo (r : ℚ) : ℕ :=
  if r = 0 then 0
  else (lastPlaceOf r + 1074).toNat * leastNormal + roundHalf (r * 2 ^ (-lastPlaceOf r))

/-- Rounding sees nothing but the quotient. -/
theorem nearest_eq (num : ℕ) {den : ℕ} (hden : 0 < den) :
    nearest num den = nearestTo (num / den) := by
  rw [nearest, nearestTo]
  rcases Nat.eq_zero_or_pos num with rfl | hnum
  · rw [if_pos rfl, Nat.cast_zero, zero_div, if_pos rfl]
  · have hne : (num / den : ℚ) ≠ 0 :=
      div_ne_zero (by exact_mod_cast hnum.ne') (by exact_mod_cast hden.ne')
    rw [if_neg hnum.ne', if_neg hne]
    simp only [lastPlace_eq hnum hden, roundScaled_eq num hden]

theorem nearestTo_of_lastPlaceOf {n : ℕ} {u : ℤ} (hn : 0 < n)
    (hu : lastPlaceOf (n * 2 ^ u) = u) :
    nearestTo (n * 2 ^ u) = (u + 1074).toNat * leastNormal + n := by
  have hne : (n * 2 ^ u : ℚ) ≠ 0 := mul_ne_zero (by exact_mod_cast hn.ne') (by positivity)
  have hscaled : (n * 2 ^ u * 2 ^ (-u) : ℚ) = n := by
    rw [mul_assoc, ← zpow_add₀ two_ne_zero, add_neg_cancel, zpow_zero, mul_one]
  rw [nearestTo, if_neg hne, hu, hscaled, roundHalf_natCast]

/-- The exact value of a magnitude. -/
def value (m : ℕ) : ℚ := significandOf m * 2 ^ exponentOf m

/-- The exact value of a magnitude is nearest to this magnitude. -/
theorem nearestTo_value {m : ℕ} (hm : 0 < m) : nearestTo (value m) = m := by
  rw [value]
  by_cases hsub : m < leastNormal
  · -- The exponent is the least one, and a smaller value has no smaller last place.
    have hsig : significandOf m = m := by rw [significandOf, if_pos hsub]
    have hexp : exponentOf m = -1074 := by
      rw [exponentOf, Nat.div_eq_of_lt hsub]
      decide
    have hpos : (0 : ℚ) < m * 2 ^ (-1074 : ℤ) :=
      mul_pos (by exact_mod_cast hm) (by positivity)
    have hlog : Int.log 2 (m * 2 ^ (-1074 : ℤ) : ℚ) < -1022 := by
      rw [← lt_two_zpow_iff hpos, show (-1022 : ℤ) = 52 + -1074 from rfl, zpow_add₀ two_ne_zero]
      refine mul_lt_mul_of_pos_right ?_ (by positivity)
      exact_mod_cast hsub
    rw [hsig, hexp, nearestTo_of_lastPlaceOf hm (by rw [lastPlaceOf]; omega)]
    simp
  · have hsig : significandOf m = leastNormal + m % leastNormal := by
      rw [significandOf, if_neg hsub]
    have hquot : 1 ≤ m / leastNormal := by
      rw [Nat.le_div_iff_mul_le (by decide), Nat.one_mul]
      exact Nat.not_lt.mp hsub
    have hrest : m % leastNormal < leastNormal := Nat.mod_lt _ (by decide)
    have hexp : exponentOf m = (m / leastNormal : ℕ) - 1075 := by
      rw [exponentOf, max_eq_left hquot]
    have hsum := Nat.div_add_mod m leastNormal
    generalize m / leastNormal = q at hquot hexp hsum
    generalize hn : leastNormal + m % leastNormal = n at hsig
    have hnpos : 0 < n := by
      have : 0 < leastNormal := by decide
      omega
    have hpos : (0 : ℚ) < n * 2 ^ ((q : ℤ) - 1075) :=
      mul_pos (by exact_mod_cast hnpos) (by positivity)
    have hlow : (q : ℤ) - 1075 + 52 ≤ Int.log 2 (n * 2 ^ ((q : ℤ) - 1075) : ℚ) := by
      rw [← two_zpow_le_iff hpos, add_comm, zpow_add₀ two_ne_zero]
      refine mul_le_mul_of_nonneg_right ?_ (by positivity)
      have : 2 ^ 52 ≤ n := by rw [← hn]; exact Nat.le_add_right _ _
      exact_mod_cast this
    have hhigh : Int.log 2 (n * 2 ^ ((q : ℤ) - 1075) : ℚ) < (q : ℤ) - 1075 + 53 := by
      rw [← lt_two_zpow_iff hpos, add_comm, zpow_add₀ two_ne_zero]
      refine mul_lt_mul_of_pos_right ?_ (by positivity)
      have : n < 2 ^ 53 := by
        rw [← hn]
        have : leastNormal + leastNormal = 2 ^ 53 := by decide
        omega
      exact_mod_cast this
    rw [hsig, hexp, nearestTo_of_lastPlaceOf hnpos (by rw [lastPlaceOf]; omega)]
    obtain ⟨k, rfl⟩ : ∃ k, q = k + 1 := ⟨q - 1, by omega⟩
    have hk : (((k + 1 : ℕ) : ℤ) - 1075 + 1074).toNat = k := by omega
    rw [hk, ← hn]
    have : leastNormal * (k + 1) = k * leastNormal + leastNormal := by ring
    omega

/-! ## How large what is rounded may be -/

theorem le_of_nearestTo_pos {r : ℚ} (hr : 0 < r) (hm : 0 < nearestTo r) :
    (2 : ℚ) ^ (-1075 : ℤ) ≤ r := by
  by_contra hlt
  rw [not_le] at hlt
  have hlog := (lt_two_zpow_iff hr).mp hlt
  have hplace : lastPlaceOf r = -1074 := by
    rw [lastPlaceOf]
    omega
  have hscaled : r * 2 ^ (-(-1074 : ℤ)) < 1 / 2 := by
    calc r * 2 ^ (-(-1074 : ℤ)) < 2 ^ (-1075 : ℤ) * 2 ^ (-(-1074 : ℤ)) :=
          mul_lt_mul_of_pos_right hlt (by positivity)
      _ = 1 / 2 := by
          rw [← zpow_add₀ two_ne_zero]
          norm_num
  rw [nearestTo, if_neg hr.ne', hplace, roundHalf_eq_zero hscaled] at hm
  exact absurd hm (by decide)

theorem lt_of_nearestTo_lt {r : ℚ} (hr : 0 < r) (hm : nearestTo r < infinityMagnitude) :
    r < (2 : ℚ) ^ (1026 : ℤ) := by
  rw [lt_two_zpow_iff hr]
  rw [nearestTo, if_neg hr.ne'] at hm
  have hplace : (lastPlaceOf r + 1074).toNat * leastNormal < 2047 * leastNormal :=
    Nat.lt_of_le_of_lt (Nat.le_add_right _ _) (Nat.lt_of_lt_of_le hm (by decide))
  have hbelow := Nat.lt_of_mul_lt_mul_right hplace
  rw [lastPlaceOf] at hbelow
  omega

theorem nearestTo_natCast_lt {n : ℕ} (hn : n < 2 ^ 64) : nearestTo n < infinityMagnitude := by
  rcases Nat.eq_zero_or_pos n with rfl | hpos
  · rw [nearestTo, Nat.cast_zero, if_pos rfl]
    decide
  · have hr : (0 : ℚ) < n := by exact_mod_cast hpos
    have hlog : Int.log 2 (n : ℚ) < 64 := by
      rw [← lt_two_zpow_iff hr]
      exact_mod_cast hn
    have hlog0 : 0 ≤ Int.log 2 (n : ℚ) := by
      rw [← two_zpow_le_iff hr, zpow_zero]
      exact_mod_cast hpos
    have hscaled : (n : ℚ) * 2 ^ (-lastPlaceOf n) < (2 ^ 53 : ℕ) := by
      have habove := (lt_two_zpow_iff hr).mpr (Int.lt_succ (Int.log 2 (n : ℚ)))
      have hplace : Int.log 2 (n : ℚ) - 52 ≤ lastPlaceOf n := le_max_right _ _
      calc (n : ℚ) * 2 ^ (-lastPlaceOf n)
          < 2 ^ (Int.log 2 (n : ℚ) + 1) * 2 ^ (-lastPlaceOf n) :=
            mul_lt_mul_of_pos_right habove (by positivity)
        _ = 2 ^ (Int.log 2 (n : ℚ) + 1 + -lastPlaceOf n) := (zpow_add₀ two_ne_zero _ _).symm
        _ ≤ 2 ^ (53 : ℤ) := zpow_le_zpow_right₀ one_le_two (by omega)
        _ = (2 ^ 53 : ℕ) := by norm_num
    have hfloor : ⌊(n : ℚ) * 2 ^ (-lastPlaceOf n)⌋₊ < 2 ^ 53 :=
      (Nat.floor_lt (by positivity)).mpr hscaled
    have hround := roundHalf_le ((n : ℚ) * 2 ^ (-lastPlaceOf n))
    have hplace : (lastPlaceOf (n : ℚ) + 1074).toNat ≤ 1085 := by
      rw [lastPlaceOf]
      omega
    have hsum := Nat.mul_le_mul_right leastNormal hplace
    have hbound : 1085 * leastNormal + 2 ^ 53 < infinityMagnitude := by decide
    rw [nearestTo, if_neg hr.ne']
    omega

end Telemetry.Binary64
