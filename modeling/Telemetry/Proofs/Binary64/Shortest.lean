/-
The shortest digits read back.

A decimal is judged by its value alone, so moving zeros into the exponent changes
nothing, and each decimal that the search yields rounds to the magnitude it was made
for: on a grid because the search tests just that, at last because exact digits do.
Reading settles very large and very small decimals by their length; a decimal whose
nearest magnitude is finite and not zero is neither (`ofDecimal?_of_nearestTo`).
-/
import Telemetry.Proofs.Binary64.Rounding

namespace Telemetry.Binary64

/-! ## Decimals by their value -/

def Decimal.value (d : Decimal) : ℚ := d.digits * 10 ^ d.exponent

theorem Decimal.nearest_eq (d : Decimal) : d.nearest = nearestTo d.value := by
  rw [Decimal.nearest, Decimal.value]
  split
  · rename_i he
    obtain ⟨n, hn⟩ := Int.eq_ofNat_of_zero_le he
    rw [hn, Binary64.nearest_eq _ one_pos, zpow_natCast]
    simp
  · rename_i he
    obtain ⟨n, hn⟩ := Int.eq_ofNat_of_zero_le (by omega : 0 ≤ -d.exponent)
    obtain hexp : d.exponent = -(n : ℤ) := by omega
    have hden : 0 < Nat.pow 10 n := Nat.pow_pos (by decide)
    rw [hexp, neg_neg, Int.toNat_natCast, Binary64.nearest_eq _ hden, zpow_neg, zpow_natCast]
    simp [div_eq_mul_inv]

theorem exact_value (m : ℕ) : (exact m).value = value m := by
  simp only [exact, Decimal.value, value]
  split
  · rename_i hq
    obtain ⟨n, hn⟩ := Int.eq_ofNat_of_zero_le hq
    rw [hn, Nat.shiftLeft_eq]
    simp
  · rename_i hq
    obtain ⟨n, hn⟩ := Int.eq_ofNat_of_zero_le (by omega : 0 ≤ -exponentOf m)
    obtain hexp : exponentOf m = -(n : ℤ) := by omega
    rw [hexp, neg_neg]
    have hten : (10 : ℚ) ^ n = 5 ^ n * 2 ^ n := by rw [← mul_pow]; norm_num
    simp only [Nat.pow_eq, zpow_neg, zpow_natCast, hten, Int.toNat_natCast]
    push_cast
    field_simp

theorem strip_value (d : Decimal) : d.strip.value = d.value := by
  fun_induction Decimal.strip d with
  | case1 d h => rfl
  | case2 d h ih =>
      rw [ih, Decimal.value, Decimal.value]
      simp only [not_or, Decidable.not_not] at h
      have hdigits : (d.digits : ℚ) = (d.digits / 10 : ℕ) * 10 := by
        exact_mod_cast (Nat.div_mul_cancel (Nat.dvd_of_mod_eq_zero h.2)).symm
      rw [hdigits, zpow_add₀ (by norm_num), zpow_one]
      ring

theorem strip_exponent_le (d : Decimal) : d.exponent ≤ d.strip.exponent := by
  fun_induction Decimal.strip d with
  | case1 d h => exact le_rfl
  | case2 d h ih => exact le_trans (Int.le_add_one le_rfl) ih

/-! ## What the search yields -/

theorem onGrid?_spec {m : ℕ} {e : ℤ} {d : Decimal} (h : onGrid? m e = some d) :
    d.nearest = m ∧ d.exponent = e := by
  have heither (c : Prop) [Decidable c] {x y : Decimal} (hx : x.nearest = m ∧ x.exponent = e)
      (hy : y.nearest = m ∧ y.exponent = e) :
      (if c then x else y).nearest = m ∧ (if c then x else y).exponent = e := by
    split
    · exact hx
    · exact hy
  simp only [onGrid?] at h
  split at h
  · rename_i hbelow _
    cases h
    exact ⟨of_decide_eq_true hbelow, rfl⟩
  · rename_i _ habove
    cases h
    exact ⟨of_decide_eq_true habove, rfl⟩
  · rename_i hbelow habove
    cases h
    exact heither _ ⟨of_decide_eq_true hbelow, rfl⟩ ⟨of_decide_eq_true habove, rfl⟩
  · exact nomatch h

theorem neg_1074_le_exponentOf (m : ℕ) : -1074 ≤ exponentOf m := by
  rw [exponentOf]
  omega

/-- Whatever grid the search ends on, its decimal rounds back. -/
theorem search_nearest {m : ℕ} (hm : 0 < m) (fuel : ℕ) (e : ℤ) :
    (search m fuel e).nearest = m := by
  induction fuel generalizing e with
  | zero => rw [search, Decimal.nearest_eq, exact_value, nearestTo_value hm]
  | succ fuel ih =>
      rw [search]
      cases hgrid : onGrid? m e with
      | some d => exact (onGrid?_spec hgrid).1
      | none => exact ih (e - 1)

theorem search_exponent {m fuel : ℕ} {e : ℤ} (he : -1074 ≤ e - fuel) :
    -1074 ≤ (search m fuel e).exponent := by
  induction fuel generalizing e with
  | zero =>
      simp only [search, exact]
      split
      · exact (by decide : (-1074 : ℤ) ≤ 0)
      · exact neg_1074_le_exponentOf m
  | succ fuel ih =>
      rw [search]
      cases hgrid : onGrid? m e with
      | some d =>
          have hexp := (onGrid?_spec hgrid).2
          rw [Option.getD_some, hexp]
          omega
      | none => exact ih (by push_cast at he; omega)

/-- The shortest digits round back. -/
theorem shortest_value {m : ℕ} (hm : 0 < m) : nearestTo (shortest m).value = m := by
  rw [shortest, strip_value, ← Decimal.nearest_eq, search_nearest hm]

theorem shortest_exponent (m : ℕ) : -1074 ≤ (shortest m).exponent := by
  refine le_trans (search_exponent ?_) (strip_exponent_le _)
  have hexp := neg_1074_le_exponentOf m
  rw [topExponent]
  omega

theorem shortest_digits_pos {m : ℕ} (hm : 0 < m) : 0 < (shortest m).digits := by
  rw [Nat.pos_iff_ne_zero]
  intro hzero
  have hvalue := shortest_value hm
  rw [Decimal.value, hzero, Nat.cast_zero, zero_mul, nearestTo, if_pos rfl] at hvalue
  omega

/-! ## Reading decimals -/

/-- The length of a decimal, in places before the point, as reading estimates it. -/
def estimatedLength (digits : ℕ) (e : ℤ) : ℤ := (digits.log2 : ℤ) * 30103 / 100000 + e

/-- Between bounds for finite values, a decimal without very many places is neither too
long nor too short to be looked at.  Powers of ten are compared with powers of two:
`2 ^ 3 ≤ 10`, and, where the exponent is negative and its multiple nearly cancels with the
length of the digits, the closer `10 ^ 3 ≤ 2 ^ 10` and `2 ^ 29 ≤ 10 ^ 9`. -/
theorem estimatedLength_bounds {digits : ℕ} {e : ℤ} (hdigits : 0 < digits) (he : -1074 ≤ e)
    (hlow : (2 : ℚ) ^ (-1075 : ℤ) ≤ digits * 10 ^ e)
    (hhigh : (digits * 10 ^ e : ℚ) < 2 ^ (1026 : ℤ)) :
    -decimalReach ≤ estimatedLength digits e ∧ estimatedLength digits e ≤ decimalReach := by
  have hlog : 2 ^ digits.log2 ≤ digits := Nat.log2_self_le hdigits.ne'
  have hlog' : digits < 2 ^ (digits.log2 + 1) := Nat.lt_log2_self
  rw [estimatedLength, decimalReach]
  rcases Int.le_total 0 e with hsign | hsign
  · obtain ⟨n, rfl⟩ := Int.eq_ofNat_of_zero_le hsign
    have hbound : digits * 10 ^ n < 2 ^ 1026 := by
      rw [zpow_natCast] at hhigh
      exact_mod_cast hhigh
    have hpow : 2 ^ (digits.log2 + 3 * n) < 2 ^ 1026 := by
      calc 2 ^ (digits.log2 + 3 * n) = 2 ^ digits.log2 * 8 ^ n := by rw [pow_add, pow_mul]; norm_num
        _ ≤ digits * 10 ^ n := Nat.mul_le_mul hlog (Nat.pow_le_pow_left (by decide) n)
        _ < 2 ^ 1026 := hbound
    have := (Nat.pow_lt_pow_iff_right (by decide)).mp hpow
    omega
  · obtain ⟨n, hn⟩ := Int.eq_ofNat_of_zero_le (by omega : 0 ≤ -e)
    obtain rfl : e = -(n : ℤ) := by omega
    have hten : (0 : ℚ) < 10 ^ n := by positivity
    have hbelow : digits < 2 ^ 1026 * 10 ^ n := by
      rw [zpow_neg, zpow_natCast, ← div_eq_mul_inv, div_lt_iff₀ hten] at hhigh
      exact_mod_cast hhigh
    have habove : 10 ^ n ≤ digits * 2 ^ 1075 := by
      rw [zpow_neg, zpow_neg, zpow_natCast, ← div_eq_mul_inv, le_div_iff₀ hten,
        inv_mul_le_iff₀ (by positivity), mul_comm] at hlow
      exact_mod_cast hlow
    have hcube : 2 ^ (3 * digits.log2) < 2 ^ (3078 + 10 * n) := by
      calc 2 ^ (3 * digits.log2) = (2 ^ digits.log2) ^ 3 := by rw [← pow_mul, mul_comm]
        _ ≤ digits ^ 3 := Nat.pow_le_pow_left hlog 3
        _ < (2 ^ 1026 * 10 ^ n) ^ 3 := Nat.pow_lt_pow_left hbelow (by decide)
        _ = 2 ^ 3078 * 1000 ^ n := by
            rw [mul_pow, ← pow_mul, ← pow_mul, mul_comm n 3, pow_mul 10 3 n]
            norm_num
        _ ≤ 2 ^ 3078 * 1024 ^ n :=
            Nat.mul_le_mul_left _ (Nat.pow_le_pow_left (by decide) n)
        _ = 2 ^ (3078 + 10 * n) := by rw [pow_add, pow_mul]; norm_num
    have hninth : 2 ^ (29 * n) < 2 ^ (9 * (digits.log2 + 1) + 9675) := by
      calc 2 ^ (29 * n) = (2 ^ 29) ^ n := by rw [pow_mul]
        _ ≤ (10 ^ 9) ^ n := Nat.pow_le_pow_left (by decide) n
        _ = (10 ^ n) ^ 9 := by rw [← pow_mul, ← pow_mul, mul_comm]
        _ ≤ (digits * 2 ^ 1075) ^ 9 := Nat.pow_le_pow_left habove 9
        _ = digits ^ 9 * 2 ^ 9675 := by rw [mul_pow, ← pow_mul]
        _ < (2 ^ (digits.log2 + 1)) ^ 9 * 2 ^ 9675 :=
            Nat.mul_lt_mul_of_pos_right (Nat.pow_lt_pow_left hlog' (by decide)) (by positivity)
        _ = 2 ^ (9 * (digits.log2 + 1) + 9675) := by
            rw [← pow_mul, ← pow_add, mul_comm (digits.log2 + 1) 9]
    have h3 := (Nat.pow_lt_pow_iff_right (by decide)).mp hcube
    have h9 := (Nat.pow_lt_pow_iff_right (by decide)).mp hninth
    omega

/-- Of a decimal that is neither too long nor too short the value decides. -/
theorem ofDecimal?_eq (negative : Bool) {digits : ℕ} {e : ℤ}
    (hlong : -decimalReach ≤ estimatedLength digits e)
    (hshort : estimatedLength digits e ≤ decimalReach) :
    ofDecimal? negative digits e =
      if nearestTo (digits * 10 ^ e) < infinityMagnitude then
        some (ofMagnitude negative (nearestTo (digits * 10 ^ e)))
      else none := by
  have hnearest : (if 0 ≤ e then nearest (digits * Nat.pow 10 e.toNat) 1
      else nearest digits (Nat.pow 10 (-e).toNat)) = nearestTo (digits * 10 ^ e) :=
    Decimal.nearest_eq ⟨digits, e⟩
  have hmagnitude : (if digits = 0 ∨ estimatedLength digits e < -decimalReach then 0
      else if decimalReach < estimatedLength digits e then infinityMagnitude
      else if 0 ≤ e then nearest (digits * Nat.pow 10 e.toNat) 1
      else nearest digits (Nat.pow 10 (-e).toNat)) = nearestTo (digits * 10 ^ e) := by
    split
    · rename_i hnone
      obtain rfl : digits = 0 := hnone.resolve_right (by omega)
      rw [Nat.cast_zero, zero_mul, nearestTo, if_pos rfl]
    · rw [if_neg (by omega), hnearest]
  rw [estimatedLength] at hmagnitude
  simp only [ofDecimal?, hmagnitude]

theorem ofDecimal?_of_nearestTo (negative : Bool) {digits m : ℕ} {e : ℤ} (hdigits : 0 < digits)
    (he : -1074 ≤ e) (hm : nearestTo (digits * 10 ^ e) = m) (hpos : 0 < m)
    (hfinite : m < infinityMagnitude) :
    ofDecimal? negative digits e = some (ofMagnitude negative m) := by
  have hr : (0 : ℚ) < digits * 10 ^ e := mul_pos (by exact_mod_cast hdigits) (by positivity)
  obtain ⟨hlong, hshort⟩ := estimatedLength_bounds hdigits he
    (le_of_nearestTo_pos hr (hm ▸ hpos)) (lt_of_nearestTo_lt hr (hm ▸ hfinite))
  rw [ofDecimal?_eq negative hlong hshort, hm, if_pos hfinite]

theorem ofDecimal?_of_value (negative : Bool) {digits m : ℕ} {e : ℤ} (he : -1074 ≤ e)
    (hvalue : (digits * 10 ^ e : ℚ) = (shortest m).value) (hpos : 0 < m)
    (hfinite : m < infinityMagnitude) :
    ofDecimal? negative digits e = some (ofMagnitude negative m) := by
  have hm : nearestTo (digits * 10 ^ e) = m := by rw [hvalue, shortest_value hpos]
  have hdigits : 0 < digits := by
    rw [Nat.pos_iff_ne_zero]
    rintro rfl
    rw [Nat.cast_zero, zero_mul, nearestTo, if_pos rfl] at hm
    omega
  exact ofDecimal?_of_nearestTo negative hdigits he hm hpos hfinite

end Telemetry.Binary64
