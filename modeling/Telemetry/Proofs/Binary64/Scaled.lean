/-
Where one rounding is all there is.

A product of magnitudes is rounded from the product of their values, and so is a quotient
(`product_eq`, `quotient_eq`).  Integers below `2 ^ 53` are their own magnitudes' values, and so
are the powers of ten up to the 22nd.  Scaling such an integer by such a power rounds only once,
at the end, and comes to the magnitude nearest to the decimal (`timesTen_eq`).
-/
import Telemetry.Binary64.Scaled
import Telemetry.Proofs.Binary64.Rounding

namespace Telemetry.Binary64

/-! ## Values as quotients -/

theorem ratio_pos (m : ℕ) : 0 < (ratio m).2 := by
  simp only [ratio]
  split
  · exact Nat.one_pos
  · exact Nat.shiftLeft_eq 1 _ ▸ Nat.mul_pos Nat.one_pos (Nat.two_pow_pos _)

theorem ratio_eq (m : ℕ) : ((ratio m).1 / (ratio m).2 : ℚ) = value m := by
  simp only [ratio, value]
  split
  · rename_i hq
    obtain ⟨n, hn⟩ := Int.eq_ofNat_of_zero_le hq
    rw [hn, Int.toNat_natCast, Nat.shiftLeft_eq, zpow_natCast]
    push_cast
    rw [div_one]
  · rename_i hq
    obtain ⟨n, hn⟩ := Int.eq_ofNat_of_zero_le (by omega : 0 ≤ -exponentOf m)
    obtain hexp : exponentOf m = -(n : ℤ) := by omega
    rw [hexp, neg_neg, Int.toNat_natCast, Nat.shiftLeft_eq, zpow_neg, zpow_natCast]
    push_cast
    rw [one_mul, div_eq_mul_inv]

theorem significandOf_pos {m : ℕ} (hm : 0 < m) : 0 < significandOf m := by
  rw [significandOf]
  split
  · exact hm
  · exact Nat.add_pos_left (by decide) _

theorem value_pos {m : ℕ} (hm : 0 < m) : 0 < value m :=
  mul_pos (by exact_mod_cast significandOf_pos hm) (by positivity)

theorem value_zero : value 0 = 0 := by
  have hsignificand : significandOf 0 = 0 := rfl
  rw [value, hsignificand, Nat.cast_zero, zero_mul]

/-! ## Products and quotients -/

theorem product_eq (a b : ℕ) : product a b = nearestTo (value a * value b) := by
  rw [product, nearest_eq _ (Nat.mul_pos (ratio_pos a) (ratio_pos b)), ← ratio_eq a, ← ratio_eq b]
  push_cast
  rw [mul_div_mul_comm]

theorem quotient_eq (a : ℕ) {b : ℕ} (hb : 0 < b) : quotient a b = nearestTo (value a / value b) := by
  have hden : 0 < (ratio b).1 := by
    rw [Nat.pos_iff_ne_zero]
    intro hzero
    have hvalue := ratio_eq b
    rw [hzero, Nat.cast_zero, zero_div] at hvalue
    exact absurd hvalue (value_pos hb).ne
  rw [quotient, nearest_eq _ (Nat.mul_pos (ratio_pos a) hden), ← ratio_eq a, ← ratio_eq b]
  push_cast
  rw [div_div_div_eq]

/-! ## What is not rounded -/

/-- The magnitude of an integer: its digits are moved up to full length. -/
theorem exists_value_eq {n : ℕ} (hpos : 0 < n) (hn : n < 2 ^ 53) : ∃ m, 0 < m ∧ value m = n := by
  have hlog : n.log2 < 53 := (Nat.log2_lt hpos.ne').mpr hn
  have hmoved : 2 ^ n.log2 * 2 ^ (52 - n.log2) = leastNormal := by
    rw [← Nat.pow_add, Nat.add_sub_cancel' (Nat.lt_succ_iff.mp hlog)]
    decide
  have hlow : leastNormal ≤ n * 2 ^ (52 - n.log2) := by
    rw [← hmoved]
    exact Nat.mul_le_mul_right _ (Nat.log2_self_le hpos.ne')
  have hhigh : n * 2 ^ (52 - n.log2) < 2 * leastNormal := by
    rw [← hmoved, ← Nat.mul_assoc, ← Nat.pow_succ']
    exact Nat.mul_lt_mul_of_pos_right Nat.lt_log2_self (Nat.two_pow_pos _)
  obtain ⟨rest, hrest⟩ := Nat.exists_eq_add_of_le hlow
  have hbelow : rest < leastNormal := by omega
  have hquotient : ((n.log2 + 1023) * leastNormal + rest) / leastNormal = n.log2 + 1023 := by
    rw [Nat.mul_comm, Nat.mul_add_div (by decide), Nat.div_eq_of_lt hbelow, Nat.add_zero]
  have hremainder : ((n.log2 + 1023) * leastNormal + rest) % leastNormal = rest := by
    rw [Nat.mul_comm, Nat.mul_add_mod, Nat.mod_eq_of_lt hbelow]
  have hnormal : ¬(n.log2 + 1023) * leastNormal + rest < leastNormal := by
    rw [← Nat.div_lt_one_iff (by decide), hquotient]
    omega
  refine ⟨(n.log2 + 1023) * leastNormal + rest, by omega, ?_⟩
  rw [value, significandOf, if_neg hnormal, exponentOf, hquotient, hremainder, ← hrest]
  have hexponent : ((max (n.log2 + 1023) 1 : ℕ) : ℤ) - 1075 = -((52 - n.log2 : ℕ) : ℤ) := by omega
  rw [hexponent, zpow_neg, zpow_natCast]
  push_cast
  rw [mul_assoc, mul_inv_cancel₀ (by positivity), mul_one]

theorem value_nearest {n : ℕ} (hn : n < 2 ^ 53) : value (nearest n 1) = n := by
  rcases Nat.eq_zero_or_pos n with rfl | hpos
  · exact value_zero.trans Nat.cast_zero.symm
  · obtain ⟨m, hm, hvalue⟩ := exists_value_eq hpos hn
    rw [nearest_eq n Nat.one_pos, Nat.cast_one, div_one, ← hvalue, nearestTo_value hm]

theorem value_ten {k : ℕ} (hk : k ≤ 22) : value (ten k) = 10 ^ k := by
  -- the digits of the power in binary, but for the zeros at their end, are at most 53
  have hexact : ∀ i : Fin 23, (ratio (ten i)).1 = 10 ^ i.val * (ratio (ten i)).2 := by decide
  have hden : ((ratio (ten k)).2 : ℚ) ≠ 0 := by exact_mod_cast (ratio_pos _).ne'
  rw [← ratio_eq, hexact ⟨k, Nat.lt_succ_of_le hk⟩]
  push_cast
  rw [mul_div_assoc, div_self hden, mul_one]

theorem ten_pos {k : ℕ} (hk : k ≤ 22) : 0 < ten k := by
  have hpos : ∀ i : Fin 23, 0 < ten i := by decide
  exact hpos ⟨k, Nat.lt_succ_of_le hk⟩

/-! ## Scaling -/

theorem timesTen_zero (m : ℕ) : timesTen m 0 = m := by
  rw [timesTen, if_neg (lt_irrefl 0), if_pos (Int.natCast_nonneg greatestTen), Int.toNat_zero,
    product_eq, value_ten (Nat.zero_le _), pow_zero, mul_one]
  rcases Nat.eq_zero_or_pos m with rfl | hm
  · rw [value_zero]
    rfl
  · exact nearestTo_value hm

/-- Few digits are scaled by a small power of ten to the nearest magnitude. -/
theorem timesTen_eq {n : ℕ} {e : ℤ} (hn : n < 2 ^ 53) (he : e.natAbs ≤ 22) :
    timesTen (nearest n 1) e = nearestTo (n * 10 ^ e) := by
  rw [timesTen]
  split
  · obtain ⟨k, hk⟩ := Int.eq_ofNat_of_zero_le (by omega : 0 ≤ -e)
    obtain rfl : e = -(k : ℤ) := by omega
    have hsmall : k ≤ 22 := by omega
    have hsteps : (k - 1) / greatestTen = 0 := Nat.div_eq_of_lt (by rw [greatestTen]; omega)
    rw [neg_neg, Int.toNat_natCast, hsteps, lowered, quotient_eq _ (ten_pos hsmall),
      value_nearest hn, value_ten hsmall, zpow_neg, zpow_natCast, div_eq_mul_inv]
  · obtain ⟨k, hk⟩ := Int.eq_ofNat_of_zero_le (by omega : 0 ≤ e)
    subst hk
    have hsmall : k ≤ 22 := by omega
    rw [if_pos (by rw [greatestTen]; omega), Int.toNat_natCast, product_eq, value_nearest hn,
      value_ten hsmall, zpow_natCast]

end Telemetry.Binary64
