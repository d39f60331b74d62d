/-
A private key undoes its public key.

The power of a key is worked out by squaring (`Rsa.power_eq`).  Modulo a prime factor of the
modulus an exponent counts only up to multiples of the factor less one, so the two exponents of a
key cancel modulo each factor, and hence modulo their product (`Rsa.power_power`).

Numbers stand in blocks as octets, most significant first, and are read back from there.
-/
import Mathlib.FieldTheory.Finite.Basic
import Telemetry.Seal.Rsa

namespace Telemetry

/-! ## Octets -/

namespace Bytes

@[simp] theorem length_ofNatBE (width n : Nat) : (ofNatBE width n).length = width := by
  rw [ofNatBE, List.length_map, List.length_reverse, List.length_range]

theorem ofNatBE_succ (width n : Nat) :
    ofNatBE (width + 1) n = UInt8.ofNat (n / 256 ^ width) :: ofNatBE width n := by
  have hfirst : UInt8.ofNat (n >>> (8 * width) % 256) = UInt8.ofNat (n / 256 ^ width) := by
    rw [Nat.shiftRight_eq_div_pow, Nat.pow_mul]
    exact UInt8.ofNat_mod_size
  rw [ofNatBE, List.range_succ, List.reverse_append, List.reverse_singleton, List.singleton_append,
    List.map_cons, hfirst, ofNatBE]

theorem foldl_toNatBE (b : Bytes) (n : Nat) :
    b.foldl (fun n x => n * 256 + x.toNat) n = n * 256 ^ b.length + toNatBE b := by
  induction b generalizing n with
  | nil => rw [List.foldl_nil, List.length_nil, pow_zero, Nat.mul_one]; rfl
  | cons x b ih =>
      have hcons : toNatBE (x :: b) = (0 * 256 + x.toNat) * 256 ^ b.length + toNatBE b := ih _
      rw [List.foldl_cons, ih, hcons, List.length_cons, pow_succ]
      ring

theorem toNatBE_cons (x : UInt8) (b : Bytes) :
    toNatBE (x :: b) = x.toNat * 256 ^ b.length + toNatBE b := by
  rw [toNatBE, List.foldl_cons, foldl_toNatBE, Nat.zero_mul, Nat.zero_add]

theorem toNatBE_lt (b : Bytes) : toNatBE b < 256 ^ b.length := by
  induction b with
  | nil => exact Nat.one_pos
  | cons x b ih =>
      have hx : x.toNat + 1 ≤ 256 := x.toNat_lt
      calc toNatBE (x :: b) = x.toNat * 256 ^ b.length + toNatBE b := toNatBE_cons x b
        _ < x.toNat * 256 ^ b.length + 256 ^ b.length := Nat.add_lt_add_left ih _
        _ = (x.toNat + 1) * 256 ^ b.length := (Nat.succ_mul _ _).symm
        _ ≤ 256 * 256 ^ b.length := Nat.mul_le_mul_right _ hx
        _ = 256 ^ (x :: b).length := by rw [List.length_cons, pow_succ, Nat.mul_comm]

theorem ofNatBE_add_mul (width n k : Nat) :
    ofNatBE width (n + k * 256 ^ width) = ofNatBE width n := by
  induction width generalizing k with
  | zero => rfl
  | succ width ih =>
      have hpos : 0 < 256 ^ width := Nat.pow_pos (by decide)
      have hshift : k * 256 ^ (width + 1) = k * 256 * 256 ^ width := by rw [pow_succ]; ring
      have hfirst : UInt8.ofNat (n / 256 ^ width + k * 256) = UInt8.ofNat (n / 256 ^ width) := by
        rw [← UInt8.ofNat_mod_size, Nat.add_mul_mod_self_right, UInt8.ofNat_mod_size]
      rw [ofNatBE_succ, ofNatBE_succ, hshift, ih, Nat.add_mul_div_right _ _ hpos, hfirst]

theorem ofNatBE_toNatBE (b : Bytes) : ofNatBE b.length (toNatBE b) = b := by
  induction b with
  | nil => rfl
  | cons x b ih =>
      have hpos : 0 < 256 ^ b.length := Nat.pow_pos (by decide)
      rw [toNatBE_cons, Nat.add_comm, List.length_cons, ofNatBE_succ, ofNatBE_add_mul, ih,
        Nat.add_mul_div_right _ _ hpos, Nat.div_eq_of_lt (toNatBE_lt b), Nat.zero_add,
        UInt8.ofNat_toNat]

theorem toNatBE_ofNatBE (width n : Nat) : toNatBE (ofNatBE width n) = n % 256 ^ width := by
  induction width with
  | zero => rw [pow_zero, Nat.mod_one]; rfl
  | succ width ih =>
      have hfirst : (UInt8.ofNat (n / 256 ^ width)).toNat = n / 256 ^ width % 256 :=
        UInt8.toNat_ofNat'
      rw [ofNatBE_succ, toNatBE_cons, length_ofNatBE, ih, hfirst, Nat.mod_pow_succ, Nat.add_comm,
        Nat.mul_comm]

end Bytes

namespace Rsa

/-! ## Powers -/

theorem power_eq (n base e : Nat) : power n base e = base ^ e % n := by
  induction e using Nat.strong_induction_on generalizing base with
  | _ e ih =>
      rw [power]
      split
      · rename_i h
        rw [h, pow_zero]
      · rename_i h
        have hroot : power n (base * base % n) (e / 2) = base ^ (2 * (e / 2)) % n := by
          rw [ih (e / 2) (by omega), ← Nat.pow_mod, ← pow_two, ← pow_mul]
        simp only [hroot]
        split
        · rename_i hodd
          have hsplit : e = 2 * (e / 2) + 1 := by omega
          rw [Nat.mul_mod, Nat.mod_mod, ← Nat.mul_mod, ← pow_succ', ← hsplit]
        · rename_i heven
          have hsplit : e = 2 * (e / 2) := by omega
          rw [← hsplit]

theorem lt_pow_octetLength (n : Nat) : n < 256 ^ octetLength n := by
  rw [octetLength]
  split
  · rename_i h
    rw [h]
    decide
  · have hpow : 256 ^ (n.log2 / 8 + 1) = 2 ^ (8 * (n.log2 / 8 + 1)) :=
      (pow_mul 2 8 _).symm
    rw [hpow]
    exact Nat.lt_of_lt_of_le Nat.lt_log2_self (Nat.pow_le_pow_right (by decide) (by omega))

theorem pow_octetLength_le {n : Nat} (h : n ≠ 0) : 256 ^ (octetLength n - 1) ≤ n := by
  rw [octetLength, if_neg h, Nat.add_sub_cancel]
  have hpow : 256 ^ (n.log2 / 8) = 2 ^ (8 * (n.log2 / 8)) := (pow_mul 2 8 _).symm
  rw [hpow]
  exact Nat.le_trans (Nat.pow_le_pow_right (by decide) (by omega)) (Nat.log2_self_le h)

/-- Modulo a prime an exponent counts up to multiples of the prime less one. -/
theorem pow_modEq_prime {p : Nat} (hp : p.Prime) {e : Nat} (he : e % (p - 1) = 1) (m : Nat) :
    m ^ e ≡ m [MOD p] := by
  have : Fact p.Prime := ⟨hp⟩
  have hsplit := (Nat.div_add_mod e (p - 1)).symm
  rw [he] at hsplit
  rw [← ZMod.natCast_eq_natCast_iff, Nat.cast_pow]
  by_cases hm : (m : ZMod p) = 0
  · rw [hm, zero_pow (by omega)]
  · rw [hsplit, pow_succ, pow_mul, ZMod.pow_card_sub_one_eq_one hm, one_pow, one_mul]

/-- The exponents of a key cancel. -/
theorem power_power {k : PrivateKey} {p q : Nat} (hk : k.isSound p q = true) (hp : p.Prime)
    (hq : q.Prime) (hne : p ≠ q) {m : Nat} (hm : m < k.publicKey.modulus) :
    power k.publicKey.modulus (power k.publicKey.modulus m k.publicKey.exponent) k.secret = m := by
  obtain ⟨-, hmodulus, hfirst, hsecond⟩ := of_decide_eq_true hk
  have hexponent : m ^ (k.publicKey.exponent * k.secret) ≡ m [MOD p * q] := by
    rw [Nat.mul_comm k.publicKey.exponent]
    exact (Nat.modEq_and_modEq_iff_modEq_mul ((Nat.coprime_primes hp hq).mpr hne)).mp
      ⟨pow_modEq_prime hp hfirst m, pow_modEq_prime hq hsecond m⟩
  rw [power_eq, power_eq, ← Nat.pow_mod, ← pow_mul, ← hmodulus]
  rw [← hmodulus] at hm
  exact Eq.trans hexponent (Nat.mod_eq_of_lt hm)

end Rsa

end Telemetry
