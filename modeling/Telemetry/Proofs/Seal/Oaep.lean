/-
A private key opens what its public key seals.

Covering octets twice with one mask uncovers them, and each of the two masks of a block is grown
from octets that stand in the block, so it can be grown again (`Oaep.decode?_encode`).  A block
begins with a zero and its number is below the modulus, so the exponents of the key cancel.  With
a key from two different primes everything that is sealed is opened (`Sealer.openedBy_ofKey`).
-/
import Mathlib.NumberTheory.LucasPrimality
import Mathlib.Tactic.ReduceModChar
import Telemetry.Proofs.Seal.Rsa
import Telemetry.Proofs.Seal.Sealing

namespace Telemetry

namespace Oaep

/-! ## Masks -/

theorem length_mask (seed : Bytes) (length : Nat) : (mask seed length).length = length := by
  have hgrown : ∀ n, ((List.range n).flatMap fun i =>
      Sha256.digest (seed ++ Bytes.ofNatBE 4 i)).length = n * Sha256.digestSize := by
    intro n
    simp only [List.length_flatMap, Sha256.length_digest, List.map_const', List.sum_replicate,
      List.length_range, smul_eq_mul]
  have hsize : Sha256.digestSize = 32 := rfl
  rw [mask, List.length_take, hgrown, hsize]
  omega

theorem length_cover {a b : Bytes} (h : a.length ≤ b.length) : (cover a b).length = a.length := by
  rw [cover, List.length_zipWith, Nat.min_eq_left h]

theorem cover_cover {a b : Bytes} (h : a.length ≤ b.length) : cover (cover a b) b = a := by
  induction a generalizing b with
  | nil => rfl
  | cons x a ih =>
      cases b with
      | nil => exact absurd h (Nat.not_succ_le_zero _)
      | cons y b =>
          have hback : x ^^^ y ^^^ y = x := by
            rw [UInt8.xor_assoc, UInt8.xor_self, UInt8.xor_zero]
          have hrest : cover (cover a b) b = a := ih (Nat.le_of_succ_le_succ h)
          change (x ^^^ y ^^^ y) :: cover (cover a b) b = x :: a
          rw [hback, hrest]

/-! ## Blocks -/

variable {size : Nat} {message : Bytes}

theorem length_padded (h : message.length + overhead ≤ size) :
    (padded size message).length = size - Sha256.digestSize - 1 := by
  have hsize : Sha256.digestSize = 32 := rfl
  rw [overhead] at h
  simp only [padded, overhead, List.length_append, List.length_replicate, List.length_cons,
    Sha256.length_digest]
  omega

theorem unpadded?_padded (size : Nat) (message : Bytes) :
    unpadded? (padded size message) = some message := by
  have htake : (padded size message).take Sha256.digestSize = Sha256.digest label := by
    rw [padded, List.append_assoc, ← Sha256.length_digest label, List.take_left]
  have hdrop : (padded size message).drop Sha256.digestSize =
      List.replicate (size - overhead - message.length) 0 ++ 1 :: message := by
    rw [padded, List.append_assoc, ← Sha256.length_digest label, List.drop_left]
  have hzeros : ∀ n : Nat, (List.replicate n (0 : UInt8) ++ 1 :: message).dropWhile (· = 0) =
      1 :: message := by
    intro n
    induction n with
    | zero => rfl
    | succ n ih =>
        rw [List.replicate_succ, List.cons_append, List.dropWhile_cons_of_pos (by decide), ih]
  rw [unpadded?, if_pos htake, hdrop, hzeros]
  rfl

theorem length_encode (seed : Seed) (h : message.length + overhead ≤ size) :
    (encode size seed message).length = size := by
  have hsize : Sha256.digestSize = 32 := rfl
  have hdata := length_padded h
  rw [overhead] at h
  rw [encode, List.cons_append, List.length_cons, List.length_append, length_cover, length_cover,
    hdata, seed.length_eq]
  · omega
  · rw [length_mask]
  · rw [length_mask, seed.length_eq]

/-- A block opens to its message. -/
theorem decode?_encode (seed : Seed) (h : message.length + overhead ≤ size) :
    decode? size (encode size seed message) = some message := by
  have hlarge : ¬size < overhead := by omega
  rw [encode]
  generalize hdata : padded size message = data
  generalize hhidden : cover data (mask seed.octets data.length) = hidden
  have hlength : hidden.length = data.length := by
    rw [← hhidden, length_cover (Nat.le_of_eq (length_mask _ _).symm)]
  have hseed : seed.octets.length ≤ (mask hidden Sha256.digestSize).length := by
    rw [length_mask, seed.length_eq]
  have hcovered : (cover seed.octets (mask hidden Sha256.digestSize)).length =
      Sha256.digestSize := by
    rw [length_cover hseed, seed.length_eq]
  have hopened : cover hidden (mask seed.octets hidden.length) = data := by
    rw [hlength, ← hhidden, cover_cover (Nat.le_of_eq (length_mask _ _).symm)]
  rw [List.cons_append, decode?, if_neg hlarge]
  simp only [List.take_left' hcovered, List.drop_left' hcovered, cover_cover hseed, hopened]
  rw [← hdata, unpadded?_padded]

/-- The number of a block is one octet shorter than the block. -/
theorem toNatBE_encode_lt (seed : Seed) (h : message.length + overhead ≤ size) :
    Bytes.toNatBE (encode size seed message) < 256 ^ (size - 1) := by
  have hlength := length_encode seed h
  obtain ⟨rest, hrest⟩ : ∃ rest, encode size seed message = 0 :: rest := ⟨_, rfl⟩
  have hzero : (0 : UInt8).toNat = 0 := rfl
  rw [hrest, List.length_cons] at hlength
  rw [hrest, Bytes.toNatBE_cons, hzero, Nat.zero_mul, Nat.zero_add, ← hlength, Nat.add_sub_cancel]
  exact Bytes.toNatBE_lt rest

/-- What the public key of a pair seals in a block, its private key opens. -/
theorem decrypt?_encrypt {k : Rsa.PrivateKey} {p q : Nat} (hk : k.isSound p q = true)
    (hp : p.Prime) (hq : q.Prime) (hne : p ≠ q) (seed : Seed)
    (h : message.length + overhead ≤ k.publicKey.size) :
    decrypt? k (encrypt k.publicKey seed message) = some message := by
  obtain ⟨-, hmodulus, -, -⟩ := of_decide_eq_true hk
  have hpos : 0 < k.publicKey.modulus := by
    rw [← hmodulus]
    exact Nat.mul_pos hp.pos hq.pos
  have hblock : Bytes.toNatBE (encode k.publicKey.size seed message) < k.publicKey.modulus :=
    Nat.lt_of_lt_of_le (toNatBE_encode_lt seed h) (Rsa.pow_octetLength_le (Nat.ne_of_gt hpos))
  have hpower : ∀ m e, Rsa.power k.publicKey.modulus m e < k.publicKey.modulus := by
    intro m e
    rw [Rsa.power_eq]
    exact Nat.mod_lt _ hpos
  have hsealed : Bytes.toNatBE (encrypt k.publicKey seed message) =
      Rsa.power k.publicKey.modulus (Bytes.toNatBE (encode k.publicKey.size seed message))
        k.publicKey.exponent := by
    rw [encrypt, Bytes.toNatBE_ofNatBE]
    exact Nat.mod_eq_of_lt (Nat.lt_trans (hpower _ _) (Rsa.lt_pow_octetLength _))
  have hwritten : Bytes.ofNatBE k.publicKey.size
      (Bytes.toNatBE (encode k.publicKey.size seed message)) =
        encode k.publicKey.size seed message := by
    have hback := Bytes.ofNatBE_toNatBE (encode k.publicKey.size seed message)
    rwa [length_encode seed h] at hback
  rw [decrypt?, hsealed, if_pos (hpower _ _), Rsa.power_power hk hp hq hne hblock, hwritten,
    decode?_encode seed h]

end Oaep

theorem Sealer.openedBy_ofKey {k : Rsa.PrivateKey} {p q : Nat} (hk : k.isSound p q = true)
    (hp : p.Prime) (hq : q.Prime) (hne : p ≠ q) :
    (Sealer.ofKey k.publicKey).OpenedBy (Unsealer.ofKey k) where
  size := rfl
  length _ _ _ := Bytes.length_ofNatBE _ _
  opens seed _ h := Oaep.decrypt?_encrypt hk hp hq hne seed h

/-! ## A pair of keys -/

namespace Rsa

/-- A number one above a product of powers of two and three is prime if it has a primitive
root. -/
theorem prime_of_smooth {a b p : Nat} (hp : p = 2 ^ (a + 1) * 3 ^ (b + 1) + 1) {g : ZMod p}
    (hone : g ^ (p - 1) = 1) (htwo : g ^ ((p - 1) / 2) ≠ 1) (hthree : g ^ ((p - 1) / 3) ≠ 1) :
    p.Prime := by
  refine lucas_primality p g hone fun q hq hdvd => ?_
  have hpred : p - 1 = 2 ^ (a + 1) * 3 ^ (b + 1) := by omega
  rw [hpred] at hdvd
  rcases (Nat.Prime.dvd_mul hq).mp hdvd with h | h
  · rw [(Nat.prime_dvd_prime_iff_eq hq Nat.prime_two).mp (hq.dvd_of_dvd_pow h)]
    exact htwo
  · rw [(Nat.prime_dvd_prime_iff_eq hq Nat.prime_three).mp (hq.dvd_of_dvd_pow h)]
    exact hthree

theorem prime_first : (2 ^ 173 * 3 ^ 60 + 1).Prime := by
  have hvalue : 2 ^ 173 * 3 ^ 60 + 1 =
      507533289288351219256277334662737278787078448096696761937408895835606988768673793 := by
    decide +kernel
  rw [hvalue]
  refine prime_of_smooth (a := 172) (b := 59) (g := 5) (by decide +kernel) ?_ ?_ ?_
  · norm_num only
    reduce_mod_char
  · norm_num only
    reduce_mod_char
    decide
  · norm_num only
    reduce_mod_char
    decide

theorem prime_second : (2 ^ 162 * 3 ^ 70 + 1).Prime := by
  have hvalue : 2 ^ 162 * 3 ^ 70 + 1 =
      14633463476165942942316367350830065222215915664873948777168973579197635292871786497 := by
    decide +kernel
  rw [hvalue]
  refine prime_of_smooth (a := 161) (b := 69) (g := 5) (by decide +kernel) ?_ ?_ ?_
  · norm_num only
    reduce_mod_char
  · norm_num only
    reduce_mod_char
    decide
  · norm_num only
    reduce_mod_char
    decide

/-- A pair of keys whose blocks have room for two octets. -/
def pair : PrivateKey :=
  ⟨⟨(2 ^ 173 * 3 ^ 60 + 1) * (2 ^ 162 * 3 ^ 70 + 1), 5⟩, (1 + 2 ^ 173 * 3 ^ 71) / 5⟩

theorem isSound_pair : pair.isSound (2 ^ 173 * 3 ^ 60 + 1) (2 ^ 162 * 3 ^ 70 + 1) = true := by
  decide +kernel

theorem size_pair : pair.publicKey.size = Oaep.overhead + 2 := by decide +kernel

end Rsa

/-- There is a sealer with room for messages, and an unsealer for it. -/
theorem Sealer.openedBy_pair :
    (Sealer.ofKey Rsa.pair.publicKey).OpenedBy (Unsealer.ofKey Rsa.pair) :=
  openedBy_ofKey Rsa.isSound_pair Rsa.prime_first Rsa.prime_second (by decide +kernel)

end Telemetry
