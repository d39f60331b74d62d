/-
Bits are read as they were written.

`Bits.Gives bits s t` says that a stream gives these bits one after the other, and what is left of
it then.  Numbers are written with their lowest bit first, so the low bits of a number are read as
this number (`Bits.number_of_gives`); octets give their eight bits; and packed bits are given up to
the last octet, whose other bits are zeros that nobody asks for (`Bits.gives_pack`).
-/
import Mathlib.Algebra.Group.Nat.Defs
import Telemetry.Gzip.Deflate
import Telemetry.Proofs.Gzip.Extension

namespace Telemetry.Gzip

/-! ## The low bits of numbers -/

theorem lowBits_add (m n x : Nat) : lowBits (m + n) x = lowBits m x ++ lowBits n (x / 2 ^ m) := by
  induction m generalizing x with
  | zero => rw [Nat.zero_add, lowBits, Nat.pow_zero, Nat.div_one, List.nil_append]
  | succ m ih =>
      rw [Nat.succ_add, lowBits, lowBits, ih, List.cons_append, Nat.div_div_eq_div_mul,
        Nat.pow_succ']

theorem lowBits_mod (n x : Nat) : lowBits n (x % 2 ^ n) = lowBits n x := by
  induction n generalizing x with
  | zero => rfl
  | succ n ih =>
      have hlow : x % (2 * 2 ^ n) % 2 = x % 2 := Nat.mod_mul_right_mod x 2 (2 ^ n)
      have hhigh : x % (2 * 2 ^ n) / 2 = x / 2 % 2 ^ n := Nat.mod_mul_right_div_self x 2 (2 ^ n)
      rw [lowBits, lowBits, Nat.pow_succ', hlow, hhigh, ih]

/-- The number that bits write, the lowest first. -/
def numberOf (bits : List Bool) : Nat := bits.foldr (fun bit n => bit.toNat + 2 * n) 0

theorem numberOf_lt (bits : List Bool) : numberOf bits < 2 ^ bits.length := by
  induction bits with
  | nil => exact Nat.one_pos
  | cons bit bits ih =>
      have hbit := bit.toNat_le
      rw [List.length_cons, Nat.pow_succ']
      change bit.toNat + 2 * numberOf bits < _
      omega

theorem lowBits_numberOf (bits : List Bool) : lowBits bits.length (numberOf bits) = bits := by
  induction bits with
  | nil => rfl
  | cons bit bits ih =>
      have hlow : decide ((bit.toNat + 2 * numberOf bits) % 2 = 1) = bit := by
        rw [Nat.add_mul_mod_self_left]
        cases bit <;> rfl
      have hhigh : (bit.toNat + 2 * numberOf bits) / 2 = numberOf bits := by
        have hbit := bit.toNat_le
        omega
      change decide ((bit.toNat + 2 * numberOf bits) % 2 = 1) ::
        lowBits bits.length ((bit.toNat + 2 * numberOf bits) / 2) = _
      rw [hlow, hhigh, ih]

namespace Bits

/-! ## Streams that give bits -/

/-- A stream gives bits, and another one is left. -/
def Gives : List Bool → Bits → Bits → Prop
  | [], s, t => s = t
  | bit :: bits, s, t => ∃ u, s.next = .ok (bit, u) ∧ Gives bits u t

variable {s t u : Bits}

theorem gives_append {bits more : List Bool} :
    Gives (bits ++ more) s t ↔ ∃ u, Gives bits s u ∧ Gives more u t := by
  induction bits generalizing s with
  | nil =>
      constructor
      · intro h
        exact ⟨s, rfl, h⟩
      · rintro ⟨u, rfl, h⟩
        exact h
  | cons bit bits ih =>
      constructor
      · rintro ⟨v, hnext, h⟩
        obtain ⟨u, hbits, hmore⟩ := ih.mp h
        exact ⟨u, ⟨v, hnext, hbits⟩, hmore⟩
      · rintro ⟨u, ⟨v, hnext, hbits⟩, hmore⟩
        exact ⟨v, hnext, ih.mpr ⟨u, hbits, hmore⟩⟩

theorem Gives.append {bits more : List Bool} (h : Gives bits s t) (h' : Gives more t u) :
    Gives (bits ++ more) s u := gives_append.mpr ⟨t, h, h'⟩

/-- Low bits are read as the number that they are the low bits of. -/
theorem number_of_gives {n x : Nat} (h : Gives (lowBits n x) s t) :
    number n s = .ok (x % 2 ^ n, t) := by
  induction n generalizing s x with
  | zero =>
      obtain rfl := h
      rw [number, Nat.pow_zero, Nat.mod_one]
  | succ n ih =>
      obtain ⟨u, hnext, hrest⟩ := h
      have hvalue : (decide (x % 2 = 1)).toNat + 2 * (x / 2 % 2 ^ n) = x % 2 ^ (n + 1) := by
        rw [Nat.pow_succ', Nat.mod_mul]
        rcases Nat.mod_two_eq_zero_or_one x with h | h <;> simp [h]
      rw [number, hnext]
      change (number n u).bind _ = _
      rw [ih hrest, ← hvalue]
      rfl

theorem number_of_gives_lt {n x : Nat} (h : Gives (lowBits n x) s t) (hx : x < 2 ^ n) :
    number n s = .ok (x, t) := by
  rw [number_of_gives h, Nat.mod_eq_of_lt hx]

/-! ## Octets -/

/-- A stream with `n` bits of its first octet spent, which may be all of them. -/
def within (x : UInt8) (rest : Bytes) (n : Nat) : Bits :=
  if n < 8 then ⟨x :: rest, n⟩ else ⟨rest, 0⟩

theorem rest_within (x : UInt8) (rest : Bytes) {n : Nat} (hn : n ≠ 0) :
    (within x rest n).rest = rest := by
  rw [within]
  split
  · exact if_neg hn
  · rfl

theorem gives_within (x : UInt8) (rest : Bytes) {n i : Nat} (h : i + n ≤ 8) :
    Gives (lowBits n (x.toNat / 2 ^ i)) (within x rest i) (within x rest (i + n)) := by
  induction n generalizing i with
  | zero => rfl
  | succ n ih =>
      have hi : i < 8 := by omega
      refine ⟨within x rest (i + 1), ?_, ?_⟩
      · rw [within, if_pos hi, next_cons, Nat.shiftRight_eq_div_pow]
        by_cases hlast : i < 7
        · rw [if_pos hlast, within, if_pos (Nat.succ_lt_succ hlast)]
        · rw [if_neg hlast, within, if_neg (by omega)]
      · rw [Nat.div_div_eq_div_mul, ← Nat.pow_succ, Nat.add_comm n 1, ← Nat.add_assoc]
        exact ih (by omega)

theorem gives_octet (x : UInt8) (rest : Bytes) :
    Gives (lowBits 8 x.toNat) ⟨x :: rest, 0⟩ ⟨rest, 0⟩ := by
  have h := gives_within x rest (n := 8) (i := 0) (Nat.le_refl 8)
  rw [Nat.pow_zero, Nat.div_one] at h
  exact h

/-- Fewer than eight bits that an octet begins with. -/
theorem gives_few {bits : List Bool} (h : bits.length ≤ 8) (rest : Bytes) :
    Gives bits ⟨UInt8.ofNat (numberOf bits) :: rest, 0⟩
      (within (UInt8.ofNat (numberOf bits)) rest bits.length) := by
  have hsmall : numberOf bits < 2 ^ 8 :=
    Nat.lt_of_lt_of_le (numberOf_lt bits) (Nat.pow_le_pow_right Nat.two_pos h)
  have hgives := gives_within (UInt8.ofNat (numberOf bits)) rest (i := 0) (n := bits.length)
    (by omega)
  rw [Nat.pow_zero, Nat.div_one, UInt8.toNat_ofNat', Nat.mod_eq_of_lt hsmall,
    lowBits_numberOf, Nat.zero_add] at hgives
  exact hgives

/-- Packed bits are given, and what is behind the last octet is left. -/
theorem gives_pack (bits : List Bool) (rest : Bytes) :
    ∃ t, Gives bits ⟨pack bits ++ rest, 0⟩ t ∧ t.rest = rest := by
  induction bits using pack.induct with
  | case1 a b c d e f g h more ih =>
      obtain ⟨t, hmore, hrest⟩ := ih
      have hoctet : a.toNat + 2 * b.toNat + 4 * c.toNat + 8 * d.toNat +
          16 * (e.toNat + 2 * f.toNat + 4 * g.toNat + 8 * h.toNat) =
            numberOf [a, b, c, d, e, f, g, h] := by
        simp only [numberOf, List.foldr_cons, List.foldr_nil]
        omega
      have hfew := @gives_few [a, b, c, d, e, f, g, h] (Nat.le_refl 8) (pack more ++ rest)
      refine ⟨t, ?_, hrest⟩
      rw [pack, hoctet, List.cons_append]
      exact hfew.append hmore
  | case2 => exact ⟨⟨rest, 0⟩, rfl, rfl⟩
  | case3 few hfew hne =>
      have hshort : few.length ≤ 8 := by
        match few, hfew with
        | [], _ | [_], _ | [_, _], _ | [_, _, _], _ | [_, _, _, _], _ | [_, _, _, _, _], _
        | [_, _, _, _, _, _], _ | [_, _, _, _, _, _, _], _ => simp
        | a :: b :: c :: d :: e :: f :: g :: h :: more, hfew =>
          exact absurd rfl (hfew a b c d e f g h more)
      have hpack : pack few = [UInt8.ofNat (numberOf few)] := by
        rw [pack]
        · rfl
        · exact hfew
        · exact hne
      have hgives := gives_few hshort rest
      rw [hpack]
      exact ⟨_, hgives, rest_within _ rest (Nat.ne_of_gt (List.length_pos_iff.mpr hne))⟩

end Bits

end Telemetry.Gzip
