/-
Numbers are read as they are written.

The characters of a number that is in good form are read as this number.  What doubles
and integers are written as is in good form, and stands for them: the digits of a
double have the value of its shortest decimal in every layout, and the double is
nearest to it (`ofBinary64?_writes`).

The number that is written is not always read as the nearest double, so a double need not
read back (`Binary64.ReadsBack`).  A short number is read as the nearest double
(`Short.binary64?_eq`): its digits are not rounded, nor is the power of ten that scales them.
So doubles with short numbers read back (`readsBack_of_short`).
-/
import Telemetry.Json.Number
import Telemetry.Proofs.Binary64.Scaled
import Telemetry.Proofs.Binary64.Shortest

namespace Telemetry

/-! ## Digits -/

namespace Integer

theorem isDigit_of_mem_digits {n : Nat} {c : Char} (hc : c ∈ digits n) : c.isDigit = true :=
  Nat.isDigit_of_mem_toDigits (by decide) (by decide) hc

theorem digits_eq_cons {n : Nat} (hn : 0 < n) : ∃ c rest, digits n = c :: rest ∧ c ≠ '0' := by
  induction n using Nat.strongRecOn with
  | ind n ih =>
      by_cases hsmall : n < 10
      · refine ⟨n.digitChar, [], Nat.toDigits_of_lt_base hsmall, ?_⟩
        have hall : ∀ k : Fin 10, 0 < k.val → k.val.digitChar ≠ '0' := by decide
        exact hall ⟨n, hsmall⟩ hn
      · obtain ⟨c, rest, heq, hc⟩ := ih (n / 10) (by omega) (by omega)
        rw [digits] at heq
        refine ⟨c, rest ++ [Nat.digitChar (n % 10)], ?_, hc⟩
        rw [digits, Nat.toDigits_of_base_le (by decide) (by omega), heq]
        rfl

theorem signed?_minus (n : Nat) :
    signed? (String.ofList ('-' :: digits n)) = some (-(n : Int)) := by
  rw [signed?, String.toList_ofList]
  simp only [digits?_digits]
  rfl

theorem signed?_plus (n : Nat) : signed? (String.ofList ('+' :: digits n)) = some (n : Int) := by
  rw [signed?, String.toList_ofList]
  simp only [digits?_digits]
  rfl

end Integer

namespace Binary64

@[simp] theorem digitsValue_digits (n : Nat) : digitsValue (Integer.digits n) = n :=
  Nat.ofDigitChars_ten_toDigits

theorem digitsValue_append (cs ds : List Char) :
    digitsValue (cs ++ ds) = 10 ^ ds.length * digitsValue cs + digitsValue ds := by
  rw [digitsValue, Nat.ofDigitChars_append, Nat.ofDigitChars_eq_ofDigitChars_zero]
  rfl

@[simp] theorem digitsValue_replicate_zero (k : Nat) :
    digitsValue (List.replicate k '0') = 0 := by
  rw [digitsValue, Nat.ofDigitChars_replicate_zero, Nat.mul_zero]

end Binary64

namespace Json.Number

/-! ## Good form -/

/-- A number whose digits are digits, and the first one no needless zero. -/
structure WellFormed (n : Number) : Prop where
  whole : isWhole n.whole = true
  places : ∀ c ∈ n.places, c.isDigit = true

theorem isWhole_cons {c : Char} {rest : List Char} (hc : c ≠ '0')
    (hall : ∀ x ∈ c :: rest, x.isDigit = true) : isWhole (c :: rest) = true := by
  rw [isWhole, List.all_eq_true.mpr hall]
  · simpa using hc
  · rintro rfl rfl
    exact hc rfl

theorem isWhole_digits (n : Nat) : isWhole (Integer.digits n) = true := by
  rcases Nat.eq_zero_or_pos n with rfl | hn
  · decide
  · obtain ⟨c, rest, heq, hc⟩ := Integer.digits_eq_cons hn
    rw [heq]
    exact isWhole_cons hc fun x hx => Integer.isDigit_of_mem_digits (heq ▸ hx)

theorem isDigit_of_mem_zero : ∀ c ∈ ['0'], c.isDigit = true := by
  intro c hc
  obtain rfl := List.mem_singleton.mp hc
  rfl

theorem isDigit_of_isWhole {cs : List Char} (h : isWhole cs = true) :
    cs ≠ [] ∧ ∀ c ∈ cs, c.isDigit = true := by
  rw [isWhole.eq_def] at h
  split at h
  · exact nomatch h
  · exact ⟨List.cons_ne_nil _ _, isDigit_of_mem_zero⟩
  · exact ⟨List.cons_ne_nil _ _, List.all_eq_true.mp (Bool.and_eq_true_iff.mp h).2⟩

/-! ## Characters -/

theorem span_digits {ds rest : List Char} (hds : ∀ c ∈ ds, c.isDigit = true)
    (hrest : rest.head?.all (!·.isDigit) = true) :
    (ds ++ rest).takeWhile Char.isDigit = ds ∧ (ds ++ rest).dropWhile Char.isDigit = rest := by
  rw [List.takeWhile_append_of_pos hds, List.dropWhile_append_of_pos hds]
  cases rest with
  | nil => exact ⟨List.append_nil ds, rfl⟩
  | cons c rest =>
      have hc : c.isDigit = false := by simpa using hrest
      rw [List.takeWhile_cons_of_neg (by simp [hc]), List.dropWhile_cons_of_neg (by simp [hc])]
      exact ⟨List.append_nil ds, rfl⟩

theorem exponent?_exponentChars (e : Option Int) : exponent? (exponentChars e) = some e := by
  cases e with
  | none => rfl
  | some e =>
      rw [exponentChars, exponent?, if_pos (Or.inl rfl)]
      by_cases he : e < 0
      · have hback : -(e.natAbs : Int) = e := by omega
        rw [if_pos he, Integer.signed?_minus, Option.map_some, hback]
      · have hback : (e.natAbs : Int) = e := by omega
        rw [if_neg he, Integer.signed?_plus, Option.map_some, hback]

def tail (n : Number) : List Char :=
  (if n.places = [] then [] else '.' :: n.places) ++ exponentChars n.exponent

theorem head?_exponentChars (e : Option Int) :
    (exponentChars e).head?.all (!·.isDigit) = true := by
  cases e with
  | none => rfl
  | some e => rfl

theorem head?_tail (n : Number) : n.tail.head?.all (!·.isDigit) = true := by
  rw [tail]
  split
  · exact head?_exponentChars n.exponent
  · rfl

theorem places?_tail {n : Number} (h : n.WellFormed) :
    places? n.tail = some (n.places, exponentChars n.exponent) := by
  rw [tail]
  split
  · rename_i hnone
    rw [hnone, List.nil_append]
    cases n.exponent with
    | none => rfl
    | some e => rfl
  · rename_i hsome
    obtain ⟨htake, hdrop⟩ := span_digits h.places (head?_exponentChars n.exponent)
    rw [List.cons_append, places?, htake, hdrop,
      if_neg (by rw [List.isEmpty_iff]; exact hsome)]

theorem unsigned?_tail {n : Number} (h : n.WellFormed) :
    unsigned? n.negative (n.whole ++ n.tail) = some n := by
  obtain ⟨htake, hdrop⟩ := span_digits (isDigit_of_isWhole h.whole).2 (head?_tail n)
  rw [unsigned?]
  simp only [htake, hdrop, h.whole, if_true, places?_tail h, Option.bind_some,
    exponent?_exponentChars, Option.map_some]

/-- A number in good form is read as it is written. -/
theorem ofChars?_chars {n : Number} (h : n.WellFormed) : ofChars? n.chars = some n := by
  have hread := unsigned?_tail h
  obtain ⟨hne, hdigits⟩ := isDigit_of_isWhole h.whole
  obtain ⟨c, rest, hwhole⟩ := List.exists_cons_of_ne_nil hne
  have hchars : n.chars = (if n.negative then ['-'] else []) ++ (n.whole ++ n.tail) := by
    rw [chars, tail, List.append_assoc, List.append_assoc]
  rw [hchars]
  cases hsign : n.negative with
  | true =>
      rw [hsign] at hread
      exact hread
  | false =>
      have hc : c ≠ '-' := by
        rintro rfl
        exact absurd (hdigits '-' (hwhole ▸ List.mem_cons_self)) (by decide)
      rw [hsign] at hread
      simp only [Bool.false_eq_true, if_false, List.nil_append]
      rw [hwhole, List.cons_append] at hread ⊢
      rw [ofChars?.eq_def]
      split
      · rename_i heq
        exact absurd (List.cons.inj heq).1 hc
      · exact hread

/-! ## Layouts -/

def scale (n : Number) : Int := n.exponent.getD 0 - n.places.length

/-- What a number stands for, up to its sign. -/
def value (n : Number) : ℚ := n.digits * 10 ^ n.scale

/-- A number in good form that writes the digits of a decimal with its sign. -/
structure Writes (n : Number) (negative : Bool) (d : Binary64.Decimal) : Prop where
  wellFormed : n.WellFormed
  negative : n.negative = negative
  value : n.value = d.value
  scale : d.exponent ≤ n.scale ∨ -1 ≤ n.scale

variable {d : Binary64.Decimal} {negative : Bool}

/-- The exponent of the first digit of a decimal. -/
def firstExponent (d : Binary64.Decimal) : Int :=
  d.exponent + ((Integer.digits d.digits).length - 1 : Nat)

theorem length_digits_pos (n : Nat) : 0 < (Integer.digits n).length := Nat.length_toDigits_pos

theorem isWhole_take (hd : 0 < d.digits) {k : Nat} (hk : 0 < k) :
    isWhole ((Integer.digits d.digits).take k) = true := by
  obtain ⟨c, rest, heq, hc⟩ := Integer.digits_eq_cons hd
  obtain ⟨k, rfl⟩ := Nat.exists_eq_succ_of_ne_zero hk.ne'
  rw [heq, List.take_succ_cons]
  refine isWhole_cons hc fun x hx => Integer.isDigit_of_mem_digits (n := d.digits) ?_
  rw [heq]
  exact List.mem_of_mem_take (i := k + 1) hx

theorem writes_cut (hd : 0 < d.digits) {k : Nat} (hk : 0 < k) {e : Option Int}
    (hscale : e.getD 0 - ((Integer.digits d.digits).length - k : Nat) = d.exponent) :
    Writes ⟨negative, (Integer.digits d.digits).take k, (Integer.digits d.digits).drop k, e⟩
      negative d := by
  have hscaled : (⟨negative, (Integer.digits d.digits).take k,
      (Integer.digits d.digits).drop k, e⟩ : Number).scale = d.exponent := by
    rw [scale, List.length_drop]
    exact hscale
  refine ⟨⟨isWhole_take hd hk, fun c hc => ?_⟩, rfl, ?_, Or.inl hscaled.ge⟩
  · exact Integer.isDigit_of_mem_digits (List.mem_of_mem_drop hc)
  · rw [value, hscaled, Number.digits, List.take_append_drop, Binary64.digitsValue_digits]
    rfl

theorem writes_scientific (hd : 0 < d.digits) :
    Writes (scientific negative (Integer.digits d.digits) (firstExponent d)) negative d := by
  have hlen := length_digits_pos d.digits
  refine writes_cut hd Nat.one_pos ?_
  rw [firstExponent, Option.getD_some]
  omega

theorem writes_positional (hd : 0 < d.digits) :
    Writes (positional negative (Integer.digits d.digits) (firstExponent d)) negative d := by
  have hlen := length_digits_pos d.digits
  have hfirst : firstExponent d = d.exponent + ((Integer.digits d.digits).length - 1 : Nat) := rfl
  rw [positional]
  split
  · -- Zeros stand between the point and the first digit.
    rename_i hneg
    have hscale : (⟨negative, ['0'], List.replicate (-firstExponent d - 1).toNat '0' ++
        Integer.digits d.digits, none⟩ : Number).scale = d.exponent := by
      rw [scale, Option.getD_none, List.length_append, List.length_replicate]
      omega
    refine ⟨⟨rfl, fun c hc => ?_⟩, rfl, ?_, Or.inl hscale.ge⟩
    · rcases List.mem_append.mp hc with hc | hc
      · rw [List.eq_of_mem_replicate hc]
        rfl
      · exact Integer.isDigit_of_mem_digits hc
    · have hdigits : Binary64.digitsValue ['0'] = 0 := rfl
      rw [value, hscale, Number.digits, Binary64.digitsValue_append, hdigits, Nat.mul_zero,
        Nat.zero_add, Binary64.digitsValue_append, Binary64.digitsValue_replicate_zero,
        Nat.mul_zero, Nat.zero_add, Binary64.digitsValue_digits]
      rfl
  · rename_i hnonneg
    simp only
    split
    · -- Zeros stand between the last digit and the point, and one behind it.
      rename_i hshort
      obtain ⟨k, hk⟩ := Int.eq_ofNat_of_zero_le (by omega : 0 ≤ d.exponent)
      have hzeros : (firstExponent d).toNat + 1 - (Integer.digits d.digits).length = k := by omega
      rw [hzeros]
      refine ⟨⟨?_, isDigit_of_mem_zero⟩, rfl, ?_,
        Or.inr (le_refl (-1 : Int))⟩
      · obtain ⟨c, rest, heq, hc⟩ := Integer.digits_eq_cons hd
        rw [heq, List.cons_append]
        refine isWhole_cons hc fun x hx => ?_
        rw [← List.cons_append, ← heq] at hx
        rcases List.mem_append.mp hx with hx | hx
        · exact Integer.isDigit_of_mem_digits hx
        · rw [List.eq_of_mem_replicate hx]
          rfl
      · have hscale : (⟨negative, Integer.digits d.digits ++ List.replicate k '0', ['0'],
            none⟩ : Number).scale = -1 := rfl
        have hdigits : Binary64.digitsValue ['0'] = 0 := rfl
        rw [value, hscale, Number.digits, Binary64.digitsValue_append, hdigits,
          Binary64.digitsValue_append, Binary64.digitsValue_replicate_zero,
          Binary64.digitsValue_digits, List.length_replicate, Binary64.Decimal.value, hk,
          zpow_natCast]
        push_cast
        simp only [List.length_singleton, pow_one, add_zero, zpow_neg_one]
        ring
    · refine writes_cut hd (Nat.succ_pos _) ?_
      rw [Option.getD_none]
      omega

/-! ## Digits that are taken in -/

theorem le_ofDigitChars (cs : List Char) (k : Nat) : k ≤ Nat.ofDigitChars 10 cs k := by
  rw [Nat.ofDigitChars_eq_ofDigitChars_zero]
  exact Nat.le_trans (Nat.le_mul_of_pos_left k (Nat.pow_pos (by decide))) (Nat.le_add_right _ _)

theorem gather_eq {cs : List Char} {k : Nat} (h : Nat.ofDigitChars 10 cs k < 2 ^ 64) :
    gather k cs = (Nat.ofDigitChars 10 cs k, []) := by
  induction cs generalizing k with
  | nil => rfl
  | cons c cs ih =>
      rw [Nat.ofDigitChars_cons] at h ⊢
      have hfits := Nat.lt_of_le_of_lt (le_ofDigitChars cs _) h
      rw [gather]
      exact (if_pos hfits).trans (ih h)

theorem significand_eq {n : Number} (h : n.digits < 2 ^ 64) :
    n.significand = (n.digits, -(n.places.length : Int)) := by
  have hdigits : n.digits = Nat.ofDigitChars 10 n.places (Nat.ofDigitChars 10 n.whole 0) := by
    rw [digits, Binary64.digitsValue, Nat.ofDigitChars_append]
  rw [hdigits] at h ⊢
  have hwhole := Nat.lt_of_le_of_lt (le_ofDigitChars n.places _) h
  simp only [significand, gather_eq hwhole, gather_eq h, List.length_nil]
  rw [Nat.sub_zero, Int.natCast_zero, Int.zero_sub]

/-- A number of which nothing is rounded but the result. -/
structure Short (n : Number) : Prop where
  digits : n.digits < 2 ^ 53
  scale : n.scale.natAbs ≤ 22
  exponent : (n.exponent.getD 0).natAbs ≤ greatestExponent

/-- A short number is read as the nearest double. -/
theorem Short.binary64?_eq {n : Number} (h : n.Short) :
    n.binary64? = Binary64.ofDecimal? n.negative n.digits n.scale := by
  have hmagnitude : n.magnitude = Binary64.nearestTo (n.digits * 10 ^ n.scale) := by
    have hscale : -(n.places.length : Int) + n.exponent.getD 0 = n.scale := by
      rw [Number.scale]
      omega
    rw [magnitude, significand_eq (Nat.lt_trans h.digits (by decide))]
    simp only [if_neg (Nat.not_lt.mpr h.exponent), hscale]
    exact Binary64.timesTen_eq h.digits h.scale
  have hlog : n.digits.log2 ≤ 52 := by
    rcases Nat.eq_zero_or_pos n.digits with hzero | hpos
    · rw [hzero]
      decide
    · exact Nat.lt_succ_iff.mp ((Nat.log2_lt hpos.ne').mpr h.digits)
  have hscale := h.scale
  rw [binary64?, hmagnitude, Binary64.ofDecimal?_eq]
  · rw [Binary64.decimalReach, Binary64.estimatedLength]
    omega
  · rw [Binary64.decimalReach, Binary64.estimatedLength]
    omega

end Json.Number

theorem Binary64.ofMagnitude_magnitude (x : Binary64) :
    ofMagnitude x.isNegative x.magnitude = x := by
  obtain ⟨bits⟩ := x
  have hlt := bits.toNat_lt
  rw [ofMagnitude, isNegative, magnitude, signBit, Binary64.mk.injEq]
  have hback : (if decide (0x8000000000000000 ≤ bits.toNat) = true then
      0x8000000000000000 + bits.toNat % 0x8000000000000000
      else bits.toNat % 0x8000000000000000) = bits.toNat := by
    by_cases hsign : 0x8000000000000000 ≤ bits.toNat
    · rw [if_pos (decide_eq_true hsign)]
      omega
    · rw [if_neg (by simpa using hsign)]
      omega
  rw [hback, UInt64.ofNat_toNat]

namespace Json.Number

/-! ## Doubles and integers -/

theorem ofDecimal?_of_writes {n : Number} {negative : Bool} {m : ℕ}
    (h : n.Writes negative (Binary64.shortest m)) (hpos : 0 < m)
    (hfinite : m < Binary64.infinityMagnitude) :
    Binary64.ofDecimal? n.negative n.digits n.scale = some (.ofMagnitude negative m) := by
  have hlow : -1074 ≤ n.scale := by
    have := Binary64.shortest_exponent m
    have := h.scale
    omega
  rw [h.negative]
  exact Binary64.ofDecimal?_of_value negative hlow h.value hpos hfinite

/-- A finite double is written as a number in good form, and is nearest to it. -/
theorem ofBinary64?_writes {x : Binary64} (hx : x.isFinite = true) :
    ∃ n, ofBinary64? x = some n ∧ n.WellFormed ∧
      Binary64.ofDecimal? n.negative n.digits n.scale = some x := by
  have hfinite : x.magnitude < Binary64.infinityMagnitude := of_decide_eq_true hx
  rw [ofBinary64?, if_pos hx]
  by_cases hzero : x.magnitude = 0
  · refine ⟨_, rfl, ?_, ?_⟩
    · rw [if_pos hzero]
      exact ⟨rfl, isDigit_of_mem_zero⟩
    · have hnearest : Binary64.ofDecimal? x.isNegative 0 (-1) =
          some (.ofMagnitude x.isNegative 0) := rfl
      rw [if_pos hzero]
      refine hnearest.trans ?_
      rw [← hzero, Binary64.ofMagnitude_magnitude]
  · have hpos : 0 < x.magnitude := Nat.pos_of_ne_zero hzero
    have hdigits := Binary64.shortest_digits_pos hpos
    have hwrites : (ofMagnitude x.isNegative x.magnitude).Writes x.isNegative
        (Binary64.shortest x.magnitude) := by
      simp only [ofMagnitude]
      split
      · exact writes_positional hdigits
      · exact writes_scientific hdigits
    refine ⟨_, rfl, ?_, ?_⟩
    · rw [if_neg hzero]
      exact hwrites.wellFormed
    · rw [if_neg hzero, ofDecimal?_of_writes hwrites hpos hfinite,
        Binary64.ofMagnitude_magnitude]

theorem isFinite_of_ofBinary64? {x : Binary64} {n : Number} (h : ofBinary64? x = some n) :
    x.isFinite = true := by
  rw [ofBinary64?] at h
  split at h
  · assumption
  · cases h

end Json.Number

/-- A double is read from the number that is written for it. -/
def Binary64.ReadsBack (x : Binary64) : Prop :=
  (Json.Number.ofBinary64? x).bind Json.Number.binary64? = some x

instance (x : Binary64) : Decidable x.ReadsBack := inferInstanceAs (Decidable (_ = _))

theorem Binary64.ReadsBack.isFinite {x : Binary64} (h : x.ReadsBack) : x.isFinite = true := by
  obtain ⟨n, hn, -⟩ := Option.bind_eq_some_iff.mp h
  exact Json.Number.isFinite_of_ofBinary64? hn

namespace Json.Number

/-- Doubles that are written as short numbers read back. -/
theorem readsBack_of_short {x : Binary64} {n : Number} (hn : ofBinary64? x = some n)
    (h : n.Short) : x.ReadsBack := by
  obtain ⟨written, hwritten, -, hnearest⟩ := ofBinary64?_writes (isFinite_of_ofBinary64? hn)
  obtain rfl : written = n := Option.some.inj (hwritten.symm.trans hn)
  rw [Binary64.ReadsBack, hn, Option.bind_some, h.binary64?_eq, hnearest]

theorem wellFormed_ofInt (n : Int) : (ofInt n).WellFormed :=
  ⟨isWhole_digits n.natAbs, fun _ hc => absurd hc List.not_mem_nil⟩

theorem int64?_ofInt (d : Int64) : (ofInt d.toInt).int64? = some d := by
  have hdigits : (ofInt d.toInt).digits = d.toInt.natAbs := by
    rw [Number.digits, ofInt, List.append_nil, Binary64.digitsValue_digits]
  have hsign : ¬((ofInt d.toInt).negative = true ∧ (ofInt d.toInt).digits = 0) := by
    rw [hdigits, ofInt, decide_eq_true_eq]
    omega
  rw [int64?, if_pos ⟨rfl, rfl, hsign⟩, hdigits, ofInt]
  have hback : (if decide (d.toInt < 0) = true then -(d.toInt.natAbs : Int)
      else (d.toInt.natAbs : Int)) = d.toInt := by
    by_cases hneg : d.toInt < 0
    · rw [if_pos (decide_eq_true hneg)]
      omega
    · rw [if_neg (by simpa using hneg)]
      omega
  rw [hback, Integer.toInt64?_toInt]

/-- An integer of 64 bits is rounded only once. -/
theorem magnitude_of_integer {n : Number} (hplaces : n.places = []) (hexponent : n.exponent = none)
    (h : n.digits < 2 ^ 64) : n.magnitude = Binary64.nearest n.digits 1 := by
  have hwritten : ¬greatestExponent < (0 : Int).natAbs := Nat.not_lt_zero _
  have hscale : -(([] : List Char).length : Int) + 0 = 0 := rfl
  rw [magnitude, significand_eq h, hplaces, hexponent]
  simp only [Option.getD_none, if_neg hwritten, hscale]
  rw [Binary64.timesTen_zero]

theorem isSome_binary64?_ofInt (d : Int64) : (ofInt d.toInt).binary64?.isSome = true := by
  have hdigits : (ofInt d.toInt).digits = d.toInt.natAbs := by
    rw [Number.digits, ofInt, List.append_nil, Binary64.digitsValue_digits]
  have hbound : (ofInt d.toInt).digits < 2 ^ 64 := by
    have hlow := d.le_toInt
    have hhigh := d.toInt_lt
    omega
  have hfinite := Binary64.nearestTo_natCast_lt hbound
  rw [binary64?, magnitude_of_integer rfl rfl hbound, Binary64.nearest_eq _ Nat.one_pos,
    Nat.cast_one, div_one, if_pos hfinite, Option.isSome_some]

end Json.Number

end Telemetry
