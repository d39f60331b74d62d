/-
Subnets are prefixes.

A subnet is written as an address, a slash and a length (`Subnet.Written`).  It is accepted when
the length is within the address, and then the subnet contains an address exactly when it agrees
with the written one in as many bits as the length says (`Subnet.accepted_iff_agrees`); the bits
behind them do not matter.  A word is cut to its first bits by a mask, and the shift that makes
the mask is always within the word (`leadingMask?`).

The text of a subnet is read as this subnet, as the text of an address is read as the address.
-/
import Telemetry.Net.Subnet
import Telemetry.Proofs.Net.Address
import Telemetry.Proofs.Text.Marks
import Telemetry.Proofs.Text.Numeral

namespace Telemetry

/-! ## Masks -/

/-- The mask, if neither the difference nor the shift that make it leave their ranges. -/
def leadingMask? (width length : Nat) : Option (BitVec width) :=
  if length = 0 then some 0
  else if length ≤ width ∧ width - length < width then
    some (BitVec.allOnes width <<< (width - length))
  else none

theorem leadingMask?_eq {width length : Nat} (h : length ≤ width) :
    leadingMask? width length = some (leadingMask width length) := by
  rw [leadingMask?, leadingMask]
  by_cases hzero : length = 0
  · rw [if_pos hzero, if_pos hzero]
  · rw [if_neg hzero, if_neg hzero, if_pos ⟨h, by omega⟩]

theorem getMsbD_leadingMask {width length : Nat} (h : length ≤ width) (i : Nat) :
    (leadingMask width length).getMsbD i = decide (i < length) := by
  rw [leadingMask]
  split
  · rename_i hzero
    simp [hzero]
  · rw [BitVec.getMsbD_shiftLeft, BitVec.getMsbD_allOnes, decide_eq_decide]
    omega

theorem getMsbD_leadingBits {width length : Nat} (h : length ≤ width) (a : BitVec width)
    (i : Nat) : (leadingBits length a).getMsbD i = (a.getMsbD i && decide (i < length)) := by
  rw [leadingBits, BitVec.getMsbD_and, getMsbD_leadingMask h]

/-- Words have the same first bits when they agree in them. -/
theorem leadingBits_eq_iff {width length : Nat} (h : length ≤ width) {a b : BitVec width} :
    leadingBits length a = leadingBits length b ↔ ∀ i < length, a.getMsbD i = b.getMsbD i := by
  constructor
  · intro heq i hi
    have hbit := congrArg (BitVec.getMsbD · i) heq
    simpa only [getMsbD_leadingBits h, decide_eq_true hi, Bool.and_true] using hbit
  · intro hagree
    refine BitVec.eq_of_getMsbD_eq fun i _ => ?_
    rw [getMsbD_leadingBits h, getMsbD_leadingBits h]
    by_cases hi : i < length
    · rw [hagree i hi]
    · rw [decide_eq_false hi, Bool.and_false, Bool.and_false]

theorem leadingBits_leadingBits {width : Nat} (length : Nat) (a : BitVec width) :
    leadingBits length (leadingBits length a) = leadingBits length a := by
  rw [leadingBits, leadingBits, BitVec.and_assoc, BitVec.and_self]

/-! ## Agreement -/

namespace IpAddr

/-- How many bits an address of the family has. -/
def width : IpAddr → Nat
  | v4 _ => 32
  | v6 _ => 128

/-- A bit of an address, the highest one first. -/
def bit (a : IpAddr) (i : Nat) : Bool :=
  match a with
  | v4 bits => bits.getMsbD i
  | v6 bits => bits.getMsbD i

/-- Addresses of one family with the same first bits. -/
structure Agree (length : Nat) (a b : IpAddr) : Prop where
  family : a.width = b.width
  bits : ∀ i < length, a.bit i = b.bit i

/-- An address next to a short one: a long one that stands for a short one is that one. -/
def beside (a b : IpAddr) : IpAddr :=
  match a, b with
  | v4 _, v6 bits => ((mapped? bits).map v4).getD (v6 bits)
  | _, b => b

end IpAddr

namespace Subnet

/-- The subnet of the addresses that agree with one in its first bits. -/
def ofPrefix (a : IpAddr) (length : Nat) : Subnet :=
  match a with
  | .v4 bits => v4 (leadingBits length bits) length
  | .v6 bits => v6 (leadingBits length bits) length

theorem ofAddress?_eq_some_iff {a : IpAddr} {length : Nat} {n : Subnet} :
    ofAddress? a length = some n ↔ length ≤ a.width ∧ n = ofPrefix a length := by
  cases a with
  | v4 bits =>
      rw [ofAddress?, Option.ite_none_right_eq_some, Option.some.injEq]
      exact and_congr_right fun _ => eq_comm
  | v6 bits =>
      rw [ofAddress?, Option.ite_none_right_eq_some, Option.some.injEq]
      exact and_congr_right fun _ => eq_comm

/-- A subnet contains what agrees with its address. -/
theorem contains_ofPrefix {a : IpAddr} {length : Nat} (h : length ≤ a.width) (b : IpAddr) :
    (ofPrefix a length).contains b = true ↔ (a.beside b).Agree length a := by
  cases a with
  | v4 x =>
      have hshort : ∀ y : BitVec 32, leadingBits length y = leadingBits length x ↔
          (IpAddr.v4 y).Agree length (.v4 x) := fun y =>
        (leadingBits_eq_iff h).trans ⟨fun hbits => ⟨rfl, hbits⟩, fun hagree => hagree.bits⟩
      cases b with
      | v4 y => exact decide_eq_true_iff.trans (hshort y)
      | v6 y =>
          rw [ofPrefix, contains, IpAddr.beside]
          cases IpAddr.mapped? y with
          | some short => exact decide_eq_true_iff.trans (hshort short)
          | none => exact iff_of_false nofun fun hagree => nomatch hagree.family
  | v6 x =>
      cases b with
      | v4 y => exact iff_of_false nofun fun hagree => nomatch hagree.family
      | v6 y =>
          exact (decide_eq_true_iff.trans (leadingBits_eq_iff h)).trans
            ⟨fun hbits => ⟨rfl, hbits⟩, fun hagree => hagree.bits⟩

theorem ofPrefix_congr {a b : IpAddr} {length : Nat} (ha : length ≤ a.width)
    (h : a.Agree length b) : ofPrefix a length = ofPrefix b length := by
  cases a with
  | v4 x =>
      cases b with
      | v4 y => exact congrArg (v4 · length) ((leadingBits_eq_iff ha).mpr h.bits)
      | v6 y => exact nomatch h.family
  | v6 x =>
      cases b with
      | v4 y => exact nomatch h.family
      | v6 y => exact congrArg (v6 · length) ((leadingBits_eq_iff ha).mpr h.bits)

/-- The address with only its first bits. -/
def network : Subnet → IpAddr
  | v4 bits _ => .v4 bits
  | v6 bits _ => .v6 bits

/-- How many bits count. -/
def prefixLength : Subnet → Nat
  | v4 _ length => length
  | v6 _ length => length

theorem text_eq (n : Subnet) : n.text = n.network.text ++ "/" ++ Integer.ofNat n.prefixLength := by
  cases n <;> rfl

theorem width_network_ofPrefix (a : IpAddr) (length : Nat) :
    (ofPrefix a length).network.width = a.width := by
  cases a <;> rfl

theorem prefixLength_ofPrefix (a : IpAddr) (length : Nat) :
    (ofPrefix a length).prefixLength = length := by
  cases a <;> rfl

theorem ofPrefix_network (a : IpAddr) (length : Nat) :
    ofPrefix (ofPrefix a length).network length = ofPrefix a length := by
  cases a with
  | v4 bits => exact congrArg (v4 · length) (leadingBits_leadingBits length bits)
  | v6 bits => exact congrArg (v6 · length) (leadingBits_leadingBits length bits)

end Subnet

/-! ## Texts -/

namespace Text

theorem trimChars_eq_self {cs : List Char} (h : ∀ c ∈ cs, isBlank c = false) :
    trimChars cs = cs := by
  have hdrop : ∀ ds : List Char, (∀ c ∈ ds, isBlank c = false) → ds.dropWhile isBlank = ds := by
    intro ds hds
    cases ds with
    | nil => rfl
    | cons d ds => rw [List.dropWhile_cons, hds d List.mem_cons_self]; rfl
  rw [trimChars, hdrop cs h, hdrop cs.reverse fun c hc => h c (List.mem_reverse.mp hc),
    List.reverse_reverse]

end Text

namespace Subnet

/-- A text that writes an address, a slash and a length, perhaps between blanks. -/
def Written (s : String) (a : IpAddr) (length : Nat) : Prop :=
  ∃ address number, Text.trim s = address ++ "/" ++ number ∧
    IpAddr.ofText? address = some a ∧ Integer.below? 256 number = some length

theorem written_iff {s : String} {a : IpAddr} {length : Nat} :
    Written s a length ↔ ∃ x y, Text.cut? '/' (Text.trimChars s.toList) = some (x, y) ∧
      IpAddr.ofText? (String.ofList x) = some a ∧
      Integer.below? 256 (String.ofList y) = some length := by
  simp only [Text.cut?_eq_some_iff]
  constructor
  · rintro ⟨address, number, htext, ha, hlength⟩
    refine ⟨address.toList, number.toList, ⟨?_, ?_⟩, ?_, ?_⟩
    · have hchars := congrArg String.toList htext
      rwa [Text.trim, String.toList_ofList, String.toList_append, String.toList_append,
        List.append_assoc] at hchars
    · -- No address has a slash in it.
      intro hslash
      rcases IpAddr.isMark_of_ofText? ha '/' hslash with hdigit | hpoint | hcolon
      · cases hdigit
      · cases hpoint
      · cases hcolon
    · rwa [String.ofList_toList]
    · rwa [String.ofList_toList]
  · rintro ⟨x, y, ⟨htext, -⟩, ha, hlength⟩
    refine ⟨String.ofList x, String.ofList y, String.toList_inj.mp ?_, ha, hlength⟩
    rw [Text.trim, htext, String.toList_append, String.toList_append]
    simp only [String.toList_ofList]
    exact List.append_cons x '/' y

/-- A text writes one address and one length. -/
theorem Written.unique {s : String} {a b : IpAddr} {m n : Nat} (h : Written s a m)
    (h' : Written s b n) : a = b ∧ m = n := by
  obtain ⟨x, y, hcut, ha, hm⟩ := written_iff.mp h
  obtain ⟨x', y', hcut', hb, hn⟩ := written_iff.mp h'
  obtain ⟨rfl, rfl⟩ := Prod.mk.inj (Option.some.inj (hcut.symm.trans hcut'))
  exact ⟨Option.some.inj (ha.symm.trans hb), Option.some.inj (hm.symm.trans hn)⟩

theorem ofText?_eq_some_iff {s : String} {n : Subnet} :
    ofText? s = some n ↔
      ∃ a length, Written s a length ∧ length ≤ a.width ∧ n = ofPrefix a length := by
  simp only [ofText?, Option.bind_eq_some_iff, Prod.exists, ofAddress?_eq_some_iff, written_iff]
  constructor
  · rintro ⟨x, y, hcut, a, ha, length, hlength, hfits⟩
    exact ⟨a, length, ⟨x, y, hcut, ha, hlength⟩, hfits⟩
  · rintro ⟨a, length, ⟨x, y, hcut, ha, hlength⟩, hfits⟩
    exact ⟨x, y, hcut, a, ha, length, hlength, hfits⟩

theorem parse_eq_ok_iff {s : String} {n : Subnet} :
    parse s = .ok n ↔
      ∃ a length, Written s a length ∧ length ≤ a.width ∧ n = ofPrefix a length := by
  rw [← ofText?_eq_some_iff, parse]
  cases ofText? s with
  | some m =>
      exact ⟨fun h => congrArg some (Except.ok.inj h), fun h => congrArg _ (Option.some.inj h)⟩
  | none => exact iff_of_false nofun nofun

theorem parse_eq_error_iff {s : String} {f : Fault} :
    parse s = .error f ↔
      (∀ n, parse s ≠ .ok n) ∧ f = .badRequest ("invalid trusted subnet: " ++ s) := by
  rw [parse]
  cases ofText? s with
  | some m => exact iff_of_false nofun fun h => h.1 m rfl
  | none =>
      constructor
      · intro h
        exact ⟨nofun, (Except.error.inj h).symm⟩
      · rintro ⟨-, rfl⟩
        rfl

/-! ## The text of a subnet -/

theorem isBlank_eq_false {c : Char} (hlow : 0x21 ≤ c.toNat) (hhigh : c.toNat < 0x7F) :
    Text.isBlank c = false := by
  simp only [Text.isBlank, decide_eq_false_iff_not]
  omega

theorem isBlank_of_isDigit {c : Char} (h : c.isDigit = true) : Text.isBlank c = false := by
  simp only [Char.isDigit, Bool.and_eq_true, decide_eq_true_eq, ge_iff_le,
    UInt32.le_iff_toNat_le] at h
  exact isBlank_eq_false (Nat.le_trans (by decide) h.1) (Nat.lt_of_le_of_lt h.2 (by decide))

theorem isBlank_of_value? {c : Char} {d : Nat} (h : Hex.value? c = some d) :
    Text.isBlank c = false := by
  have hrange : ∀ {low high : Char}, low ≤ c ∧ c ≤ high → 0x21 ≤ low.toNat → high.toNat < 0x7F →
      Text.isBlank c = false := fun hc hlow hhigh =>
    isBlank_eq_false (Nat.le_trans hlow hc.1) (Nat.lt_of_le_of_lt hc.2 hhigh)
  rw [Hex.value?] at h
  split at h
  · rename_i hc
    exact hrange hc (by decide) (by decide)
  · split at h
    · rename_i hc
      exact hrange hc (by decide) (by decide)
    · split at h
      · rename_i hc
        exact hrange hc (by decide) (by decide)
      · cases h

theorem isBlank_of_isMark {c : Char} (h : IpAddr.IsMark c) : Text.isBlank c = false := by
  rcases h with hdigit | rfl | rfl
  · obtain ⟨d, hd⟩ := Option.isSome_iff_exists.mp hdigit
    exact isBlank_of_value? (Option.filter_eq_some_iff.mp hd).1
  · rfl
  · rfl

theorem written_text {n : Subnet} (h : n.prefixLength < 256) :
    Written n.text n.network n.prefixLength := by
  have haddress := IpAddr.ofText?_text n.network
  refine ⟨n.network.text, Integer.ofNat n.prefixLength, ?_, haddress, ?_⟩
  · have hblank : ∀ c ∈ n.text.toList, Text.isBlank c = false := by
      intro c hc
      rw [text_eq, String.toList_append, String.toList_append] at hc
      rcases List.mem_append.mp hc with hfirst | hnumber
      · rcases List.mem_append.mp hfirst with hmark | hslash
        · exact isBlank_of_isMark (IpAddr.isMark_of_ofText? haddress c hmark)
        · obtain rfl := List.mem_singleton.mp hslash
          rfl
      · rw [Integer.ofNat, String.toList_ofList] at hnumber
        exact isBlank_of_isDigit (Integer.isDigit_of_mem_digits hnumber)
    rw [Text.trim, Text.trimChars_eq_self hblank, String.ofList_toList, text_eq]
  · exact Integer.below?_ofNat h

/-- What is accepted is shown as a text that is accepted as the same subnet. -/
theorem parse_text {a : IpAddr} {length : Nat} (h : length ≤ a.width) :
    parse (ofPrefix a length).text = .ok (ofPrefix a length) := by
  have hshort : length < 256 := by
    have hwidth : a.width ≤ 128 := by
      cases a with
      | v4 bits => exact Nat.le_of_ble_eq_true rfl
      | v6 bits => exact Nat.le_refl 128
    omega
  have hwritten := written_text (n := ofPrefix a length) (by rwa [prefixLength_ofPrefix])
  rw [prefixLength_ofPrefix] at hwritten
  refine parse_eq_ok_iff.mpr ⟨_, length, hwritten, ?_, (ofPrefix_network a length).symm⟩
  rwa [width_network_ofPrefix]

/-- Membership is agreement in the first bits.  A text is accepted when it writes, perhaps between
blanks, an address, a slash and a length that is not more than the address has bits; then the
subnet contains what agrees with this address in so many bits, a long address that stands for a
short one taken for that one beside a short address.  The bits behind them do not matter, the mask
is made within its range, and the text of the subnet is accepted as the same subnet. -/
theorem accepted_iff_agrees (s : String) :
    ((∃ n, parse s = .ok n) ↔ ∃ a length, Written s a length ∧ length ≤ a.width) ∧
    (∀ f, parse s = .error f → f = .badRequest ("invalid trusted subnet: " ++ s)) ∧
    ∀ a length n, Written s a length → parse s = .ok n →
      (∀ b, n.contains b = true ↔ (a.beside b).Agree length a) ∧
      (∀ s' b, Written s' b length → b.Agree length a → parse s' = .ok n) ∧
      leadingMask? a.width length = some (leadingMask a.width length) ∧
      parse n.text = .ok n := by
  refine ⟨?_, fun f hf => (parse_eq_error_iff.mp hf).2, ?_⟩
  · simp only [parse_eq_ok_iff]
    constructor
    · rintro ⟨n, a, length, hwritten, hfits, -⟩
      exact ⟨a, length, hwritten, hfits⟩
    · rintro ⟨a, length, hwritten, hfits⟩
      exact ⟨_, a, length, hwritten, hfits, rfl⟩
  · intro a length n hwritten hparse
    obtain ⟨a', length', hwritten', hfits, rfl⟩ := parse_eq_ok_iff.mp hparse
    obtain ⟨rfl, rfl⟩ := hwritten.unique hwritten'
    refine ⟨contains_ofPrefix hfits, ?_, leadingMask?_eq hfits, parse_text hfits⟩
    intro s' b hb hagree
    have hwidth : length ≤ b.width := by rwa [hagree.family]
    exact parse_eq_ok_iff.mpr ⟨b, length, hb, hwidth, (ofPrefix_congr hwidth hagree).symm⟩

end Subnet

end Telemetry
