/-
The text of an address is read as this address.

Reading an address takes a number as long as digits follow, so a number is read back when no
digit follows its text (`IpAddr.number?_toDigits`).  Groups are read until something follows that
is neither a group nor a short address; that nothing within the text of a group is taken for a
short address shows at the first character that is no decimal digit, which is never a point
(`IpAddr.readV4?_group`).

What reading takes from a text are digits, points and colons (`IpAddr.Takes`), so these are the
only characters of a text that is an address.

A long address is written with its longest run of zeros left out.  That run is one, and it is found
where it is said to be (`IpAddr.longestZeros_split`), so the groups on both sides of a double colon
are read back with zeros between them.  A long address that stands for a short one is written with
the short one at its end.  No text of the one kind is taken for the other.
-/
import Mathlib.Data.List.TakeWhile
import Telemetry.Net.Address
import Telemetry.Proofs.Json.Number

namespace Telemetry.IpAddr

/-! ## Numbers -/

/-- Whether a character is a digit of a base. -/
def isDigit (base : Nat) (c : Char) : Bool := (digit? base c).isSome

/-- No digit of a base follows. -/
def Ends (base : Nat) (rest : List Char) : Prop := ∀ c ∈ rest.head?, isDigit base c = false

section

variable {base : Nat} (hbase : base ≤ 16)

include hbase

theorem digit?_digitChar {d : Nat} (hd : d < base) : digit? base d.digitChar = some d := by
  have hvalue : Hex.value? d.digitChar = some d := Hex.value?_digit (Nat.lt_of_lt_of_le hd hbase)
  rw [digit?, hvalue, Option.filter_some, if_pos (decide_eq_true hd)]

theorem filterMap_toDigits (hpos : 1 < base) (n : Nat) :
    ((Nat.toDigits base n).filterMap (digit? base)).foldl (fun n d => n * base + d) 0 = n ∧
      ∀ c ∈ Nat.toDigits base n, isDigit base c = true := by
  induction n using Nat.strongRecOn with
  | ind n ih =>
      by_cases hsmall : n < base
      · rw [Nat.toDigits_of_lt_base hsmall]
        have hdigit := digit?_digitChar hbase hsmall
        constructor
        · rw [List.filterMap_cons_some hdigit, List.filterMap_nil, List.foldl_cons, List.foldl_nil,
            Nat.zero_mul, Nat.zero_add]
        · intro c hc
          rw [List.mem_singleton.mp hc, isDigit, hdigit]
          rfl
      · have hlast : n % base < base := Nat.mod_lt n (by omega)
        have hdigit := digit?_digitChar hbase hlast
        have hless : n / base < n := Nat.div_lt_self (by omega) hpos
        obtain ⟨hvalue, hdigits⟩ := ih (n / base) hless
        rw [Nat.toDigits_of_base_le hpos (Nat.le_of_not_lt hsmall)]
        constructor
        · rw [List.filterMap_append, List.foldl_append, hvalue, List.filterMap_cons_some hdigit,
            List.filterMap_nil, List.foldl_cons, List.foldl_nil, Nat.mul_comm]
          exact Nat.div_add_mod n base
        · intro c hc
          rcases List.mem_append.mp hc with hmem | hmem
          · exact hdigits c hmem
          · rw [List.mem_singleton.mp hmem, isDigit, hdigit]
            rfl

end

theorem takeWhile_digits {base : Nat} {cs rest : List Char} (hcs : ∀ c ∈ cs, isDigit base c = true)
    (hrest : Ends base rest) :
    (cs ++ rest).takeWhile (isDigit base) = cs := by
  rw [List.takeWhile_append_of_pos hcs]
  cases rest with
  | nil => rw [List.takeWhile_nil, List.append_nil]
  | cons c rest =>
      have hstop := hrest c rfl
      rw [List.takeWhile_cons, hstop]
      exact List.append_nil cs

theorem length_filterMap_digits {base : Nat} {cs : List Char}
    (hcs : ∀ c ∈ cs, isDigit base c = true) :
    (cs.filterMap (digit? base)).length = cs.length := by
  rw [List.filterMap_length_eq_length]
  exact hcs

theorem leading_eq (base : Nat) (cs : List Char) :
    leading base cs = (cs.takeWhile (isDigit base)).filterMap (digit? base) := rfl

theorem number?_toDigits {base n bound : Nat} {most : Option Nat} {rest : List Char}
    (hpos : 1 < base) (hbase : base ≤ 16) (hn : n < bound)
    (hmost : ∀ m ∈ most, 0 < m ∧ n < base ^ m) (hrest : Ends base rest) :
    number? base most bound (Nat.toDigits base n ++ rest) = some (n, rest) := by
  obtain ⟨hvalue, hdigits⟩ := filterMap_toDigits hbase hpos n
  have hleading : leading base (Nat.toDigits base n ++ rest) =
      (Nat.toDigits base n).filterMap (digit? base) := by
    rw [leading_eq, takeWhile_digits hdigits hrest]
  have hlength := length_filterMap_digits hdigits
  have hne : (Nat.toDigits base n).filterMap (digit? base) ≠ [] := by
    rw [← List.length_pos_iff, hlength]
    exact Nat.length_toDigits_pos
  have hfits : ¬(most.any fun m => decide (m < (Nat.toDigits base n).length)) = true := by
    cases most with
    | none => exact nofun
    | some m =>
        obtain ⟨hm, hpow⟩ := hmost m rfl
        have hle := (Nat.length_toDigits_le_iff hpos hm).mpr hpow
        simpa using hle
  rw [number?]
  simp only [hleading, hvalue, hlength]
  rw [if_neg, List.drop_left]
  rintro (hnil | hlong | hbound)
  · exact hne hnil
  · exact hfits hlong
  · exact absurd hn (Nat.not_lt.mpr hbound)

/-! ## Short addresses -/

@[simp] theorem after?_cons (c : Char) (rest : List Char) : after? c (c :: rest) = some rest :=
  if_pos rfl

theorem octet?_digits {n : Nat} {rest : List Char} (hn : n < 256) (hrest : Ends 10 rest) :
    octet? (Integer.digits n ++ rest) = some (n, rest) := by
  have hnumber : number? 10 (some 3) 256 (Integer.digits n ++ rest) = some (n, rest) := by
    refine number?_toDigits (by decide) (by decide) hn ?_ hrest
    rintro m hm
    obtain rfl := Option.some.inj hm
    omega
  rw [octet?, hnumber, Option.filter_some, if_pos]
  rcases Nat.eq_zero_or_pos n with rfl | hpos
  · have hzero : Integer.digits 0 = ['0'] := rfl
    rw [hzero]
    simp
  · obtain ⟨c, more, hdigits, hc⟩ := Integer.digits_eq_cons hpos
    rw [hdigits]
    simp [hc]

theorem isDigit_point (base : Nat) : isDigit base '.' = false := rfl

theorem isDigit_colon (base : Nat) : isDigit base ':' = false := rfl

theorem ends_cons {base : Nat} {c : Char} (h : isDigit base c = false) (rest : List Char) :
    Ends base (c :: rest) := by
  rintro d hd
  obtain rfl := Option.some.inj hd
  exact h

theorem ends_nil (base : Nat) : Ends base [] := nofun

theorem textV4_eq (a : BitVec 32) :
    textV4 a = Integer.digits (a.toNat >>> 24 % 256) ++ '.' ::
      (Integer.digits (a.toNat >>> 16 % 256) ++ '.' ::
        (Integer.digits (a.toNat >>> 8 % 256) ++ '.' :: Integer.digits (a.toNat >>> 0 % 256))) := by
  simp only [textV4, List.map_cons, List.map_nil, List.intercalate, List.intersperse,
    List.flatten_cons, List.flatten_nil, List.append_nil, List.singleton_append]

/-- A short address is read back when no decimal digit follows. -/
theorem readV4?_textV4 (a : BitVec 32) {rest : List Char} (hrest : Ends 10 rest) :
    readV4? (textV4 a ++ rest) = some (a, rest) := by
  have hoctet : ∀ k, a.toNat >>> k % 256 < 256 := fun k => Nat.mod_lt _ (by decide)
  have hpoint : ∀ cs, Ends 10 ('.' :: cs) := ends_cons (isDigit_point 10)
  have hbits : BitVec.ofNat 32 (((a.toNat >>> 24 % 256 * 256 + a.toNat >>> 16 % 256) * 256 +
      a.toNat >>> 8 % 256) * 256 + a.toNat >>> 0 % 256) = a := by
    apply BitVec.eq_of_toNat_eq
    have ha := a.isLt
    simp only [BitVec.toNat_ofNat, Nat.shiftRight_eq_div_pow]
    omega
  rw [textV4_eq]
  simp only [List.append_assoc, List.cons_append, readV4?, Option.bind_eq_bind,
    octet?_digits (hoctet _) (hpoint _), octet?_digits (hoctet _) hrest, Option.bind_some,
    after?_cons, hbits]

/-! ## Groups -/

/-- Nothing follows, or a colon. -/
def ColonOrEnd (rest : List Char) : Prop := ∀ c ∈ rest.head?, c = ':'

theorem ColonOrEnd.ends {base : Nat} {rest : List Char} (h : ColonOrEnd rest) : Ends base rest := by
  rintro c hc
  rw [h c hc]
  exact isDigit_colon base

theorem drop_takeWhile (p : Char → Bool) (cs : List Char) :
    cs.drop (cs.takeWhile p).length = cs.dropWhile p := by
  induction cs with
  | nil => rfl
  | cons c cs ih => cases h : p c <;> simp [h, ih]

theorem rest_of_number? {base bound n : Nat} {most : Option Nat} {cs rest : List Char}
    (h : number? base most bound cs = some (n, rest)) :
    rest = cs.dropWhile (isDigit base) := by
  have hlength : (leading base cs).length = (cs.takeWhile (isDigit base)).length :=
    length_filterMap_digits fun c hc => List.mem_takeWhile_imp hc
  rw [number?] at h
  split at h
  · cases h
  · obtain ⟨-, rfl⟩ := Prod.mk.inj (Option.some.inj h)
    rw [hlength, drop_takeWhile]

theorem after?_eq_some_iff {c : Char} {cs rest : List Char} :
    after? c cs = some rest ↔ cs = c :: rest := by
  cases cs with
  | nil => exact iff_of_false nofun nofun
  | cons d cs =>
      rw [after?]
      split
      · rename_i heq
        rw [heq, List.cons.injEq, Option.some.injEq]
        exact (and_iff_right rfl).symm
      · rename_i hne
        refine iff_of_false nofun fun heq => hne ?_
        exact (List.cons.inj heq).1.symm

theorem number?_of_octet? {n : Nat} {cs rest : List Char} (h : octet? cs = some (n, rest)) :
    number? 10 (some 3) 256 cs = some (n, rest) :=
  (Option.filter_eq_some_iff.mp h).1

/-- Where a short address is read, a point is the first character that is no decimal digit. -/
theorem dropWhile_of_readV4? {cs rest : List Char} {a : BitVec 32}
    (h : readV4? cs = some (a, rest)) :
    ∃ left, cs.dropWhile (isDigit 10) = '.' :: left := by
  rw [readV4?] at h
  simp only [Option.bind_eq_bind, Option.bind_eq_some_iff] at h
  obtain ⟨⟨x, left⟩, hx, left', hleft, -⟩ := h
  rw [← rest_of_number? (number?_of_octet? hx)]
  exact ⟨left', after?_eq_some_iff.mp hleft⟩

theorem readV4?_of_head {cs : List Char} (h : ColonOrEnd cs) : readV4? cs = none := by
  cases hread : readV4? cs with
  | none => rfl
  | some found =>
      obtain ⟨left, hpoint⟩ := dropWhile_of_readV4? hread
      cases cs with
      | nil => cases hpoint
      | cons c cs =>
          obtain rfl := h c rfl
          cases hpoint

theorem number?_of_head {cs : List Char} (h : ColonOrEnd cs) (base bound : Nat)
    (most : Option Nat) : number? base most bound cs = none := by
  have hnone : leading base cs = [] := by
    cases cs with
    | nil => rfl
    | cons c cs =>
        obtain rfl := h c rfl
        rfl
  rw [number?, hnone]
  exact if_pos (.inl rfl)

/-- The text of a group is not taken for a short address. -/
theorem readV4?_group (g : Nat) {rest : List Char} (hrest : ColonOrEnd rest) :
    readV4? (Nat.toDigits 16 g ++ rest) = none := by
  cases hread : readV4? (Nat.toDigits 16 g ++ rest) with
  | none => rfl
  | some found =>
      obtain ⟨left, hpoint⟩ := dropWhile_of_readV4? hread
      rw [List.dropWhile_append] at hpoint
      split at hpoint
      · -- The group has decimal digits only, and a colon or nothing follows.
        cases rest with
        | nil => cases hpoint
        | cons c rest =>
            obtain rfl := hrest c rfl
            cases hpoint
      · rename_i hmore
        obtain ⟨c, more, hcs⟩ := List.exists_cons_of_ne_nil (mt List.isEmpty_iff.mpr hmore)
        rw [hcs] at hpoint
        obtain rfl := (List.cons.inj hpoint).1
        have hmem : '.' ∈ Nat.toDigits 16 g := by
          refine (List.dropWhile_suffix (isDigit 10)).subset ?_
          rw [hcs]
          exact List.mem_cons_self
        cases (filterMap_toDigits (by decide) (by decide) g).2 _ hmem

theorem number?_group {g : Nat} (hg : g < 65536) {rest : List Char} (hrest : ColonOrEnd rest) :
    number? 16 (some 4) 65536 (Nat.toDigits 16 g ++ rest) = some (g, rest) := by
  refine number?_toDigits (by decide) (by decide) hg ?_ hrest.ends
  rintro m hm
  obtain rfl := Option.some.inj hm
  exact ⟨by decide, hg⟩

/-- Groups with a colon before each of them. -/
def laterGroups (gs : List Nat) : List Char := gs.flatMap fun g => ':' :: Nat.toDigits 16 g

theorem groupText_cons (g : Nat) (gs : List Nat) :
    groupText (g :: gs) = Nat.toDigits 16 g ++ laterGroups gs := by
  induction gs generalizing g with
  | nil =>
      rw [laterGroups, List.flatMap_nil, List.append_nil]
      exact List.append_nil _
  | cons h gs ih =>
      have hstep : groupText (g :: h :: gs) = Nat.toDigits 16 g ++ ([':'] ++ groupText (h :: gs)) :=
        rfl
      rw [hstep, ih, laterGroups, laterGroups, List.flatMap_cons]
      rfl

theorem colonOrEnd_laterGroups (gs : List Nat) {rest : List Char} (hrest : ColonOrEnd rest) :
    ColonOrEnd (laterGroups gs ++ rest) := by
  cases gs with
  | nil => exact hrest
  | cons g gs =>
      rintro c hc
      exact (Option.some.inj hc).symm

theorem readV4?_groupText (gs : List Nat) {rest : List Char} (hrest : ColonOrEnd rest) :
    readV4? (groupText gs ++ rest) = none := by
  cases gs with
  | nil => exact readV4?_of_head hrest
  | cons g gs =>
      rw [groupText_cons, List.append_assoc]
      exact readV4?_group g (colonOrEnd_laterGroups gs hrest)

/-- Neither a group nor a short address follows. -/
def Stops (first : Bool) (rest : List Char) : Prop :=
  ∀ left, separated? first rest = some left → ColonOrEnd left

theorem stops_nil (first : Bool) : Stops first [] := by
  cases first with
  | false => exact nofun
  | true =>
      rintro left h
      obtain rfl := Option.some.inj h
      exact nofun

theorem stops_colons (first : Bool) (rest : List Char) : Stops first (':' :: ':' :: rest) := by
  rintro left h
  have hleft : left = ':' :: rest ∨ left = ':' :: ':' :: rest := by
    cases first with
    | false =>
        change after? ':' (':' :: ':' :: rest) = some left at h
        exact .inl (List.cons.inj (after?_eq_some_iff.mp h)).2.symm
    | true => exact .inr (Option.some.inj h).symm
  rcases hleft with rfl | rfl
  · exact fun c hc => (Option.some.inj hc).symm
  · exact fun c hc => (Option.some.inj hc).symm

theorem groups_of_stops {first : Bool} {rest : List Char} (h : Stops first rest) (room : Nat) :
    groups first room rest = ([], false, rest) := by
  cases room with
  | zero => rfl
  | succ room =>
      have hshort : (separated? first rest).bind readV4? = none :=
        Option.bind_eq_none_iff.mpr fun left hleft => readV4?_of_head (h left hleft)
      have hgroup : (separated? first rest).bind (number? 16 (some 4) 65536) = none :=
        Option.bind_eq_none_iff.mpr fun left hleft => number?_of_head (h left hleft) 16 65536 _
      rw [groups, hshort, ite_self, hgroup]

theorem groups_cons {first : Bool} {cs rest : List Char} {g : Nat} (hg : g < 65536)
    (hcs : separated? first cs = some (Nat.toDigits 16 g ++ rest)) (hrest : ColonOrEnd rest)
    (room : Nat) :
    groups first (room + 1) cs =
      (g :: (groups false room rest).1, (groups false room rest).2) := by
  rw [groups, hcs, Option.bind_some, readV4?_group g hrest, ite_self, Option.bind_some,
    number?_group hg hrest]

section

variable {gs : List Nat} (hgs : ∀ g ∈ gs, g < 65536) {room : Nat} (hroom : gs.length ≤ room)
  {rest : List Char} (hrest : ColonOrEnd rest)

include hgs hroom hrest

theorem groups_laterGroups (hstops : Stops false rest) :
    groups false room (laterGroups gs ++ rest) = (gs, false, rest) := by
  induction gs generalizing room with
  | nil => exact groups_of_stops hstops room
  | cons g gs ih =>
      obtain ⟨hg, hgs⟩ := List.forall_mem_cons.mp hgs
      obtain ⟨room, rfl⟩ : ∃ r, room = r + 1 := Nat.exists_eq_succ_of_ne_zero (by
        rintro rfl
        cases hroom)
      have hcs : separated? false (laterGroups (g :: gs) ++ rest) =
          some (Nat.toDigits 16 g ++ (laterGroups gs ++ rest)) := by
        rw [laterGroups, List.flatMap_cons, List.append_assoc]
        rfl
      rw [groups_cons hg hcs (colonOrEnd_laterGroups gs hrest),
        ih hgs (Nat.le_of_succ_le_succ hroom)]

theorem groups_groupText (hstops : ∀ first, Stops first rest) :
    groups true room (groupText gs ++ rest) = (gs, false, rest) := by
  cases gs with
  | nil => exact groups_of_stops (hstops true) room
  | cons g gs =>
      obtain ⟨hg, hgs⟩ := List.forall_mem_cons.mp hgs
      obtain ⟨room, rfl⟩ : ∃ r, room = r + 1 := Nat.exists_eq_succ_of_ne_zero (by
        rintro rfl
        cases hroom)
      have hcs : separated? true (groupText (g :: gs) ++ rest) =
          some (Nat.toDigits 16 g ++ (laterGroups gs ++ rest)) := by
        rw [groupText_cons, List.append_assoc]
        rfl
      rw [groups_cons hg hcs (colonOrEnd_laterGroups gs hrest),
        groups_laterGroups hgs (Nat.le_of_succ_le_succ hroom) hrest (hstops false)]

end

theorem groups_groupText_end {gs : List Nat} (hgs : ∀ g ∈ gs, g < 65536) {room : Nat}
    (hroom : gs.length ≤ room) : groups true room (groupText gs) = (gs, false, []) := by
  have hread := groups_groupText hgs hroom (show ColonOrEnd [] from nofun) stops_nil
  rwa [List.append_nil] at hread

/-! ## Long addresses -/

theorem lt_of_mem_groupsOf {a : BitVec 128} {g : Nat} (h : g ∈ groupsOf a) : g < 65536 := by
  obtain ⟨k, -, rfl⟩ := List.mem_map.mp h
  exact Nat.mod_lt _ (by decide)

theorem length_groupsOf (a : BitVec 128) : (groupsOf a).length = 8 := rfl

theorem ofGroups_groupsOf (a : BitVec 128) : ofGroups (groupsOf a) = a := by
  apply BitVec.eq_of_toNat_eq
  have ha := a.isLt
  simp only [ofGroups, groupsOf, List.map_cons, List.map_nil, List.foldl_cons, List.foldl_nil,
    BitVec.toNat_ofNat, Nat.shiftRight_eq_div_pow]
  omega

theorem ofGroups_mapped {a : BitVec 128} {short : BitVec 32} (h : mapped? a = some short) :
    ofGroups (List.replicate 5 0 ++ [0xFFFF, short.toNat / 65536, short.toNat % 65536]) = a := by
  rw [mapped?] at h
  split at h
  · rename_i hhigh
    obtain rfl := Option.some.inj h
    apply BitVec.eq_of_toNat_eq
    have ha := a.isLt
    rw [Nat.shiftRight_eq_div_pow] at hhigh
    simp only [ofGroups, List.replicate, List.cons_append, List.nil_append, List.foldl_cons,
      List.foldl_nil, BitVec.toNat_ofNat]
    omega
  · cases h

/-- The longest run of zeros is one, and stands where it is said to. -/
theorem longestZeros_split (start : Nat) (gs : List Nat) :
    ∃ before behind, gs = before ++ (List.replicate (longestZeros start gs).2 0 ++ behind) ∧
      (longestZeros start gs).1 = start + before.length := by
  induction gs generalizing start with
  | nil => exact ⟨[], [], rfl, rfl⟩
  | cons g rest ih =>
      rw [longestZeros]
      split
      · refine ⟨[], (g :: rest).dropWhile (· = 0), ?_, rfl⟩
        have hzeros : (g :: rest).takeWhile (· = 0) = List.replicate (zeros (g :: rest)) 0 := by
          refine List.eq_replicate_iff.mpr ⟨rfl, fun x hx => ?_⟩
          exact of_decide_eq_true (List.mem_takeWhile_imp (p := fun x => decide (x = 0)) hx)
        rw [← hzeros, List.nil_append, List.takeWhile_append_dropWhile]
      · obtain ⟨before, behind, hrest, hstart⟩ := ih (start + 1)
        refine ⟨g :: before, behind, ?_, ?_⟩
        · rw [List.cons_append, ← hrest]
        · rw [hstart, List.length_cons]
          omega

/-- Groups on both sides of a double colon are read back, with zeros between them. -/
theorem readV6?_colons {before behind : List Nat} (hbefore : ∀ g ∈ before, g < 65536)
    (hbehind : ∀ g ∈ behind, g < 65536) (hlength : before.length + behind.length < 8) :
    readV6? (groupText before ++ (':' :: ':' :: groupText behind)) =
      some (ofGroups (before ++ List.replicate (8 - before.length - behind.length) 0 ++ behind),
        []) := by
  have hcolons : ColonOrEnd (':' :: ':' :: groupText behind) :=
    fun c hc => (Option.some.inj hc).symm
  have hhead : groups true 8 (groupText before ++ (':' :: ':' :: groupText behind)) =
      (before, false, ':' :: ':' :: groupText behind) :=
    groups_groupText hbefore (by omega) hcolons fun first => stops_colons first _
  have htail : groups true (7 - before.length) (groupText behind) = (behind, false, []) :=
    groups_groupText_end hbehind (by omega)
  have hshort : ¬before.length = 8 := by omega
  rw [readV6?, hhead]
  simp only [if_neg hshort, Bool.false_eq_true, if_false, after?_cons, Option.bind_some,
    Option.map_some, htail]

/-- A short address at the end of a long one is read back. -/
theorem readV6?_mapped {a : BitVec 128} {short : BitVec 32} (h : mapped? a = some short) :
    readV6? ("::ffff:".toList ++ textV4 short) = some (a, []) := by
  have htext : "::ffff:".toList ++ textV4 short =
      ':' :: ':' :: (Nat.toDigits 16 0xFFFF ++ (':' :: textV4 short)) := rfl
  have hcolon : ColonOrEnd (':' :: textV4 short) := fun c hc => (Option.some.inj hc).symm
  have hlast : groups false 6 (':' :: textV4 short) =
      ([short.toNat / 65536, short.toNat % 65536], true, []) := by
    have hread := readV4?_textV4 short (ends_nil 10)
    rw [List.append_nil] at hread
    have hcs : separated? false (':' :: textV4 short) = some (textV4 short) := rfl
    rw [groups, hcs, Option.bind_some, hread]
    rfl
  have htail : groups true 7 (Nat.toDigits 16 0xFFFF ++ (':' :: textV4 short)) =
      ([0xFFFF, short.toNat / 65536, short.toNat % 65536], true, []) := by
    rw [groups_cons (by decide) rfl hcolon, hlast]
  rw [htext, readV6?, groups_of_stops (stops_colons true _) 8]
  simp only [List.length_nil, (by decide : ¬0 = 8), if_false, Bool.false_eq_true, after?_cons,
    Option.bind_some, Option.map_some, Nat.sub_zero, htail, List.length_cons, List.nil_append]
  exact congrArg (fun b => some (b, [])) (ofGroups_mapped h)

theorem readV6?_textV6 (a : BitVec 128) : readV6? (textV6 a) = some (a, []) := by
  have hgroups : ∀ g ∈ groupsOf a, g < 65536 := fun g => lt_of_mem_groupsOf
  rw [textV6]
  cases hmapped : mapped? a with
  | some short => exact readV6?_mapped hmapped
  | none =>
      obtain ⟨before, behind, hsplit, hstart⟩ := longestZeros_split 0 (groupsOf a)
      simp only
      generalize longestZeros 0 (groupsOf a) = longest at hsplit hstart ⊢
      obtain ⟨start, length⟩ := longest
      simp only [Nat.zero_add] at hsplit hstart ⊢
      subst hstart
      split
      · rename_i hlong
        have hlength := congrArg List.length hsplit
        rw [length_groupsOf, List.length_append, List.length_append, List.length_replicate]
          at hlength
        have hbefore : (groupsOf a).take before.length = before := by
          rw [hsplit, List.take_left]
        have hbehind : (groupsOf a).drop (before.length + length) = behind := by
          rw [hsplit, ← List.append_assoc]
          refine List.drop_left' ?_
          rw [List.length_append, List.length_replicate]
        have hzeros : 8 - before.length - behind.length = length := by omega
        rw [hbefore, hbehind, List.append_assoc]
        rw [hsplit] at hgroups
        have hfirst : ∀ g ∈ before, g < 65536 := fun g hg =>
          hgroups g (List.mem_append_left _ hg)
        have hlast : ∀ g ∈ behind, g < 65536 := fun g hg =>
          hgroups g (List.mem_append_right _ (List.mem_append_right _ hg))
        have hread := readV6?_colons hfirst hlast (by omega)
        rw [hzeros, List.append_assoc, ← hsplit, ofGroups_groupsOf] at hread
        exact hread
      · rw [readV6?, groups_groupText_end hgroups (Nat.le_of_eq (length_groupsOf a))]
        simp only [length_groupsOf, if_true, ofGroups_groupsOf]

/-- No long address is taken for a short one. -/
theorem readV4?_textV6 (a : BitVec 128) : readV4? (textV6 a) = none := by
  rw [textV6]
  split
  · exact readV4?_of_head fun c hc => (Option.some.inj hc).symm
  · simp only
    split
    · rw [List.append_assoc]
      exact readV4?_groupText _ fun c hc => (Option.some.inj hc).symm
    · rw [← List.append_nil (groupText _)]
      exact readV4?_groupText _ nofun

/-- The text of an address is read as this address. -/
theorem ofText?_text (a : IpAddr) : ofText? a.text = some a := by
  cases a with
  | v4 a =>
      have hread := readV4?_textV4 a (ends_nil 10)
      rw [List.append_nil] at hread
      rw [ofText?, text, String.toList_ofList, read?, hread]
      rfl
  | v6 a =>
      rw [ofText?, text, String.toList_ofList, read?, readV4?_textV6, readV6?_textV6]
      rfl

/-! ## Characters -/

/-- A character that addresses may have. -/
def IsMark (c : Char) : Prop := isDigit 16 c = true ∨ c = '.' ∨ c = ':'

/-- What is read from a text is made of such characters. -/
def Takes (cs rest : List Char) : Prop := ∃ used, cs = used ++ rest ∧ ∀ c ∈ used, IsMark c

theorem Takes.refl (cs : List Char) : Takes cs cs := ⟨[], rfl, nofun⟩

theorem Takes.trans {cs left rest : List Char} (h : Takes cs left) (h' : Takes left rest) :
    Takes cs rest := by
  obtain ⟨used, rfl, hused⟩ := h
  obtain ⟨more, rfl, hmore⟩ := h'
  refine ⟨used ++ more, (List.append_assoc _ _ _).symm, ?_⟩
  intro c hc
  exact (List.mem_append.mp hc).elim (hused c) (hmore c)

theorem isDigit_mono {base : Nat} (hbase : base ≤ 16) {c : Char} (h : isDigit base c = true) :
    isDigit 16 c = true := by
  obtain ⟨d, hd⟩ := Option.isSome_iff_exists.mp h
  obtain ⟨hvalue, hlt⟩ := Option.filter_eq_some_iff.mp hd
  have hless : d < 16 := Nat.lt_of_lt_of_le (of_decide_eq_true hlt) hbase
  rw [isDigit, digit?, hvalue, Option.filter_some, if_pos (decide_eq_true hless)]
  rfl

theorem takes_of_number? {base bound n : Nat} {most : Option Nat} {cs rest : List Char}
    (hbase : base ≤ 16) (h : number? base most bound cs = some (n, rest)) : Takes cs rest := by
  refine ⟨cs.takeWhile (isDigit base), ?_, fun c hc => ?_⟩
  · rw [rest_of_number? h, List.takeWhile_append_dropWhile]
  · exact .inl (isDigit_mono hbase (List.mem_takeWhile_imp hc))

theorem takes_of_octet? {n : Nat} {cs rest : List Char} (h : octet? cs = some (n, rest)) :
    Takes cs rest :=
  takes_of_number? (by decide) (number?_of_octet? h)

theorem takes_of_after? {c : Char} (hc : IsMark c) {cs rest : List Char}
    (h : after? c cs = some rest) : Takes cs rest := by
  refine ⟨[c], after?_eq_some_iff.mp h, fun d hd => ?_⟩
  rw [List.mem_singleton.mp hd]
  exact hc

theorem takes_of_readV4? {a : BitVec 32} {cs rest : List Char} (h : readV4? cs = some (a, rest)) :
    Takes cs rest := by
  have hpoint : IsMark '.' := .inr (.inl rfl)
  rw [readV4?] at h
  simp only [Option.bind_eq_bind, Option.bind_eq_some_iff] at h
  obtain ⟨⟨w, l₁⟩, hw, r₁, hr₁, ⟨x, l₂⟩, hx, r₂, hr₂, ⟨y, l₃⟩, hy, r₃, hr₃, ⟨z, l₄⟩, hz, hrest⟩ := h
  obtain ⟨-, rfl⟩ := Prod.mk.inj (Option.some.inj hrest)
  exact (takes_of_octet? hw).trans <| (takes_of_after? hpoint hr₁).trans <|
    (takes_of_octet? hx).trans <| (takes_of_after? hpoint hr₂).trans <|
    (takes_of_octet? hy).trans <| (takes_of_after? hpoint hr₃).trans <| takes_of_octet? hz

theorem takes_of_separated? {first : Bool} {cs left : List Char}
    (h : separated? first cs = some left) : Takes cs left := by
  cases first with
  | true =>
      obtain rfl := Option.some.inj h
      exact .refl cs
  | false => exact takes_of_after? (.inr (.inr rfl)) h

theorem takes_groups (first : Bool) (room : Nat) (cs : List Char) :
    Takes cs (groups first room cs).2.2 := by
  induction room generalizing first cs with
  | zero => exact .refl cs
  | succ room ih =>
      rw [groups]
      split
      · rename_i a rest hshort
        split at hshort
        · cases hshort
        · obtain ⟨left, hleft, hread⟩ := Option.bind_eq_some_iff.mp hshort
          exact (takes_of_separated? hleft).trans (takes_of_readV4? hread)
      · split
        · exact .refl cs
        · rename_i g rest hgroup
          obtain ⟨left, hleft, hread⟩ := Option.bind_eq_some_iff.mp hgroup
          exact ((takes_of_separated? hleft).trans
            (takes_of_number? (Nat.le_refl 16) hread)).trans (ih false rest)

theorem takes_of_readV6? {a : BitVec 128} {cs rest : List Char} (h : readV6? cs = some (a, rest)) :
    Takes cs rest := by
  have hcolon : IsMark ':' := .inr (.inr rfl)
  have hhead := takes_groups true 8 cs
  rw [readV6?] at h
  generalize groups true 8 cs = found at h hhead
  obtain ⟨head, short, left⟩ := found
  simp only at h hhead
  split at h
  · obtain ⟨-, rfl⟩ := Prod.mk.inj (Option.some.inj h)
    exact hhead
  · split at h
    · cases h
    · obtain ⟨left', hcolons, hrest⟩ := Option.map_eq_some_iff.mp h
      obtain ⟨-, rfl⟩ := Prod.mk.inj hrest
      obtain ⟨left'', hfirst, hsecond⟩ := Option.bind_eq_some_iff.mp hcolons
      exact ((hhead.trans (takes_of_after? hcolon hfirst)).trans
        (takes_of_after? hcolon hsecond)).trans (takes_groups true _ left')

theorem isMark_of_ofText? {s : String} {a : IpAddr} (h : ofText? s = some a) :
    ∀ c ∈ s.toList, IsMark c := by
  rw [ofText?] at h
  split at h
  · rename_i hread
    have htakes : Takes s.toList [] := by
      rw [read?, Option.or_eq_some_iff] at hread
      rcases hread with hshort | ⟨-, hlong⟩
      · obtain ⟨⟨b, rest⟩, hb, hrest⟩ := Option.map_eq_some_iff.mp hshort
        obtain ⟨-, rfl⟩ := Prod.mk.inj hrest
        exact takes_of_readV4? hb
      · obtain ⟨⟨b, rest⟩, hb, hrest⟩ := Option.map_eq_some_iff.mp hlong
        obtain ⟨-, rfl⟩ := Prod.mk.inj hrest
        exact takes_of_readV6? hb
    obtain ⟨used, hs, hused⟩ := htakes
    rw [hs, List.append_nil]
    exact hused
  · cases h

end Telemetry.IpAddr
