/-
Items write the content that they were found in.

Items lie on content one behind the other, from one place to the next: a literal is the octet at its
place, and a copy agrees with what is some distance back (`Repeats.Lies`).  Items that lie on the
content from its beginning write it when they are carried out, as a copy is repeated octet by octet
and never looks ahead of what is written (`Repeats.Lies.write`).

That the items of some content do so (`Repeats.lies_items`) is a matter of where copies are looked
for.  Links lead back (`Repeats.back_links`), so what is found along them is behind the place that
is asked for, and how far it agrees is counted.  A copy that is held back lies one place behind.
-/
import Telemetry.Gzip.Repeats
import Telemetry.Proofs.Gzip.Octets

namespace Telemetry.Gzip.Repeats

variable {data : Array UInt8}

/-! ## Items on content -/

/-- A copy that can be made at a place. -/
structure Fits (data : Array UInt8) (here : Nat) (c : Copy) : Prop where
  minLength : minLength ≤ c.length
  maxLength : c.length ≤ maxLength
  distance : 0 < c.distance
  back : c.distance ≤ here
  within : here + c.length ≤ data.size
  agrees : ∀ k < c.length, octet data (here - c.distance + k) = octet data (here + k)

/-- Items that lie on content from one place to another. -/
inductive Lies (data : Array UInt8) : List Item → Nat → Nat → Prop
  | nil {i : Nat} : Lies data [] i i
  | literal {items : List Item} {i j : Nat} : i < data.size → Lies data items (i + 1) j →
      Lies data (.literal (octet data i) :: items) i j
  | copy {items : List Item} {i j : Nat} {c : Copy} : Fits data i c →
      Lies data items (i + c.length) j → Lies data (.copy c.length c.distance :: items) i j

namespace Lies

variable {items more : List Item} {i j k : Nat}

theorem append (h : Lies data items i j) (h' : Lies data more j k) :
    Lies data (items ++ more) i k := by
  induction h with
  | nil => exact h'
  | literal hi _ ih => exact .literal hi (ih h')
  | copy hc _ ih => exact .copy hc (ih h')

theorem concat_literal (h : Lies data items i j) (hj : j < data.size) :
    Lies data (items ++ [.literal (octet data j)]) i (j + 1) := h.append (.literal hj .nil)

theorem concat_copy {c : Copy} (h : Lies data items i j) (hc : Fits data j c) :
    Lies data (items ++ [.copy c.length c.distance]) i (j + c.length) := h.append (.copy hc .nil)

end Lies

/-! ## Carrying items out -/

theorem octet_eq {i : Nat} (h : i < data.size) : octet data i = data[i] := by
  rw [octet, Array.getElem?_eq_getElem h]
  rfl

theorem take_concat_octet {i : Nat} (h : i < data.size) :
    data.toList.take i ++ [octet data i] = data.toList.take (i + 1) := by
  rw [octet_eq h, List.take_succ_eq_append_getElem (by rwa [Array.length_toList])]
  rfl

theorem octetBack_eq {before : Bytes} {out : ByteArray} {distance here : Nat}
    (hout : out.toList = before ++ data.toList.take here) (hdistance : 0 < distance)
    (hback : distance ≤ here) (hhere : here ≤ data.size) :
    octetBack distance out = octet data (here - distance) := by
  have hsize : out.size = before.length + here := by
    have hlength : data.toList.length = data.size := Array.length_toList
    rw [← length_toList, hout, List.length_append, List.length_take, hlength,
      Nat.min_eq_left hhere]
  have hin : 0 < distance ∧ distance ≤ out.size := ⟨hdistance, by omega⟩
  have hget : out.toList[out.size - distance]? = some (out.get (out.size - distance) (by omega)) := by
    rw [toList_eq, Array.getElem?_toList]
    exact Array.getElem?_eq_getElem _
  have hplace : out.size - distance - before.length = here - distance := by omega
  rw [hout, List.getElem?_append_right (by omega), hplace,
    List.getElem?_take_of_lt (by omega), Array.getElem?_toList] at hget
  rw [octetBack, dif_pos hin, octet, hget]
  rfl

theorem toList_repeatBack {before : Bytes} {out : ByteArray} {distance here n : Nat}
    (hout : out.toList = before ++ data.toList.take here) (hdistance : 0 < distance)
    (hback : distance ≤ here) (hwithin : here + n ≤ data.size)
    (hagrees : ∀ k < n, octet data (here - distance + k) = octet data (here + k)) :
    (repeatBack distance n out).toList = before ++ data.toList.take (here + n) := by
  induction n generalizing here out with
  | zero => exact hout
  | succ n ih =>
      have hnext : octetBack distance out = octet data here := by
        rw [octetBack_eq hout hdistance hback (by omega)]
        exact hagrees 0 (Nat.zero_lt_succ n)
      have hpush : (out.push (octetBack distance out)).toList =
          before ++ data.toList.take (here + 1) := by
        rw [toList_push, hout, hnext, List.append_assoc, take_concat_octet (by omega)]
      rw [repeatBack, ih hpush (by omega) (by omega) fun k hk => ?_]
      · congr 2
        omega
      · have hsucc := hagrees (k + 1) (Nat.succ_lt_succ hk)
        rw [show here + 1 - distance + k = here - distance + (k + 1) by omega,
          show here + 1 + k = here + (k + 1) by omega]
        exact hsucc

/-- Items that lie on content write it behind what they lie behind. -/
theorem Lies.write {items : List Item} {i j : Nat} (h : Lies data items i j) {before : Bytes}
    {out : ByteArray} (hout : out.toList = before ++ data.toList.take i) :
    (items.foldl (fun out item => item.write out) out).toList =
      before ++ data.toList.take j := by
  induction h generalizing out with
  | nil => exact hout
  | @literal items i j hi _ ih =>
      have hpush : (out.push (octet data i)).toList = before ++ data.toList.take (i + 1) := by
        rw [toList_push, hout, List.append_assoc, take_concat_octet hi]
      exact ih hpush
  | copy hc _ ih =>
      exact ih (toList_repeatBack hout hc.distance hc.back hc.within hc.agrees)

/-! ## Links -/

/-- Links from places to places before them, or to none. -/
def Back (chain : Array Nat) : Prop :=
  ∀ place : Nat, (chain[place]?).getD 0 = 0 ∨ (chain[place]?).getD 0 < place

theorem back_link {b : Bytes} {i : Nat} {latest chain : Array Nat}
    (hlatest : ∀ k : Nat, (latest[k]?).getD 0 = 0 ∨ (latest[k]?).getD 0 < i) (hsize : chain.size = i)
    (hback : Back chain) : Back (link b i latest chain) := by
  fun_induction link b i latest chain with
  | case1 x y z rest i latest chain k previous ih =>
      refine ih ?_ ?_ ?_
      · intro k'
        rw [Array.getElem?_setIfInBounds]
        split
        · split
          · exact .inr (Nat.lt_succ_self i)
          · exact .inl rfl
        · exact (hlatest k').imp_right fun h => Nat.lt_succ_of_lt h
      · rw [Array.size_push, hsize]
      · intro place
        rw [Array.getElem?_push]
        split
        · rename_i hplace
          rw [hplace, hsize]
          exact hlatest k
        · exact hback place
  | case2 => exact hback

theorem back_links (b : Bytes) : Back (links b) := by
  refine back_link (fun k => .inl ?_) rfl fun place => .inl rfl
  rw [Array.getElem?_replicate]
  split <;> rfl

/-! ## Copies that are found -/

theorem agreement_le (limit i j : Nat) : agreement data limit i j ≤ limit := by
  induction limit generalizing i j with
  | zero => exact Nat.le_refl 0
  | succ limit ih =>
      rw [agreement]
      split
      · exact Nat.succ_le_succ (ih _ _)
      · exact Nat.zero_le _

theorem agrees_of_lt_agreement {limit i j k : Nat} (h : k < agreement data limit i j) :
    octet data (i + k) = octet data (j + k) := by
  induction limit generalizing i j k with
  | zero => cases h
  | succ limit ih =>
      rw [agreement] at h
      split at h
      · rename_i hfirst
        cases k with
        | zero => exact hfirst
        | succ k =>
            have hrest := ih (Nat.lt_of_succ_lt_succ h)
            rw [show i + (k + 1) = i + 1 + k by omega, show j + (k + 1) = j + 1 + k by omega]
            exact hrest
      · cases h

variable {chain : Array Nat} {here : Nat}

theorem candidate_cases (hback : Back chain) (known steps place : Nat) :
    candidate data chain here known steps place = .ended ∨
      (∃ next, candidate data chain here known steps place = .missed next ∧ next ≤ place) ∨
      ∃ next, candidate data chain here known steps place = .found next ∧ 0 < next ∧
        next < place := by
  induction steps generalizing place with
  | zero => exact .inr (.inl ⟨place, rfl, Nat.le_refl place⟩)
  | succ steps ih =>
      rw [candidate]
      split
      · exact .inl rfl
      · rename_i next hne
        have hlt : (chain[place]?).getD 0 < place := (hback place).resolve_left hne
        split
        · exact .inr (.inr ⟨_, rfl, Nat.pos_of_ne_zero hne, hlt⟩)
        · rcases ih ((chain[place]?).getD 0) with h | ⟨next, h, hle⟩ | ⟨next, h, hpos, hnext⟩
          · exact .inl h
          · exact .inr (.inl ⟨next, h, Nat.le_trans hle (Nat.le_of_lt hlt)⟩)
          · exact .inr (.inr ⟨next, h, hpos, Nat.lt_trans hnext hlt⟩)

/-- A search finds what was known before, or a longer copy from a place behind the one that it
began at. -/
theorem search_cases (hback : Back chain) {limit rounds place known : Nat} {best : Option Copy}
    (hplace : place ≤ here) {c : Copy}
    (h : search data chain here limit rounds place known best = some c) :
    best = some c ∨ ∃ next, 0 < next ∧ next < here ∧ known < c.length ∧
      c = ⟨agreement data limit next here, here - next⟩ := by
  induction rounds generalizing place known best with
  | zero => exact .inl h
  | succ rounds ih =>
      rw [search] at h
      rcases candidate_cases hback known 3 place with
        hcase | ⟨next, hcase, hle⟩ | ⟨next, hcase, hpos, hlt⟩
      · rw [hcase] at h
        exact .inl h
      · rw [hcase] at h
        exact ih (Nat.le_trans hle hplace) h
      · have hnext : next < here := Nat.lt_of_lt_of_le hlt hplace
        simp only [hcase] at h
        split at h
        · rename_i hlonger
          have hfound : ∀ {c : Copy}, some (⟨agreement data limit next here, here - next⟩ : Copy) =
              some c → ∃ next, 0 < next ∧ next < here ∧ known < c.length ∧
                c = ⟨agreement data limit next here, here - next⟩ := by
            intro c hc
            obtain rfl := Option.some.inj hc
            exact ⟨next, hpos, hnext, hlonger, rfl⟩
          split at h
          · exact .inr (hfound h)
          · rcases ih (Nat.le_of_lt hnext) h with hbest | ⟨next', hpos', hlt', hmore, hc⟩
            · exact .inr (hfound hbest)
            · exact .inr ⟨next', hpos', hlt', Nat.lt_trans hlonger hmore, hc⟩
        · exact ih (Nat.le_of_lt hnext) h

/-- A copy that is longer than two octets can be made where it is found. -/
theorem fits_longer (hback : Back chain) {known : Nat} (hknown : 2 ≤ known) {c : Copy}
    (h : longer data chain here known = some c) : Fits data here c := by
  rw [longer] at h
  split at h
  · cases h
  · rename_i hroom
    obtain ⟨hsearch, -⟩ := Option.filter_eq_some_iff.mp h
    rcases search_cases hback (Nat.le_refl here) hsearch with hnone | ⟨next, hpos, hlt, hmore, rfl⟩
    · cases hnone
    · have hle : agreement data (min maxLength (data.size - here)) next here ≤
          min maxLength (data.size - here) := agreement_le _ _ _
      have hsize : here ≤ data.size := by omega
      refine ⟨?_, ?_, ?_, ?_, ?_, ?_⟩
      · exact Nat.succ_le_of_lt (Nat.lt_of_le_of_lt hknown hmore)
      · exact Nat.le_trans hle (Nat.min_le_left _ _)
      · exact Nat.sub_pos_of_lt hlt
      · exact Nat.sub_le _ _
      · have := Nat.le_trans hle (Nat.min_le_right _ _)
        simp only
        omega
      · intro k hk
        rw [show here - (here - next) + k = next + k by omega]
        exact agrees_of_lt_agreement hk

/-! ## The items of content -/

/-- A literal and a copy that are held back lie one place behind. -/
structure Held (data : Array UInt8) (here : Nat) (literal : UInt8) (c : Copy) : Prop where
  before : 1 ≤ here
  literal : literal = octet data (here - 1)
  fits : Fits data (here - 1) c

theorem Held.lt_size {literal : UInt8} {c : Copy} (h : Held data here literal c) :
    here < data.size := by
  have hlength := h.fits.minLength
  have hwithin := h.fits.within
  have hbefore := h.before
  rw [minLength] at hlength
  omega

theorem held_next {c : Copy} (h : Fits data here c) : Held data (here + 1) (octet data here) c :=
  ⟨Nat.le_add_left 1 here, rfl, h⟩

/-- The items so far, the latest first: they lie on the content up to a place, or up to what is held
back before it. -/
inductive Standing (data : Array UInt8) (here : Nat) : Option (UInt8 × Copy) → List Item → Prop
  | free {done : List Item} : Lies data done.reverse 0 here → Standing data here none done
  | held {literal : UInt8} {c : Copy} {done : List Item} : Held data here literal c →
      Lies data done.reverse 0 (here - 1) → Standing data here (some (literal, c)) done

theorem lies_itemsFrom (hback : Back chain) {fuel : Nat} {held : Option (UInt8 × Copy)}
    {done : List Item} (hhere : here ≤ data.size) (hfuel : data.size < here + fuel)
    (h : Standing data here held done) :
    Lies data (itemsFrom data chain fuel here held done) 0 data.size := by
  induction fuel generalizing here held done with
  | zero => omega
  | succ fuel ih =>
      rw [itemsFrom]
      by_cases hend : data.size ≤ here
      · rw [if_pos hend]
        cases h with
        | free hdone => exact Nat.le_antisymm hhere hend ▸ hdone
        | held hcopy _ => exact absurd hcopy.lt_size (Nat.not_lt_of_le hend)
      · rw [if_neg hend]
        have hlt : here < data.size := Nat.lt_of_not_le hend
        -- A copy that is found is made, or held back for a longer one at the next place.
        have hfound : ∀ {done : List Item} {c : Copy}, Lies data done.reverse 0 here →
            Fits data here c →
            Lies data (if goodLength ≤ c.length then
                itemsFrom data chain fuel (here + c.length) none (.copy c.length c.distance :: done)
              else itemsFrom data chain fuel (here + 1) (some (octet data here, c)) done)
              0 data.size := by
          intro done c hdone hfits
          split
          · have hlength := hfits.minLength
            rw [minLength] at hlength
            refine ih hfits.within (by omega) (.free ?_)
            rw [List.reverse_cons]
            exact hdone.concat_copy hfits
          · exact ih hlt (by omega) (.held (held_next hfits) hdone)
        cases h with
        | free hdone =>
            dsimp only
            cases hlonger : longer data chain here (minLength - 1) with
            | none =>
                refine ih hlt (by omega) (.free ?_)
                rw [List.reverse_cons]
                exact hdone.concat_literal hlt
            | some c => exact hfound hdone (fits_longer hback (Nat.le_refl 2) hlonger)
        | @held literal copy done hcopy hdone =>
            have hlength := hcopy.fits.minLength
            have hbefore := hcopy.before
            have hwithin := hcopy.fits.within
            rw [minLength] at hlength
            dsimp only
            cases hlonger : longer data chain here copy.length with
            | none =>
                have hplace : here + (copy.length - 1) = here - 1 + copy.length := by omega
                refine ih (by omega) (by omega) (.free ?_)
                rw [List.reverse_cons, hplace]
                exact hdone.concat_copy hcopy.fits
            | some c =>
                have hliteral : Lies data (.literal literal :: done).reverse 0 here := by
                  have hconcat := hdone.concat_literal (show here - 1 < data.size by omega)
                  rw [List.reverse_cons, hcopy.literal]
                  rwa [Nat.sub_add_cancel hbefore] at hconcat
                exact hfound hliteral (fits_longer hback (by omega) hlonger)

/-- The items of content lie on all of it. -/
theorem lies_items (b : Bytes) : Lies b.toArray (items b) 0 b.length := by
  have hfuel : b.toArray.size < 0 + (b.toArray.size + 1) := by omega
  have hlies : Lies b.toArray (items b) 0 b.toArray.size :=
    lies_itemsFrom (back_links b) (Nat.zero_le _) hfuel (.free .nil)
  rwa [List.size_toArray] at hlies

end Telemetry.Gzip.Repeats
