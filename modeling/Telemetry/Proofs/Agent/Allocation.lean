/-
What the totals of a heap say about its blocks.

The totals and the blocks are kept apart: the totals go by the sizes that callers
name, the blocks by their numbers.  They tell the same as long as callers name the
sizes that blocks have (`Heap.Proper`).  A block that is given back is then live with
the size that is taken off (`Accounts.free`), and one that is handed out adds its size
to what is live (`Accounts.grant`); resizing does the one and then the other.  This is
kept by every call (`Heap.accounts_take`), and so by a run (`Heap.accounts_takeAll`).

Every live block has a number of its own, which was handed out before (`Heap.Numbered`), so beside
the others there is the block, and what is live is in the total that it is taken off from: no total
runs under.  That none runs over is what room there has to be for.
-/
import Mathlib.Algebra.Group.Nat.Defs
import Mathlib.Data.List.Nodup
import Telemetry.Agent.Allocation

namespace Telemetry.Agent

namespace Heap

/-! ## Calls -/

namespace Call

/-- The size that a call hands out, if it does. -/
def granted? : Call → Option UInt64
  | .allocate size true | .resize _ _ size true => some size
  | .allocate _ false | .resize _ _ _ false | .release _ _ => none

/-- The size that a call gives back, if it does. -/
def returned? : Call → Option UInt64
  | .resize _ current _ true | .release _ current => some current
  | .allocate _ _ | .resize _ _ _ false => none

end Call

/-- A block that a call is about is live, and has the size that the call names. -/
def Names (h : Heap) : Call → Prop
  | .allocate _ _ => True
  | .resize block current _ _ | .release block current => h.size? block = some current

instance (h : Heap) : DecidablePred h.Names
  | .allocate _ _ => inferInstanceAs (Decidable True)
  | .resize block current _ _ | .release block current =>
    inferInstanceAs (Decidable (h.size? block = some current))

def takeAll (h : Heap) (calls : List Call) : Heap := calls.foldl take h

/-- Every call names the size that its block has when the call comes. -/
def Proper (h : Heap) : List Call → Prop
  | [] => True
  | c :: rest => h.Names c ∧ (h.take c).Proper rest

instance decidableProper (h : Heap) : DecidablePred h.Proper
  | [] => inferInstanceAs (Decidable True)
  | c :: rest =>
    have := decidableProper (h.take c) rest
    inferInstanceAs (Decidable (h.Names c ∧ (h.take c).Proper rest))

/-- What calls hand out, in turn. -/
def granted (calls : List Call) : List UInt64 := calls.filterMap Call.granted?

def sizes (h : Heap) : List UInt64 := h.blocks.map (·.2)

theorem names_of_call? {h : Heap} {r : Request} {c : Call} (hcall : h.call? r = some c) :
    h.Names c := by
  cases r with
  | allocate size granted =>
      cases hcall
      exact trivial
  | resize block size granted =>
      obtain ⟨current, hsize, rfl⟩ := Option.map_eq_some_iff.mp hcall
      exact hsize
  | release block =>
      obtain ⟨current, hsize, rfl⟩ := Option.map_eq_some_iff.mp hcall
      exact hsize

/-- However requests are served, it is by calls that name the sizes of blocks. -/
theorem exists_proper_calls (requests : List Request) :
    ∀ h : Heap, ∃ calls, h.Proper calls ∧ h.takeAll calls = requests.foldl serve h := by
  induction requests with
  | nil => exact fun h => ⟨[], trivial, rfl⟩
  | cons r requests ih =>
      intro h
      rw [List.foldl_cons, serve]
      cases hcall : h.call? r with
      | none => exact ih h
      | some c =>
          obtain ⟨calls, hproper, htake⟩ := ih (h.take c)
          exact ⟨c :: calls, ⟨names_of_call? hcall, hproper⟩, htake⟩

/-! ## Blocks -/

/-- Every live block has a number of its own, which was handed out before. -/
structure Numbered (h : Heap) : Prop where
  nodup : (h.blocks.map (·.1)).Nodup
  below : ∀ b ∈ h.blocks, b.1 < h.next

theorem numbered_empty : empty.Numbered := ⟨List.nodup_nil, fun _ h => absurd h List.not_mem_nil⟩

variable {h : Heap} {c : Call}

theorem mem_blocks_of_size? {block : Nat} {size : UInt64} (hsize : h.size? block = some size) :
    (block, size) ∈ h.blocks := by
  obtain ⟨b, hfind, rfl⟩ := Option.map_eq_some_iff.mp hsize
  have hnumber : b.1 = block := by simpa using List.find?_some hfind
  rw [← hnumber]
  exact List.mem_of_find?_eq_some hfind

theorem Numbered.perm_without (hn : h.Numbered) {block : Nat} {size : UInt64}
    (hsize : h.size? block = some size) : h.blocks.Perm ((block, size) :: h.without block) := by
  have hmem := mem_blocks_of_size? hsize
  have hblocks : h.blocks.Nodup := hn.nodup.of_map
  have hcons : ((block, size) :: h.without block).Nodup := by
    refine List.nodup_cons.mpr ⟨fun hin => ?_, hblocks.filter _⟩
    exact absurd rfl (of_decide_eq_true (List.mem_filter.mp hin).2)
  refine (List.perm_ext_iff_of_nodup hblocks hcons).mpr fun b => ?_
  rw [List.mem_cons, without, List.mem_filter, decide_eq_true_iff]
  constructor
  · intro hb
    by_cases hnumber : b.1 = block
    · exact .inl (List.inj_on_of_nodup_map hn.nodup hb hmem hnumber)
    · exact .inr ⟨hb, hnumber⟩
  · rintro (rfl | ⟨hb, -⟩)
    · exact hmem
    · exact hb

theorem Numbered.without (hn : h.Numbered) (block : Nat) :
    ((h.without block).map (·.1)).Nodup ∧ ∀ b ∈ h.without block, b.1 < h.next ∧ b.1 ≠ block := by
  refine ⟨hn.nodup.sublist (List.filter_sublist.map _), ?_⟩
  intro b hb
  have hmem := List.mem_filter.mp hb
  exact ⟨hn.below b hmem.1, of_decide_eq_true hmem.2⟩

theorem nodup_numbers_cons {blocks : List (Nat × UInt64)} (hnodup : (blocks.map (·.1)).Nodup)
    {b : Nat × UInt64} (hother : ∀ a ∈ blocks, a.1 ≠ b.1) : ((b :: blocks).map (·.1)).Nodup := by
  refine List.nodup_cons.mpr ⟨?_, hnodup⟩
  intro hin
  obtain ⟨a, ha, hnumber⟩ := List.mem_map.mp hin
  exact hother a ha hnumber

/-- Proper calls keep the numbers apart. -/
theorem Numbered.take (hn : h.Numbered) (hc : h.Names c) : (h.take c).Numbered := by
  cases c with
  | allocate size granted =>
      cases granted with
      | false => exact ⟨hn.nodup, hn.below⟩
      | true =>
          constructor
          · exact nodup_numbers_cons hn.nodup fun b hb => Nat.ne_of_lt (hn.below b hb)
          · intro b hb
            rcases List.mem_cons.mp hb with rfl | hb
            · exact Nat.lt_succ_self _
            · exact Nat.lt_succ_of_lt (hn.below b hb)
  | resize block current size granted =>
      cases granted with
      | false => exact ⟨hn.nodup, hn.below⟩
      | true =>
          obtain ⟨hnodup, hbelow⟩ := hn.without block
          constructor
          · exact nodup_numbers_cons hnodup fun b hb => (hbelow b hb).2
          · intro b hb
            rcases List.mem_cons.mp hb with rfl | hb
            · exact hn.below (block, current) (mem_blocks_of_size? hc)
            · exact (hbelow b hb).1
  | release block current =>
      obtain ⟨hnodup, hbelow⟩ := hn.without block
      exact ⟨hnodup, fun b hb => (hbelow b hb).1⟩

theorem mem_sizes_of_returned? (hc : h.Names c) {size : UInt64} (hsize : c.returned? = some size) :
    size ∈ h.sizes := by
  have hlive : ∀ {block current}, h.size? block = some current → current ∈ h.sizes :=
    fun hcurrent => List.mem_map.mpr ⟨_, mem_blocks_of_size? hcurrent, rfl⟩
  cases c with
  | allocate size granted => cases hsize
  | resize block current size granted =>
      cases granted with
      | false => cases hsize
      | true =>
          cases hsize
          exact hlive hc
  | release block current =>
      cases hsize
      exact hlive hc

end Heap

/-! ## Totals -/

namespace Usage

def octets : List UInt64 → Nat
  | [] => 0
  | size :: sizes => size.toNat + octets sizes

theorem octets_append (xs ys : List UInt64) : octets (xs ++ ys) = octets xs + octets ys := by
  induction xs with
  | nil => exact (Nat.zero_add _).symm
  | cons size xs ih => rw [List.cons_append, octets, octets, ih, Nat.add_assoc]

theorem octets_perm {xs ys : List UInt64} (h : xs.Perm ys) : octets xs = octets ys := by
  induction h with
  | nil => rfl
  | cons size _ ih => rw [octets, octets, ih]
  | swap a b xs => rw [octets, octets, octets, octets, Nat.add_left_comm]
  | trans _ _ ihxy ihyz => exact ihxy.trans ihyz

/-- The totals are those of sizes that were handed out and of sizes that are live. -/
structure Accounts (u : Usage) (granted live : List UInt64) : Prop where
  live_eq : u.live.toNat = octets live
  total_eq : u.total.toNat = octets granted
  grants_eq : u.grants.toNat = granted.length
  frees_add : u.frees.toNat + live.length = granted.length
  live_le : octets live ≤ octets granted

theorem accounts_zero : zero.Accounts [] [] := ⟨rfl, rfl, rfl, rfl, Nat.le_refl _⟩

namespace Accounts

variable {u : Usage} {granted live rest : List UInt64} {size : UInt64}

theorem le_live (ha : u.Accounts granted live) (hmem : size ∈ live) : size ≤ u.live := by
  rw [UInt64.le_iff_toNat_le, ha.live_eq, octets_perm (List.perm_cons_erase hmem), octets]
  exact Nat.le_add_right _ _

theorem frees_le (ha : u.Accounts granted live) : u.frees ≤ u.grants := by
  rw [UInt64.le_iff_toNat_le, ha.grants_eq, ← ha.frees_add]
  exact Nat.le_add_right _ _

theorem grant (ha : u.Accounts granted live) (htotal : octets (granted ++ [size]) < 2 ^ 64)
    (hcount : (granted ++ [size]).length < 2 ^ 64) :
    (u.grant size).Accounts (granted ++ [size]) (size :: live) := by
  obtain ⟨hlive, hsum, hgrants, hfrees, hle⟩ := ha
  have hone : octets [size] = size.toNat := rfl
  rw [octets_append, hone] at htotal
  rw [List.length_append, List.length_singleton] at hcount
  constructor
  · show (u.live + size).toNat = _
    rw [UInt64.toNat_add, octets, hlive]
    omega
  · show (u.total + size).toNat = _
    rw [UInt64.toNat_add, octets_append, hone, hsum]
    exact Nat.mod_eq_of_lt htotal
  · show (u.grants + 1).toNat = _
    rw [UInt64.toNat_add, List.length_append, List.length_singleton, hgrants]
    exact Nat.mod_eq_of_lt hcount
  · rw [List.length_cons, List.length_append, List.length_singleton, ← hfrees]
    exact (Nat.add_assoc _ _ _).symm
  · rw [octets, octets_append, hone]
    omega

theorem free (ha : u.Accounts granted live) (hperm : live.Perm (size :: rest)) :
    (u.free size).Accounts granted rest := by
  have hsize : size ≤ u.live := ha.le_live (hperm.mem_iff.mpr List.mem_cons_self)
  have hoctets : octets live = size.toNat + octets rest := by
    rw [octets_perm hperm, octets]
  have hlength : live.length = rest.length + 1 := by
    rw [hperm.length_eq, List.length_cons]
  obtain ⟨hlive, hsum, hgrants, hfrees, hle⟩ := ha
  constructor
  · show (u.live - size).toNat = _
    rw [UInt64.toNat_sub_of_le _ _ hsize, hlive, hoctets]
    exact Nat.add_sub_cancel_left _ _
  · exact hsum
  · exact hgrants
  · show (u.frees + 1).toNat + _ = _
    -- The block was counted when it was handed out, so there is room for one more given back.
    have hroom : u.frees.toNat + 1 < 2 ^ 64 := by
      have := u.grants.toNat_lt
      omega
    rw [UInt64.toNat_add]
    show (u.frees.toNat + 1) % 2 ^ 64 + _ = _
    rw [Nat.mod_eq_of_lt hroom]
    omega
  · omega

theorem heapObjects (ha : u.Accounts granted live) : u.heapObjects.toNat = live.length := by
  rw [Usage.heapObjects, if_pos ha.frees_le, UInt64.toNat_sub_of_le _ _ ha.frees_le,
    ha.grants_eq, ← ha.frees_add]
  exact Nat.add_sub_cancel_left _ _

end Accounts

end Usage

namespace Heap

open Usage (octets octets_append)

variable {h : Heap} {c : Call} {earlier : List UInt64}

/-- A proper call changes the totals as it does the blocks. -/
theorem accounts_take (hn : h.Numbered) (hc : h.Names c) (ha : h.usage.Accounts earlier h.sizes)
    (htotal : octets (earlier ++ c.granted?.toList) < 2 ^ 64)
    (hcount : (earlier ++ c.granted?.toList).length < 2 ^ 64) :
    (h.take c).usage.Accounts (earlier ++ c.granted?.toList) (h.take c).sizes := by
  have hfreed : ∀ {block current}, h.size? block = some current →
      (h.usage.free current).Accounts earlier ((h.without block).map (·.2)) :=
    fun hsize => ha.free ((hn.perm_without hsize).map _)
  have hrefused : h.usage.Accounts (earlier ++ []) h.sizes := by
    rw [List.append_nil]
    exact ha
  cases c with
  | allocate size granted =>
      cases granted with
      | false => exact hrefused
      | true => exact ha.grant htotal hcount
  | resize block current size granted =>
      cases granted with
      | false => exact hrefused
      | true => exact (hfreed hc).grant htotal hcount
  | release block current =>
      show (h.usage.free current).Accounts (earlier ++ []) _
      rw [List.append_nil]
      exact hfreed hc

/-! ## Runs -/

theorem granted_cons (c : Call) (calls : List Call) :
    granted (c :: calls) = c.granted?.toList ++ granted calls := by
  rw [granted, List.filterMap_cons]
  cases c.granted? with
  | none => rfl
  | some size => rfl

theorem granted_append (before after : List Call) :
    granted (before ++ after) = granted before ++ granted after := List.filterMap_append

theorem accounts_takeAll (calls : List Call) : ∀ (h : Heap) (earlier : List UInt64), h.Numbered →
    h.usage.Accounts earlier h.sizes → h.Proper calls →
    octets (earlier ++ granted calls) < 2 ^ 64 → (earlier ++ granted calls).length < 2 ^ 64 →
    (h.takeAll calls).Numbered ∧
      (h.takeAll calls).usage.Accounts (earlier ++ granted calls) (h.takeAll calls).sizes := by
  induction calls with
  | nil =>
      intro h earlier hn ha _ _ _
      show h.Numbered ∧ h.usage.Accounts (earlier ++ []) h.sizes
      rw [List.append_nil]
      exact ⟨hn, ha⟩
  | cons c calls ih =>
      intro h earlier hn ha hproper htotal hcount
      rw [granted_cons, ← List.append_assoc] at htotal hcount ⊢
      have hroom : octets (earlier ++ c.granted?.toList) < 2 ^ 64 := by
        rw [octets_append] at htotal
        exact Nat.lt_of_le_of_lt (Nat.le_add_right _ _) htotal
      have hfew : (earlier ++ c.granted?.toList).length < 2 ^ 64 := by
        rw [List.length_append] at hcount
        exact Nat.lt_of_le_of_lt (Nat.le_add_right _ _) hcount
      exact ih (h.take c) _ (hn.take hproper.1) (accounts_take hn hproper.1 ha hroom hfew)
        hproper.2 htotal hcount

theorem proper_append {before after : List Call} : ∀ {h : Heap},
    h.Proper (before ++ after) ↔ h.Proper before ∧ (h.takeAll before).Proper after := by
  induction before with
  | nil =>
      intro h
      show h.Proper after ↔ True ∧ h.Proper after
      rw [true_and]
  | cons c before ih =>
      intro h
      show h.Names c ∧ (h.take c).Proper (before ++ after) ↔ _
      rw [ih, ← and_assoc]
      exact Iff.rfl

/-- The totals of a heap are what the calls count by themselves. -/
theorem usage_takeAll (calls : List Call) : ∀ h : Heap,
    (h.takeAll calls).usage = calls.foldl Usage.count h.usage := by
  induction calls with
  | nil => exact fun _ => rfl
  | cons c calls ih =>
      intro h
      have htake : (h.take c).usage = h.usage.count c := by
        cases c with
        | allocate size granted => cases granted <;> rfl
        | resize block current size granted => cases granted <;> rfl
        | release block current => rfl
      rw [List.foldl_cons, ← htake]
      exact ih (h.take c)

/-- Allocations balance.  When every call names the size that its block has, and all that was ever
handed out can be counted, the totals that the calls count by themselves are those of the live
blocks and of what was handed out, and nothing is ever taken off a smaller total. -/
theorem totals_tell_blocks (calls : List Call) (hproper : empty.Proper calls)
    (htotal : octets (granted calls) < 2 ^ 64) (hcount : (granted calls).length < 2 ^ 64) :
    let u := calls.foldl Usage.count .zero
    let h := empty.takeAll calls
    (h.blocks.map (·.1)).Nodup ∧
      u.live.toNat = octets h.sizes ∧
      u.frees ≤ u.grants ∧ u.grants.toNat - u.frees.toNat = h.blocks.length ∧
      u.heapObjects.toNat = h.blocks.length ∧
      u.total.toNat = octets (granted calls) ∧
      ∀ before c after size, calls = before ++ c :: after → c.returned? = some size →
        size ≤ (before.foldl Usage.count .zero).live := by
  intro u h
  have husage : ∀ cs, (empty.takeAll cs).usage = cs.foldl Usage.count .zero :=
    fun cs => usage_takeAll cs empty
  have hrun : ∀ cs, empty.Proper cs → octets (granted cs) < 2 ^ 64 →
      (granted cs).length < 2 ^ 64 → (empty.takeAll cs).Numbered ∧
        (cs.foldl Usage.count .zero).Accounts (granted cs) (empty.takeAll cs).sizes := by
    intro cs hcs hoctets hlength
    rw [← husage]
    exact accounts_takeAll cs empty [] numbered_empty Usage.accounts_zero hcs hoctets hlength
  obtain ⟨hnumbered, haccounts⟩ := hrun calls hproper htotal hcount
  have hblocks : h.sizes.length = h.blocks.length := List.length_map _
  refine ⟨hnumbered.nodup, haccounts.live_eq, haccounts.frees_le, ?_, ?_, haccounts.total_eq, ?_⟩
  · rw [haccounts.grants_eq, ← haccounts.frees_add, hblocks]
    exact Nat.add_sub_cancel_left _ _
  · rw [haccounts.heapObjects, hblocks]
  · intro before c after size hcalls hreturned
    -- What comes before a call is a run of its own, and has room where the whole run has.
    rw [hcalls, proper_append] at hproper
    rw [hcalls, granted_append, octets_append] at htotal
    rw [hcalls, granted_append, List.length_append] at hcount
    have hbefore := (hrun before hproper.1 (Nat.lt_of_le_of_lt (Nat.le_add_right _ _) htotal)
      (Nat.lt_of_le_of_lt (Nat.le_add_right _ _) hcount)).2
    exact hbefore.le_live (mem_sizes_of_returned? hproper.2.1 hreturned)

/-- Blocks that grow, move and go, and requests that are refused. -/
def sampleCalls : List Call :=
  [.allocate 64 true, .allocate 16 false, .allocate 8 true, .resize 0 64 100 true,
    .resize 0 100 4096 false, .release 1 8, .allocate 24 true, .resize 2 24 1 true]

theorem totals_tell_blocks_sampleCalls :
    empty.Proper sampleCalls ∧ octets (granted sampleCalls) < 2 ^ 64 ∧
      (granted sampleCalls).length < 2 ^ 64 ∧
      (sampleCalls.foldl Usage.count .zero).live.toNat = 101 ∧
      (sampleCalls.foldl Usage.count .zero).heapObjects.toNat = 2 ∧
      (sampleCalls.foldl Usage.count .zero).total.toNat = 197 := by
  have hproper : empty.Proper sampleCalls := by decide
  have htotal : octets (granted sampleCalls) < 2 ^ 64 := by decide
  have hcount : (granted sampleCalls).length < 2 ^ 64 := by decide
  obtain ⟨-, hlive, -, -, hobjects, hsum, -⟩ := totals_tell_blocks sampleCalls hproper htotal hcount
  exact ⟨hproper, htotal, hcount, hlive, hobjects, hsum⟩

end Heap

end Telemetry.Agent
