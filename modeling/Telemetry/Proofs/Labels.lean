/-
Counters go by what labels they are given, not by the order of the labels or of the
calls.

Two lists of labels have one sorted list just when one is a permutation of the other
(`Label.sort_eq_sort_iff`), so there is one counter for each multiset of labels.  What
two calls add does not depend on which comes first (`Counters.update_right_comm`), and
so neither does what is listed in the end.  The listing is in the order of the sorted
labels, no two of which are the same: it is what sorting makes of the counters in
whatever order they are come upon (`Counters.sort_entries`).
-/
import Mathlib.Algebra.Group.Nat.Defs
import Telemetry.Proofs.Counters

namespace Telemetry

/-! ## Sorting by a comparison -/

section

variable {α : Type} {cmp : α → α → Ordering} [Std.TransCmp cmp]

theorem pairwise_mergeSort_isLE (xs : List α) :
    (xs.mergeSort fun a b => (cmp a b).isLE).Pairwise fun a b => (cmp a b).isLE := by
  refine List.pairwise_mergeSort (fun a b c => Std.TransCmp.isLE_trans) (fun a b => ?_) xs
  rw [Bool.or_eq_true]
  by_cases hle : (cmp a b).isLE = true
  · exact .inl hle
  · exact .inr (Ordering.isLE_of_eq_lt (Std.OrientedCmp.lt_of_not_isLE hle))

/-- There is one way to put things in order that the comparison tells apart. -/
theorem mergeSort_eq_of_perm [Std.LawfulEqCmp cmp] {xs ys : List α} (hperm : xs.Perm ys)
    (hys : ys.Pairwise fun a b => (cmp a b).isLE) :
    (xs.mergeSort fun a b => (cmp a b).isLE) = ys := by
  refine List.Perm.eq_of_pairwise ?_ (pairwise_mergeSort_isLE xs) hys
    ((List.mergeSort_perm xs _).trans hperm)
  intro a b _ _ hab hba
  exact Std.LawfulEqCmp.eq_of_compare (Std.OrientedCmp.isLE_antisymm hab hba)

end

namespace Label

variable {xs ys : List Label}

/-- Labels that stand in order; some of them may be the same. -/
def Sorted (labels : List Label) : Prop := labels.Pairwise fun a b => (order a b).isLE

theorem sort_perm (labels : List Label) : (sort labels).Perm labels := List.mergeSort_perm _ _

theorem sorted_sort (labels : List Label) : Sorted (sort labels) := pairwise_mergeSort_isLE labels

theorem sort_eq_sort_iff : sort xs = sort ys ↔ xs.Perm ys := by
  constructor
  · intro h
    exact (sort_perm xs).symm.trans (h ▸ sort_perm ys)
  · intro h
    exact mergeSort_eq_of_perm (h.trans (sort_perm ys).symm) (sorted_sort ys)

theorem Sorted.sort_eq (h : Sorted xs) : sort xs = xs := List.mergeSort_of_pairwise h

end Label

namespace Counters

/-! ## Calls -/

/-- A call that counts. -/
inductive Update where
  /-- Adds one. -/
  | inc (labels : List Label)
  /-- Adds an amount. -/
  | add (labels : List Label) (n : UInt64)

namespace Update

/-- The labels as the call gives them. -/
def labels : Update → List Label
  | inc labels | add labels _ => labels

/-- What the call adds. -/
def amount : Update → UInt64
  | inc _ => 1
  | add _ n => n

end Update

/-- The counters after a call. -/
def update (c : Counters) : Update → Counters
  | .inc labels => c.inc labels
  | .add labels n => c.add labels n

/-- The counters after calls. -/
def updateAll (c : Counters) (us : List Update) : Counters := us.foldl update c

/-- What calls add under the labels, in whatever order they give them. -/
def amountUnder (labels : List Label) : List Update → Nat
  | [] => 0
  | u :: us => (if u.labels.Perm labels then u.amount.toNat else 0) + amountUnder labels us

variable (c : Counters) {us : List Update}

theorem update_eq_add (u : Update) : c.update u = c.add u.labels u.amount := by
  cases u with
  | inc labels => rfl
  | add labels n => rfl

theorem getElem?_add (labels : List Label) (n : UInt64) (key : List Label) :
    (c.add labels n).entries[key]? =
      if Label.sort labels = key then some (c.get labels + n) else c.entries[key]? := by
  simp only [add, Std.ExtTreeMap.getElem?_insert, Std.LawfulEqCmp.compare_eq_iff_eq]

/-- Under the same labels the amounts add up, and under others they do not meet. -/
theorem add_right_comm (xs ys : List Label) (m n : UInt64) :
    (c.add xs m).add ys n = (c.add ys n).add xs m := by
  refine congrArg Counters.mk (Std.ExtTreeMap.ext_getElem? fun key => ?_)
  show ((c.add xs m).add ys n).entries[key]? = ((c.add ys n).add xs m).entries[key]?
  by_cases hsame : Label.sort xs = Label.sort ys
  · have hget : c.get xs = c.get ys := by rw [get, hsame, get]
    simp only [getElem?_add, get_add, hsame, hget, if_true]
    split
    · rw [UInt64.add_assoc, UInt64.add_comm m, ← UInt64.add_assoc]
    · rfl
  · simp only [getElem?_add, get_add, if_neg hsame, if_neg (Ne.symm hsame)]
    by_cases hys : Label.sort ys = key
    · have hxs : Label.sort xs ≠ key := fun hxs => hsame (hxs.trans hys.symm)
      rw [if_pos hys, if_neg hxs, if_pos hys]
    · rw [if_neg hys, if_neg hys]

theorem update_right_comm (u v : Update) : (c.update u).update v = (c.update v).update u := by
  rw [update_eq_add, update_eq_add, update_eq_add, update_eq_add, add_right_comm]

/-- Calls in another order count the same. -/
theorem updateAll_perm {vs : List Update} (h : us.Perm vs) : c.updateAll us = c.updateAll vs := by
  have : RightCommutative update := ⟨update_right_comm⟩
  exact h.foldl_eq c

/-! ## Values -/

theorem get_update (u : Update) (labels : List Label) :
    (c.update u).get labels =
      if u.labels.Perm labels then c.get labels + u.amount else c.get labels := by
  simp only [update_eq_add, get_add, Label.sort_eq_sort_iff]

theorem toNat_get_updateAll (labels : List Label) (us : List Update) : ∀ c : Counters,
    ((c.updateAll us).get labels).toNat =
      ((c.get labels).toNat + amountUnder labels us) % 2 ^ 64 := by
  induction us with
  | nil =>
      intro c
      exact (Nat.mod_eq_of_lt (c.get labels).toNat_lt).symm
  | cons u us ih =>
      intro c
      show (((c.update u).updateAll us).get labels).toNat = _
      rw [ih, get_update, amountUnder]
      split
      · rw [UInt64.toNat_add, Nat.mod_add_mod, Nat.add_assoc]
      · rw [Nat.zero_add]

/-! ## The listing -/

theorem mem_entries_updateAll (key : List Label) (us : List Update) : ∀ c : Counters,
    key ∈ (c.updateAll us).entries ↔
      key ∈ c.entries ∨ ∃ u ∈ us, Label.sort u.labels = key := by
  induction us with
  | nil =>
      intro c
      show key ∈ c.entries ↔ _
      simp only [List.not_mem_nil, false_and, exists_false, or_false]
  | cons u us ih =>
      intro c
      show key ∈ ((c.update u).updateAll us).entries ↔ _
      rw [ih, update_eq_add, add, Std.ExtTreeMap.mem_insert,
        Std.LawfulEqCmp.compare_eq_iff_eq, List.exists_mem_cons_iff, or_assoc, or_left_comm]

/-- The labels that counters are listed under. -/
def keys : List (List Label) := c.snapshot.map Prod.fst

theorem mem_keys {key : List Label} : key ∈ c.keys ↔ key ∈ c.entries := by
  rw [keys, snapshot, Std.ExtTreeMap.map_fst_toList_eq_keys, Std.ExtTreeMap.mem_keys]

theorem strict_snapshot :
    c.snapshot.Pairwise fun a b => List.compareLex Label.order a.1 b.1 = .lt :=
  Std.ExtTreeMap.ordered_keys_toList

theorem nodup_keys : c.keys.Nodup := by
  rw [keys, snapshot, Std.ExtTreeMap.map_fst_toList_eq_keys]
  exact Std.ExtTreeMap.nodup_keys

/-- What is listed is ordered by labels, and by values only under the same labels. -/
def order : List Label × UInt64 → List Label × UInt64 → Ordering :=
  compareLex (fun a b => List.compareLex Label.order a.1 b.1) (compareOn Prod.snd)

instance : Std.TransCmp fun a b : List Label × UInt64 => List.compareLex Label.order a.1 b.1 where
  eq_swap := Std.OrientedCmp.eq_swap
  isLE_trans := Std.TransCmp.isLE_trans

instance : Std.TransCmp order := inferInstanceAs (Std.TransCmp (compareLex _ _))

instance : Std.LawfulEqCmp order where
  compare_self := Std.ReflCmp.compare_self
  eq_of_compare h := by
    simp only [order, compareLex_eq_eq] at h
    exact Prod.ext (Std.LawfulEqCmp.eq_of_compare h.1) (Std.LawfulEqCmp.eq_of_compare h.2)

theorem sort_entries {entries : List (List Label × UInt64)} (h : entries.Perm c.snapshot) :
    (entries.mergeSort fun a b => (order a b).isLE) = c.snapshot := by
  refine mergeSort_eq_of_perm h (c.strict_snapshot.imp fun {a b} hlt => ?_)
  rw [order, compareLex, hlt]
  rfl

/-! ## What calls come to -/

theorem sorted_of_mem_keys {key : List Label} (h : key ∈ (empty.updateAll us).keys) :
    Label.Sorted key := by
  rcases (mem_entries_updateAll key us empty).mp (mem_keys _ |>.mp h) with hempty | ⟨u, -, rfl⟩
  · exact absurd hempty Std.ExtTreeMap.not_mem_empty
  · exact Label.sorted_sort u.labels

/-- Labels are listed once if a call gave them in some order, and otherwise not at all. -/
theorem countP_snapshot (us : List Update) (labels : List Label) :
    (empty.updateAll us).snapshot.countP (fun entry => entry.1.Perm labels) =
      if ∃ u ∈ us, u.labels.Perm labels then 1 else 0 := by
  let c := empty.updateAll us
  have hsorted : ∀ entry ∈ c.snapshot, entry.1.Perm labels ↔ entry.1 = Label.sort labels := by
    intro entry hentry
    -- What is listed is sorted already, so only the given labels have to be.
    have hkey : Label.Sorted entry.1 := sorted_of_mem_keys (List.mem_map_of_mem hentry)
    rw [← Label.sort_eq_sort_iff, hkey.sort_eq]
  have hused : Label.sort labels ∈ c.keys ↔ ∃ u ∈ us, u.labels.Perm labels := by
    rw [mem_keys, mem_entries_updateAll]
    simp only [Label.sort_eq_sort_iff, empty, Std.ExtTreeMap.not_mem_empty, false_or]
  calc c.snapshot.countP (fun entry => entry.1.Perm labels)
      = c.snapshot.countP ((· == Label.sort labels) ∘ Prod.fst) :=
        List.countP_congr fun entry hentry => by
          rw [decide_eq_true_iff, hsorted entry hentry]
          exact beq_iff_eq.symm
    _ = c.keys.count (Label.sort labels) := List.countP_map.symm
    _ = if Label.sort labels ∈ c.keys then 1 else 0 := c.nodup_keys.count
    _ = if ∃ u ∈ us, u.labels.Perm labels then 1 else 0 := by simp only [hused]

/-- Counters depend on the multisets of labels only.  Whatever the calls, a counter holds what was
added under its labels, given in any order, as far as it can be told; every multiset of labels that
was ever used is listed once, if only for an amount of zero, its labels sorted and with the value of
its counter; the listing is in order, and depends neither on how the counters are come upon nor on
the order of the calls. -/
theorem counted_by_labels (us : List Update) :
    let c := empty.updateAll us
    (∀ labels, (c.get labels).toNat = amountUnder labels us % 2 ^ 64) ∧
      (∀ labels, c.snapshot.countP (fun entry => entry.1.Perm labels) =
        if ∃ u ∈ us, u.labels.Perm labels then 1 else 0) ∧
      (∀ entry ∈ c.snapshot, Label.Sorted entry.1 ∧ entry.2 = c.get entry.1) ∧
      c.snapshot.Pairwise (fun a b => List.compareLex Label.order a.1 b.1 = .lt) ∧
      (∀ entries : List (List Label × UInt64), entries.Perm c.snapshot →
        (entries.mergeSort fun a b => (order a b).isLE) = c.snapshot) ∧
      ∀ vs, vs.Perm us → (empty.updateAll vs).snapshot = c.snapshot := by
  intro c
  refine ⟨?_, countP_snapshot us, ?_, c.strict_snapshot, fun _ => c.sort_entries, ?_⟩
  · intro labels
    rw [toNat_get_updateAll, get_empty]
    show (0 + _) % _ = _
    rw [Nat.zero_add]
  · rintro ⟨key, n⟩ hentry
    have hkey : Label.Sorted key := sorted_of_mem_keys (List.mem_map_of_mem hentry)
    refine ⟨hkey, ?_⟩
    show n = c.get key
    rw [get, hkey.sort_eq, mem_snapshot.mp hentry, Option.getD_some]
  · intro vs hperm
    rw [updateAll_perm empty hperm]

/-- Calls that give the same labels in two orders, one label twice, and an amount that runs over. -/
def sampleUpdates : List Update :=
  [.inc [("route", "/ping"), ("status", "200")], .add [] 18446744073709551615,
    .inc [("status", "200"), ("route", "/ping")], .add [("code", "x"), ("code", "x")] 0, .add [] 3]

theorem counted_by_labels_sampleUpdates :
    let c := empty.updateAll sampleUpdates
    (c.get [("status", "200"), ("route", "/ping")]).toNat = 2 ∧ (c.get []).toNat = 2 ∧
      c.snapshot.countP (fun entry => entry.1.Perm [("code", "x"), ("code", "x")]) = 1 ∧
      c.snapshot.countP (fun entry => entry.1.Perm [("code", "x")]) = 0 ∧
      (empty.updateAll sampleUpdates.reverse).snapshot = c.snapshot := by
  intro c
  obtain ⟨hget, hlisted, -, -, -, hperm⟩ := counted_by_labels sampleUpdates
  refine ⟨(hget _).trans ?_, (hget _).trans ?_, (hlisted _).trans ?_, (hlisted _).trans ?_,
    hperm _ (List.reverse_perm _)⟩
  all_goals decide

end Counters

end Telemetry
