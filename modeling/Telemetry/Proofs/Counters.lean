/-
What labelled counters add up to.

Adding under some labels changes the counter under these labels, in whatever order they are, and
no other one; so it changes the sum of all counters by as much.
-/
import Mathlib.Data.List.Nodup
import Mathlib.Data.List.Perm.Basic
import Telemetry.Counters

namespace Telemetry

namespace Label

@[simp] theorem sort_singleton (l : Label) : sort [l] = [l] := List.mergeSort_singleton l

theorem sort_pair {a b x y : String} (h : compare a b = .lt) :
    sort [(a, x), (b, y)] = [(a, x), (b, y)] := by
  have horder : order (a, x) (b, y) = .lt := by
    simp only [order, compareLex, compareOn, h, Ordering.then]
  refine List.mergeSort_of_pairwise ?_
  rw [List.pairwise_pair, horder]
  rfl

end Label

namespace Counters

@[simp] theorem get_empty (labels : List Label) : empty.get labels = 0 := by
  simp [get, empty]

theorem get_add (c : Counters) (labels : List Label) (n : UInt64) (others : List Label) :
    (c.add labels n).get others =
      if Label.sort labels = Label.sort others then c.get others + n else c.get others := by
  simp only [get, add, Std.ExtTreeMap.getElem?_insert, Std.LawfulEqCmp.compare_eq_iff_eq]
  split
  · rename_i hsame
    rw [hsame, Option.getD_some]
  · rfl

theorem get_inc (c : Counters) (labels others : List Label) :
    (c.inc labels).get others =
      if Label.sort labels = Label.sort others then c.get others + 1 else c.get others :=
  c.get_add labels 1 others

/-! ## The sum of all counters -/

def sum (entries : List (List Label × UInt64)) : UInt64 :=
  entries.foldr (fun entry n => entry.2 + n) 0

theorem sum_perm {xs ys : List (List Label × UInt64)} (h : xs.Perm ys) : sum xs = sum ys := by
  have hswap : LeftCommutative fun (entry : List Label × UInt64) n => entry.2 + n :=
    ⟨fun x y n => by rw [← UInt64.add_assoc, UInt64.add_comm x.2, UInt64.add_assoc]⟩
  exact h.foldr_eq 0

def total (c : Counters) : UInt64 := sum c.snapshot

theorem nodup_snapshot (c : Counters) : c.snapshot.Nodup := by
  refine Std.ExtTreeMap.distinct_keys_toList.imp fun hdistinct heq => hdistinct ?_
  rw [heq]
  exact Std.ReflCmp.compare_self

theorem mem_snapshot {c : Counters} {labels : List Label} {n : UInt64} :
    (labels, n) ∈ c.snapshot ↔ c.entries[labels]? = some n :=
  Std.ExtTreeMap.mem_toList_iff_getElem?_eq_some

def besides (c : Counters) (labels : List Label) : List (List Label × UInt64) :=
  c.snapshot.filter fun entry => entry.1 ≠ Label.sort labels

theorem nodup_besides (c : Counters) (labels : List Label) : (c.besides labels).Nodup :=
  c.nodup_snapshot.filter _

theorem mem_besides {c : Counters} {labels others : List Label} {n : UInt64} :
    (others, n) ∈ c.besides labels ↔
      c.entries[others]? = some n ∧ others ≠ Label.sort labels := by
  rw [besides, List.mem_filter, mem_snapshot, decide_eq_true_iff]

/-- Beside the others there is the counter under the labels, if it was ever used. -/
theorem snapshot_perm (c : Counters) (labels : List Label) :
    c.snapshot.Perm
      ((c.entries[Label.sort labels]?.map (Label.sort labels, ·)).toList ++ c.besides labels) := by
  have hnodup : ((c.entries[Label.sort labels]?.map (Label.sort labels, ·)).toList ++
      c.besides labels).Nodup := by
    refine List.Nodup.append ?_ (c.nodup_besides labels) ?_
    · cases c.entries[Label.sort labels]? with
      | none => exact List.nodup_nil
      | some n => exact List.nodup_singleton _
    · rintro ⟨others, n⟩ hmem hbesides
      obtain ⟨m, -, hm⟩ := Option.map_eq_some_iff.mp (Option.mem_toList.mp hmem)
      exact (mem_besides.mp hbesides).2 (Prod.mk.inj hm).1.symm
  refine (List.perm_ext_iff_of_nodup c.nodup_snapshot hnodup).mpr fun ⟨others, n⟩ => ?_
  rw [List.mem_append, mem_snapshot, mem_besides, Option.mem_toList, Option.map_eq_some_iff]
  by_cases hsame : others = Label.sort labels
  · subst hsame
    simp
  · simp [hsame, Ne.symm hsame]

theorem total_eq (c : Counters) (labels : List Label) :
    c.total = c.get labels + sum (c.besides labels) := by
  rw [total, sum_perm (c.snapshot_perm labels), get]
  cases c.entries[Label.sort labels]? with
  | none => exact (UInt64.zero_add _).symm
  | some n => rfl

/-- Adding leaves the counters under other labels alone. -/
theorem besides_add (c : Counters) (labels : List Label) (n : UInt64) :
    ((c.add labels n).besides labels).Perm (c.besides labels) := by
  refine (List.perm_ext_iff_of_nodup ((c.add labels n).nodup_besides labels)
    (c.nodup_besides labels)).mpr fun ⟨others, m⟩ => ?_
  rw [mem_besides, mem_besides]
  refine and_congr_left fun hother => ?_
  have hcompare : List.compareLex Label.order (Label.sort labels) others ≠ .eq :=
    fun heq => hother (Std.LawfulEqCmp.eq_of_compare heq).symm
  rw [add, Std.ExtTreeMap.getElem?_insert, if_neg hcompare]

theorem total_add (c : Counters) (labels : List Label) (n : UInt64) :
    (c.add labels n).total = c.total + n := by
  rw [total_eq _ labels, sum_perm (c.besides_add labels n), get_add, if_pos rfl,
    c.total_eq labels, UInt64.add_assoc, UInt64.add_comm n, UInt64.add_assoc]

theorem total_inc (c : Counters) (labels : List Label) :
    (c.inc labels).total = c.total + 1 := c.total_add labels 1

@[simp] theorem total_empty : empty.total = 0 := rfl

end Counters

end Telemetry
