/-
Rows of a database beside a store in memory.

A row is changed by an increment only where `Database.mayAdd` allows it.  That
test is itself worked out with 64-bit differences; they stay in range, and the
test says exactly that the sum does (`mayAdd_iff`).  So rows change as counters in
memory do, and refuse what memory refuses.  Gauges differ in two points only: a
row holds no number that is not one, and a zero in it has no sign.  `Storable`
leaves these two out.
-/
import Telemetry.Proofs.Store.Batch
import Telemetry.Store.Database

namespace Telemetry

def Binary64.negativeZero : Binary64 := ofMagnitude true 0

/-- A level that a row holds as it is: a number, and not the zero with a sign. -/
def Binary64.Storable (x : Binary64) : Prop := x.isNaN = false ∧ x ≠ negativeZero

instance (x : Binary64) : Decidable x.Storable := inferInstanceAs (Decidable (_ ∧ _))

namespace Database

/-! ## The test before a sum -/

theorem toInt_maxValue_sub {d : Int64} (h : 0 ≤ d) :
    (Int64.maxValue - d).toInt = Int64.maxValue.toInt - d.toInt := by
  have hd : (0 : Int64).toInt ≤ d.toInt := Int64.le_iff_toInt_le.mp h
  rw [Int64.toInt_zero] at hd
  have hr := Integer.inRange_iff.mp (Integer.inRange_toInt d)
  have hmax : Int64.maxValue.toInt = 9223372036854775807 := rfl
  exact Integer.toInt_sub (Integer.inRange_iff.mpr (by omega))

theorem toInt_minValue_sub {d : Int64} (h : d < 0) :
    (Int64.minValue - d).toInt = Int64.minValue.toInt - d.toInt := by
  have hd : d.toInt < (0 : Int64).toInt := Int64.lt_iff_toInt_lt.mp h
  rw [Int64.toInt_zero] at hd
  have hr := Integer.inRange_iff.mp (Integer.inRange_toInt d)
  have hmin : Int64.minValue.toInt = -9223372036854775808 := rfl
  exact Integer.toInt_sub (Integer.inRange_iff.mpr (by omega))

/-- The test says that the exact sum is in range. -/
theorem mayAdd_iff {held d : Int64} :
    mayAdd held d = true ↔ Integer.InRange (held.toInt + d.toInt) := by
  have hheld := Integer.inRange_toInt held
  by_cases hd : 0 ≤ d
  · have hpos : (0 : Int64).toInt ≤ d.toInt := Int64.le_iff_toInt_le.mp hd
    rw [Int64.toInt_zero] at hpos
    have hneg : ¬ d < 0 := Int64.not_lt.mpr hd
    simp only [mayAdd, hd, hneg, decide_true, decide_false, Bool.true_and, Bool.false_and,
      Bool.or_false, decide_eq_true_eq, Int64.le_iff_toInt_le, toInt_maxValue_sub hd,
      Integer.InRange]
    have hlow := hheld.1
    omega
  · have hneg : d < 0 := Int64.not_le.mp hd
    have hlt : d.toInt < (0 : Int64).toInt := Int64.lt_iff_toInt_lt.mp hneg
    rw [Int64.toInt_zero] at hlt
    simp only [mayAdd, hd, hneg, decide_true, decide_false, Bool.true_and, Bool.false_and,
      Bool.false_or, decide_eq_true_eq, Int64.le_iff_toInt_le, toInt_minValue_sub hneg,
      Integer.InRange]
    have hhigh := hheld.2
    omega

/-! ## Changing one row -/

/-- A counter's row changes as the counter does. -/
theorem addRow_eq (t : Holdings) (id : String) (d : Int64) :
    addRow t id d = Memory.apply t id (.counter d) := by
  rw [addRow, Memory.apply]
  cases hheld : t.counters[id]? with
  | none =>
      have hzero : Memory.sum id ((none : Option Int64).getD 0) d = .ok d :=
        Memory.sum_eq_ok_iff.mpr (by rw [Option.getD_none, Int64.toInt_zero, Int.zero_add])
      rw [hzero]
      rfl
  | some held =>
      rw [Option.getD_some]
      by_cases hmay : mayAdd held d = true
      · have hsum : Memory.sum id held d = .ok (held + d) :=
          Memory.sum_eq_ok_iff.mpr (Integer.toInt_add (mayAdd_iff.mp hmay))
        simp only [if_pos hmay, hsum]
        rfl
      · have hsum : Memory.sum id held d = .error (Holdings.overflow id) := by
          rw [Memory.sum, Integer.toInt64?_eq_none_iff.mpr fun h => hmay (mayAdd_iff.mpr h)]
        simp only [if_neg hmay, hsum]
        rfl

theorem kept_eq_self {x : Binary64} (h : x.Storable) : kept x = x := by
  rw [kept]
  split
  · rename_i hzero
    obtain ⟨bits⟩ := x
    have hlt := bits.toNat_lt
    rw [Binary64.magnitude, Binary64.signBit] at hzero
    by_cases hb : bits.toNat = 0
    · rw [Binary64.zero, Binary64.mk.injEq]
      exact (UInt64.toNat.inj hb).symm
    · have hsign : bits.toNat = 0x8000000000000000 := by
        simp only at hzero
        omega
      exact absurd (congrArg Binary64.mk (UInt64.toNat.inj hsign)) h.2
  · rfl

theorem setGauge_eq {x : Binary64} (h : x.Storable) (t : Holdings) (id : String) :
    setGauge t id x = .ok (t.put id (.gauge x)) := by
  rw [setGauge, kept_eq_self h, if_neg (by rw [h.1]; exact Bool.false_ne_true)]

/-! ## Changing rows in turn -/

def Storable (rs : List (String × Reading)) : Prop :=
  ∀ id x, (id, Reading.gauge x) ∈ rs → x.Storable

theorem Storable.tail {r : String × Reading} {rs : List (String × Reading)}
    (h : Storable (r :: rs)) : Storable rs :=
  fun id x hmem => h id x (List.mem_cons_of_mem r hmem)

theorem foldlM_accumulate_eq {rs : List (String × Reading)} (h : Storable rs) (t : Holdings) :
    rs.foldlM accumulate t = Memory.applyAll t rs := by
  induction rs generalizing t with
  | nil => rfl
  | cons r rs ih =>
      obtain ⟨id, r⟩ := r
      have hrow : accumulate t (id, r) = Memory.apply t id r := by
        cases r with
        | counter d => exact addRow_eq t id d
        | gauge x => exact setGauge_eq (h id x List.mem_cons_self) t id
      rw [List.foldlM_cons, Memory.applyAll_cons, hrow]
      cases Memory.apply t id r with
      | error f => rfl
      | ok t' => exact ih h.tail t'

theorem foldlM_assign_eq {rs : List (String × Reading)} (h : Storable rs) (t : Holdings) :
    rs.foldlM assign t = .ok (rs.foldl (fun t r => t.put r.1 r.2) t) := by
  induction rs generalizing t with
  | nil => rfl
  | cons r rs ih =>
      obtain ⟨id, r⟩ := r
      have hrow : assign t (id, r) = .ok (t.put id r) := by
        cases r with
        | counter d => rfl
        | gauge x => exact setGauge_eq (h id x List.mem_cons_self) t id
      rw [List.foldlM_cons, hrow]
      exact ih h.tail (t.put id r)

/-! ## Counters alone -/

theorem amount_foldlM_accumulate {rs : List (String × Reading)} {t u : Holdings}
    (hrs : rs.foldlM accumulate t = .ok u) (id : String) :
    u.amount id = t.amount id + Reading.total id rs := by
  induction rs generalizing t with
  | nil => cases hrs; exact (Int.add_zero _).symm
  | cons r rs ih =>
      rw [List.foldlM_cons] at hrs
      obtain ⟨t', hr, hrest⟩ := Result.bind_eq_ok_iff.mp hrs
      have hone : t'.amount id = t.amount id + Reading.increment id r := by
        obtain ⟨other, r⟩ := r
        cases r with
        | counter d => exact Memory.amount_apply ((addRow_eq t other d).symm.trans hr) id
        | gauge x =>
            rw [accumulate, setGauge] at hr
            split at hr
            · exact nomatch hr
            · cases hr
              rw [Holdings.amount_put_gauge, Reading.increment, Int.add_zero]
      rw [ih hrest, hone, Reading.total, Int.add_assoc]

end Database

end Telemetry
