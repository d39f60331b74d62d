/-
What a snapshot brings into a store.

A file that cannot be read, or that is no list of documents, is refused and leaves the store as it
was.  Any other file is taken, whatever stands in it: its entries are read one by one, those that
are no complete metric are passed over, and the others are written in their order in place of what
was held (`Restored`).  So the last entry of a kind and an identifier counts, nothing is added to,
what no entry names is kept, and a file that is read again finds everything as it left it.

What a list of documents is can be said of the document that is read without a limit, together
with its depth (`Snapshot.Lists`).
-/
import Telemetry.Proofs.Json.Nesting
import Telemetry.Proofs.Store.Entries
import Telemetry.Proofs.Store.Writes

namespace Telemetry

namespace Snapshot

/-! ## What a snapshot holds -/

/-- Octets that write a list of documents, none of which goes too deep or holds texts that stand
for no characters or numbers that are out of range. -/
structure Lists (content : Bytes) (items : List Json) : Prop where
  parsed : Json.parse? content = some (.array items)
  nested : (Json.array items).depth < depthLimit
  plain : ∀ j ∈ items, j.isPlain = true

/-- The entries that are read, in their order, and as which metrics. -/
inductive Kept : List Json → List Metric → Prop
  | nil : Kept [] []
  | metric {j : Json} {m : Metric} {items : List Json} {ms : List Metric} :
      Decodes j m → Kept items ms → Kept (j :: items) (m :: ms)
  | passed {j : Json} {items : List Json} {ms : List Metric} :
      (∀ m, ¬Decodes j m) → Kept items ms → Kept (j :: items) ms

theorem entries?_eq_some_iff {content : Bytes} {items : List Json} :
    entries? content = some items ↔ Lists content items := by
  have hlimit : 0 < depthLimit := by decide
  rw [entries?]
  constructor
  · intro h
    split at h
    · rename_i read hread
      obtain ⟨hplain, hitems⟩ := Option.ite_none_right_eq_some.mp h
      obtain rfl := Option.some.inj hitems
      obtain ⟨hparsed, hnested⟩ := (Json.parseWithin?_eq_some_iff hlimit).mp hread
      exact ⟨hparsed, hnested, Json.arePlain_iff.mp hplain⟩
    · cases h
  · rintro ⟨hparsed, hnested, hplain⟩
    rw [(Json.parseWithin?_eq_some_iff hlimit).mpr ⟨hparsed, hnested⟩]
    exact if_pos (Json.arePlain_iff.mpr hplain)

theorem kept_iff {items : List Json} (hitems : ∀ j ∈ items, j.isPlain = true)
    {ms : List Metric} : Kept items ms ↔ items.filterMap entry? = ms := by
  induction items generalizing ms with
  | nil =>
      constructor
      · rintro ⟨⟩
        rfl
      · rintro rfl
        exact .nil
  | cons j items ih =>
      obtain ⟨hj, hitems⟩ := List.forall_mem_cons.mp hitems
      cases hentry : entry? j with
      | none =>
          have hno : ∀ m, ¬Decodes j m := fun m hm =>
            nomatch hentry.symm.trans ((entry?_eq_some_iff hj).mpr hm)
          rw [List.filterMap_cons_none hentry, ← ih hitems]
          constructor
          · rintro (_ | ⟨hm, -⟩ | ⟨-, hkept⟩)
            · exact absurd hm (hno _)
            · exact hkept
          · exact .passed hno
      | some m =>
          have hm := (entry?_eq_some_iff hj).mp hentry
          rw [List.filterMap_cons_some hentry]
          constructor
          · rintro (_ | ⟨hn, hkept⟩ | ⟨hno, -⟩)
            · have hsame := hentry.symm.trans ((entry?_eq_some_iff hj).mpr hn)
              rw [Option.some.inj hsame, (ih hitems).mp hkept]
            · exact absurd hm (hno m)
          · rintro rfl
            exact .metric hm ((ih hitems).mpr rfl)

theorem decode?_eq_some_iff {content : Bytes} {ms : List Metric} :
    decode? content = some ms ↔ ∃ items, Lists content items ∧ Kept items ms := by
  rw [decode?, Option.map_eq_some_iff]
  refine exists_congr fun items => ?_
  rw [entries?_eq_some_iff]
  exact and_congr_right fun hlists => (kept_iff hlists.plain).symm

theorem decode?_eq_none_iff {content : Bytes} :
    decode? content = none ↔ ∀ items, ¬Lists content items := by
  rw [decode?, Option.map_eq_none_iff, Option.eq_none_iff_forall_ne_some]
  exact forall_congr' fun items => not_congr entries?_eq_some_iff

theorem complete_of_kept {items : List Json} {ms : List Metric} (h : Kept items ms) :
    ∀ m ∈ ms, m.Complete := by
  induction h with
  | nil => exact fun _ hmem => absurd hmem List.not_mem_nil
  | metric hm _ ih => exact List.forall_mem_cons.mpr ⟨hm.complete, ih⟩
  | passed _ _ ih => exact ih

end Snapshot

/-! ## Writing in place -/

/-- Of amounts that are assigned the last is held, and without any what was held before. -/
theorem Write.foldl_on_assign (held : Option Int) (amounts : List Int64) :
    (amounts.map assign).foldl on held = (amounts.getLast?.map Int64.toInt).or held := by
  induction amounts generalizing held with
  | nil => exact Option.none_or.symm
  | cons n amounts ih =>
      rw [List.map_cons, List.foldl_cons, ih, List.getLast?_cons]
      cases amounts.getLast? <;> rfl

namespace Holdings

/-- Holdings after metrics were written in place of what was held: the last one of each kind and
identifier is held, and what none of them names as before. -/
structure Overwritten (h : Holdings) (ms : List Metric) (k : Holdings) : Prop where
  counters : ∀ id : String,
    k.counters[id]? = (ms.flatMap (Metric.amounts id)).getLast?.or h.counters[id]?
  gauges : ∀ id : String,
    k.gauges[id]? = (ms.flatMap (Metric.levels id)).getLast?.or h.gauges[id]?

theorem overwritten_of_replaceAll {h k : Holdings} {ms : List Metric}
    (hk : Memory.replaceAll h ms = .ok k) : h.Overwritten ms k := by
  refine ⟨fun id => ?_, fun id => (Becomes.replaceAll hk id).gauge⟩
  have hcounted := (Becomes.replaceAll hk id).counter
  rw [Call.writes, Write.foldl_on_assign, counted?, counted?, ← Option.map_or] at hcounted
  exact Option.map_injective (fun _ _ => Int64.toInt_inj.mp) hcounted

/-- Complete metrics are never refused. -/
theorem exists_replaceAll (h : Holdings) {ms : List Metric} (hms : ∀ m ∈ ms, m.Complete) :
    ∃ k, Memory.replaceAll h ms = .ok k := by
  obtain ⟨rs, hrs⟩ := exists_readings_iff_complete.mpr hms
  exact ⟨_, Result.map_eq_ok_iff.mpr ⟨rs, hrs, rfl⟩⟩

theorem replaceAll_eq_ok_iff {h k : Holdings} {ms : List Metric} (hms : ∀ m ∈ ms, m.Complete) :
    Memory.replaceAll h ms = .ok k ↔ h.Overwritten ms k := by
  refine ⟨overwritten_of_replaceAll, fun hk => ?_⟩
  obtain ⟨l, hl⟩ := exists_replaceAll h hms
  obtain ⟨hcounters, hgauges⟩ := overwritten_of_replaceAll hl
  rw [hl, Except.ok.injEq]
  exact ext_getElem? (fun id => (hcounters id).trans (hk.counters id).symm)
    fun id => (hgauges id).trans (hk.gauges id).symm

/-- Written once more, metrics change nothing. -/
theorem Overwritten.again {h k : Holdings} {ms : List Metric} (hk : h.Overwritten ms k) :
    k.Overwritten ms k := by
  refine ⟨fun id => ?_, fun id => ?_⟩
  · rw [hk.counters id, ← Option.or_assoc, Option.or_self]
  · rw [hk.gauges id, ← Option.or_assoc, Option.or_self]

end Holdings

/-! ## Restoring -/

namespace Store

/-- What restoring yields, and the store after it. -/
def restored (s : Store) (path : String) (d : Disk) : Result Nat × Store :=
  match s.restore path d with
  | .ok (n, t) => (.ok n, t)
  | .error f => (.error f, s)

/-- What restoring comes to on a store in memory. -/
inductive Restored (h : Holdings) (path : String) (d : Disk) : Result Nat × Store → Prop
  | unreadable : d.read? path = none →
      Restored h path d (.error (Snapshot.unusable path "cannot be read"), memory h)
  | malformed {content : Bytes} : d.read? path = some content →
      (∀ items, ¬Snapshot.Lists content items) →
      Restored h path d
        (.error (.badRequest ("snapshot " ++ path ++ ": malformed snapshot")), memory h)
  | taken {content : Bytes} {items : List Json} {ms : List Metric} {k : Holdings} :
      d.read? path = some content → Snapshot.Lists content items → Snapshot.Kept items ms →
      h.Overwritten ms k → Restored h path d (.ok ms.length, memory k)

theorem restored_of_load_error {s : Store} {path : String} {d : Disk} {f : Fault}
    (h : Snapshot.load path d = .error f) : s.restored path d = (.error f, s) := by
  rw [restored, restore, h]
  rfl

theorem restored_of_load {h k : Holdings} {path : String} {d : Disk} {ms : List Metric}
    (hload : Snapshot.load path d = .ok ms) (hk : Memory.replaceAll h ms = .ok k) :
    (memory h).restored path d = (.ok ms.length, memory k) := by
  have hreplace : (memory h).replaceAll ms = .ok (memory k) := by
    rw [replaceAll, hk]
    rfl
  have hrestore : (memory h).restore path d = .ok (ms.length, memory k) := by
    rw [restore, hload]
    change ((memory h).replaceAll ms).bind _ = _
    rw [hreplace]
    rfl
  rw [restored, hrestore]

theorem restored_eq_of_restored {h : Holdings} {path : String} {d : Disk}
    {out : Result Nat × Store} (hout : Restored h path d out) :
    (memory h).restored path d = out := by
  cases hout with
  | unreadable hread =>
      refine restored_of_load_error ?_
      rw [Snapshot.load, hread]
  | malformed hread hlists =>
      refine restored_of_load_error ?_
      rw [Snapshot.load, hread]
      simp only [Snapshot.decode?_eq_none_iff.mpr hlists]
  | taken hread hlists hkept hk =>
      refine restored_of_load ?_
        ((Holdings.replaceAll_eq_ok_iff (Snapshot.complete_of_kept hkept)).mpr hk)
      rw [Snapshot.load, hread]
      simp only [Snapshot.decode?_eq_some_iff.mpr ⟨_, hlists, hkept⟩]

theorem exists_restored (h : Holdings) (path : String) (d : Disk) :
    ∃ out, Restored h path d out := by
  cases hread : d.read? path with
  | none => exact ⟨_, .unreadable hread⟩
  | some content =>
      cases hdecode : Snapshot.decode? content with
      | none => exact ⟨_, .malformed hread (Snapshot.decode?_eq_none_iff.mp hdecode)⟩
      | some ms =>
          obtain ⟨items, hlists, hkept⟩ := Snapshot.decode?_eq_some_iff.mp hdecode
          obtain ⟨k, hk⟩ := Holdings.exists_replaceAll h (Snapshot.complete_of_kept hkept)
          exact ⟨_, .taken hread hlists hkept (Holdings.overwritten_of_replaceAll hk)⟩

/-- A file is restored as its entries tell: it is refused as a whole, or what it holds of metrics
is written in place of what was held.  To restore it again yields the same and changes nothing. -/
theorem restored_iff (h : Holdings) (path : String) (d : Disk) :
    (∀ out, (memory h).restored path d = out ↔ Restored h path d out) ∧
      ((memory h).restored path d).2.restored path d = (memory h).restored path d := by
  obtain ⟨out, hout⟩ := exists_restored h path d
  have hrestored := restored_eq_of_restored hout
  refine ⟨fun other => ⟨fun hother => hother ▸ hrestored ▸ hout, restored_eq_of_restored⟩, ?_⟩
  rw [hrestored]
  cases hout with
  | unreadable hread => exact restored_eq_of_restored (.unreadable hread)
  | malformed hread hlists => exact restored_eq_of_restored (.malformed hread hlists)
  | taken hread hlists hkept hk =>
      exact restored_eq_of_restored (.taken hread hlists hkept hk.again)

/-- A gauge with a delta and a number on its own are passed over. -/
example :
    let content := "[[\"a\", \"counter\", 4], [\"a\", \"gauge\", 1], 7, [\"a\", \"counter\", 2]]"
    Snapshot.decode? (Bytes.ofText content) = some [.counter "a" 4, .counter "a" 2] := by
  decide

end Store

end Telemetry
