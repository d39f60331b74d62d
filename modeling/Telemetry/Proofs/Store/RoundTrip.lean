/-
A dump is restored as what was dumped.

Nothing that a store in memory holds stands in the way of its snapshot: whether a dump
succeeds is up to the disk alone (`Snapshot.dump_eq_none_iff`).  And as long as all levels are
finite and read back, nothing of what is held is lost on the way to a snapshot and back
(`Store.restore_dump`): identifiers may be any texts, amounts any numbers, and minus zero stays
what it is.
-/
import Telemetry.Proofs.Store.Recovery

namespace Telemetry

/-! ## Files that are put -/

namespace Disk

theorem place?_put {d : Disk} {text : String} {p q : Path} (content : Bytes)
    (h : d.place? text = some q) (hp : d.nodes[p]? ≠ some .directory) :
    (d.put p (.file content)).place? text = some q := by
  refine place?_of_dirs h rfl (fun other hother => ?_) ?_
  · have hne : p ≠ other := fun heq => hp (heq ▸ hother)
    rw [getElem?_put, if_neg hne, hother]
  · rw [getElem?_put]
    split
    · exact nofun
    · exact (eq_placeOf h).2

theorem place?_of_put {d : Disk} {text : String} {p q : Path} {content : Bytes}
    (h : (d.put p (.file content)).place? text = some q) (hp : d.nodes[p]? ≠ some .directory) :
    d.place? text = some q := by
  have hnodes : ∀ other : Path, (d.put p (.file content)).nodes[other]? = some .directory →
      d.nodes[other]? = some .directory := by
    intro other hother
    rw [getElem?_put] at hother
    split at hother
    · cases hother
    · exact hother
  refine place?_of_dirs h rfl hnodes fun hq => ?_
  have hne : p ≠ q := fun heq => hp (heq ▸ hq)
  apply (eq_placeOf h).2
  rw [getElem?_put, if_neg hne, hq]

theorem move?_put {d : Disk} {source target : String} {p q : Path} (content : Bytes)
    (hsource : d.place? source = some p) (htarget : d.place? target = some q) :
    ∃ e, (d.put p (.file content)).move? source target = some e := by
  have hp := (eq_placeOf hsource).2
  obtain ⟨husable, hleads⟩ := place?_eq_some_iff.mp (place?_put content hsource hp)
  have hlead : (d.put p (.file content)).lead source = .found p (.file content) := by
    rw [lead_of_leads husable hleads, getElem?_put, if_pos rfl, leadTo]
  rw [move?, hlead, place?_put content htarget hp]
  exact ⟨_, rfl⟩

/-- Wherever a file was moved there was a place. -/
theorem place?_of_move? {d e : Disk} {source target : String} (h : d.move? source target = some e) :
    ∃ q, d.place? target = some q := by
  rw [move?] at h
  split at h
  · cases h
  · rename_i hplace
    exact ⟨_, hplace⟩
  · cases h

end Disk

/-! ## Dumps -/

/-- A snapshot can be written to a path: the directory for it can be made, and then there is a
place for a file both at the path and beside it. -/
structure Snapshot.Possible (path : String) (d : Disk) : Prop where
  made : (d.makeDirs (PathText.parent path)).1 = true
  beside : ((d.makeDirs (PathText.parent path)).2.place? (PathText.beside path)).isSome = true
  place : ((d.makeDirs (PathText.parent path)).2.place? path).isSome = true

/-- A dump succeeds just when it is possible, whatever metrics are dumped. -/
theorem Snapshot.dump_eq_none_iff {path : String} {d : Disk} (ms : List Metric) :
    (∃ e, dump path ms d = (none, e)) ↔ Possible path d := by
  rcases hmade : d.makeDirs (PathText.parent path) with ⟨made, above⟩
  constructor
  · rintro ⟨e, h⟩
    cases made with
    | false => simp [dump, step, prepare, hmade] at h
    | true =>
        simp only [dump, step, prepare, hmade, if_true, writeBeside, Disk.write?] at h
        cases hbeside : above.place? (PathText.beside path) with
        | none => simp [hbeside] at h
        | some p =>
            simp only [hbeside, Option.map_some] at h
            obtain ⟨q, hq⟩ := Disk.place?_of_move? (Dumped.move?_of_moveInto h)
            have hplace := Disk.place?_of_put hq (Disk.eq_placeOf hbeside).2
            refine ⟨by rw [hmade], ?_, ?_⟩
            · rw [hmade, hbeside]
              rfl
            · rw [hmade, hplace]
              rfl
  · rintro ⟨htrue, hbeside, hplace⟩
    rw [hmade] at htrue hbeside hplace
    obtain ⟨p, hp⟩ := Option.isSome_iff_exists.mp hbeside
    obtain ⟨q, hq⟩ := Option.isSome_iff_exists.mp hplace
    obtain ⟨e, he⟩ := Disk.move?_put (encode ms) hp hq
    obtain rfl : made = true := htrue
    refine ⟨e, ?_⟩
    simp only [dump, step, prepare, hmade, if_true, writeBeside, Disk.write?, hp, Option.map_some,
      moveInto, he]

/-! ## Dumps and restores -/

theorem Holdings.length_metrics (h : Holdings) :
    h.metrics.length = h.counters.size + h.gauges.size := by
  rw [metrics, listing, List.length_append, counterMetrics, gaugeMetrics, List.length_map,
    List.length_map, Std.ExtTreeMap.length_toList, Std.ExtTreeMap.length_toList]

namespace Store

theorem dump_isOk_iff {h : Holdings} {path : String} {d : Disk} :
    (∃ n e, (memory h).dump path d = (.ok n, e)) ↔ Snapshot.Possible path d := by
  have hmetrics : (memory h).metrics = .ok h.metrics := rfl
  rw [← Snapshot.dump_eq_none_iff h.metrics]
  simp only [dump, hmetrics]
  rcases Snapshot.dump path h.metrics d with ⟨_ | f, e⟩
  · exact ⟨fun _ => ⟨e, rfl⟩, fun _ => ⟨_, e, rfl⟩⟩
  · refine ⟨?_, ?_⟩
    · rintro ⟨n, e, h⟩
      cases h
    · rintro ⟨e, h⟩
      cases h

theorem dump_eq_ok {h : Holdings} {path : String} {d e : Disk} {n : Nat}
    (hdump : (memory h).dump path d = (.ok n, e)) :
    n = h.metrics.length ∧ Snapshot.dump path h.metrics d = (none, e) := by
  have hmetrics : (memory h).metrics = .ok h.metrics := rfl
  simp only [dump, hmetrics] at hdump
  split at hdump
  · rename_i disk hsnapshot
    cases hdump
    exact ⟨rfl, hsnapshot⟩
  · cases hdump

theorem length_of_dump {h : Holdings} {path : String} {d e : Disk} {n : Nat}
    (hdump : (memory h).dump path d = (.ok n, e)) : n = h.counters.size + h.gauges.size := by
  rw [(dump_eq_ok hdump).1, h.length_metrics]

/-- What was dumped is restored, and the restore tells as much as the dump. -/
theorem restore_dump {h : Holdings} (hh : h.Finite) (hback : h.ReadsBack) {path : String}
    {d e : Disk} {n : Nat} (hdump : (memory h).dump path d = (.ok n, e)) :
    inMemory.restore path e = .ok (n, memory h) := by
  obtain ⟨rfl, hsnapshot⟩ := dump_eq_ok hdump
  exact restore_of_read? hh hback (Dumped.read?_of_dump hsnapshot)

end Store

end Telemetry
