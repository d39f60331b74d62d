/-
The entries of a snapshot.

An entry is any document; it is read as a metric or passed over.  `Decodes` says when it is read,
and as which metric: what it gives for each field has to be of the type of this field, the kind
has to be a known one, and of `delta` and `value` there has to be the one of the kind, without the
other.  Of several fields with one name the last counts, fields with other names do not, and an
array gives the values in their order.

Texts and numbers that no field can have spoil a snapshot as a whole, so an entry is asked only
where it holds none of them (`entry?_eq_some_iff`).
-/
import Telemetry.Proofs.Store.InOrder
import Telemetry.Proofs.Store.Snapshot

namespace Telemetry

namespace Json

/-! ## Fields by name -/

/-- Of the fields with one name the last is kept. -/
theorem filter_lastNamed (name : String) (fields : List (String × Json)) :
    (lastNamed fields).filter (·.1 = name) = (fields.filter (·.1 = name)).getLast?.toList := by
  induction fields with
  | nil => rfl
  | cons f fields ih =>
      obtain ⟨key, value⟩ := f
      rw [lastNamed, List.filter_cons]
      by_cases hkey : key = name
      · subst hkey
        rw [if_pos (decide_eq_true rfl)]
        split
        · rename_i hlater
          obtain ⟨g, hg, hname⟩ := List.any_eq_true.mp hlater
          have hne : fields.filter (·.1 = key) ≠ [] :=
            List.ne_nil_of_mem (List.mem_filter.mpr ⟨hg, hname⟩)
          rw [ih, List.getLast?_cons, List.getLast?_eq_some_getLast hne, Option.getD_some]
        · rename_i hlast
          have hnil : fields.filter (·.1 = key) = [] := List.filter_eq_nil_iff.mpr
            fun g hg hname => hlast (List.any_eq_true.mpr ⟨g, hg, hname⟩)
          rw [List.filter_cons, if_pos (decide_eq_true rfl), ih, hnil]
          rfl
      · have hother : decide (key = name) = false := decide_eq_false hkey
        simp only [hother, Bool.false_eq_true, if_false]
        rw [← ih]
        split
        · rfl
        · rw [List.filter_cons, hother]
          rfl

/-- The values of the fields with a name, in the order of the text. -/
def valuesNamed (name : String) (fields : List (Bytes × Json)) : List Json :=
  (fields.filter fun f => unquote? f.1 = some name).map (·.2)

theorem named?_cons_eq_some_iff {key : Bytes} {value : Json} {fields : List (Bytes × Json)}
    {read : List (String × Json)} :
    named? ((key, value) :: fields) = some read ↔
      ∃ text rest, unquote? key = some text ∧ named? fields = some rest ∧
        (text, value) :: rest = read := by
  simp only [named?, List.mapM_cons, Option.bind_eq_bind, Option.pure_def,
    Option.bind_eq_some_iff, Option.map_eq_some_iff, Option.some.injEq]
  constructor
  · rintro ⟨-, ⟨text, htext, rfl⟩, rest, hrest, hread⟩
    exact ⟨text, rest, htext, hrest, hread⟩
  · rintro ⟨text, rest, htext, hrest, hread⟩
    exact ⟨_, ⟨text, htext, rfl⟩, rest, hrest, hread⟩

theorem valuesNamed_eq {fields : List (Bytes × Json)} {read : List (String × Json)}
    (h : named? fields = some read) (name : String) :
    valuesNamed name fields = (read.filter (·.1 = name)).map (·.2) := by
  induction fields generalizing read with
  | nil =>
      cases h
      rfl
  | cons f fields ih =>
      obtain ⟨text, rest, htext, hrest, rfl⟩ := named?_cons_eq_some_iff.mp h
      have hvalues := ih hrest
      simp only [valuesNamed] at hvalues ⊢
      rw [List.filter_cons, List.filter_cons, htext]
      by_cases hname : text = name
      · simp only [hname, decide_true, if_true, List.map_cons, hvalues]
      · simp only [hname, Option.some.injEq, decide_false, Bool.false_eq_true, if_false, hvalues]

theorem exists_named?_of_fieldsPlain {fields : List (Bytes × Json)}
    (h : fieldsPlain fields = true) : ∃ read, named? fields = some read := by
  induction fields with
  | nil => exact ⟨[], rfl⟩
  | cons f fields ih =>
      rw [fieldsPlain, Bool.and_eq_true_iff, Bool.and_eq_true_iff] at h
      obtain ⟨⟨hkey, -⟩, hrest⟩ := h
      obtain ⟨text, htext⟩ := Option.isSome_iff_exists.mp hkey
      obtain ⟨rest, hread⟩ := ih hrest
      exact ⟨_, named?_cons_eq_some_iff.mpr ⟨text, rest, htext, hread, rfl⟩⟩

end Json

/-! ## Drafts -/

theorem Kind.ofName_eq_ok_iff {s : String} {k : Kind} : ofName s = .ok k ↔ s = k.name := by
  constructor
  · intro h
    unfold ofName at h
    split at h
    · cases h
      assumption
    split at h
    · cases h
      assumption
    · cases h
  · rintro rfl
    exact ofName_name k

namespace Draft

theorem ofSlots?_eq_some_iff {id kind delta value hash : Option Json} {d : Draft} :
    ofSlots? [id, kind, delta, value, hash] = some d ↔
      id.bind Json.text? = some d.id ∧ kind.bind Json.text? = some d.kind ∧
        Json.optional Json.int64? delta = some d.delta ∧
        Json.optional Json.binary64? value = some d.value ∧
        Json.optional Json.text? hash = some d.hash := by
  obtain ⟨i, k, n, x, s⟩ := d
  simp only [ofSlots?, Option.bind_eq_bind, Option.bind_eq_some_iff, Option.some.injEq, mk.injEq]
  constructor
  · rintro ⟨_, hid, _, hkind, _, hdelta, _, hvalue, _, hhash, rfl, rfl, rfl, rfl, rfl⟩
    exact ⟨hid, hkind, hdelta, hvalue, hhash⟩
  · rintro ⟨hid, hkind, hdelta, hvalue, hhash⟩
    exact ⟨_, hid, _, hkind, _, hdelta, _, hvalue, _, hhash, rfl, rfl, rfl, rfl, rfl⟩

theorem metric_eq_ok_iff {d : Draft} {m : Metric} :
    d.metric = .ok m ↔ d.id = m.id ∧ d.kind = m.kind.name ∧ d.delta = m.delta ∧
      d.value = m.value ∧ d.hash.filter (· ≠ "") = m.hash := by
  obtain ⟨id, kind, delta, value, hash⟩ := m
  simp only [metric, Result.map_eq_ok_iff, Kind.ofName_eq_ok_iff, Metric.mk.injEq]
  constructor
  · rintro ⟨_, hkind, hid, rfl, hrest⟩
    exact ⟨hid, hkind, hrest⟩
  · rintro ⟨hid, hkind, hrest⟩
    exact ⟨kind, hkind, hid, rfl, hrest⟩

end Draft

namespace Snapshot

def given? (name : String) : Json → Option Json
  | .object fields => (Json.valuesNamed name fields).getLast?
  | .array items => items[Draft.names.idxOf name]?
  | _ => none

/-- An entry that may give values: an object, or an array with no more of them than there are
fields. -/
def Gives : Json → Prop
  | .object _ => True
  | .array items => items.length ≤ Draft.names.length
  | _ => False

theorem map_range_getElem? {items : List Json} {n : Nat} (h : items.length ≤ n) :
    (List.range n).map (items[·]?) =
      items.map some ++ List.replicate (n - items.length) none := by
  refine List.ext_getElem (by simp; omega) fun i hi _ => ?_
  rw [List.getElem_map, List.getElem_range]
  by_cases hitem : i < items.length
  · rw [List.getElem?_eq_getElem hitem, List.getElem_append_left (by simpa using hitem),
      List.getElem_map]
  · rw [List.getElem?_eq_none (Nat.le_of_not_lt hitem),
      List.getElem_append_right (by simpa using hitem), List.getElem_replicate]

theorem slots?_normalEntry {j : Json} (hj : j.isPlain = true) {slots : List (Option Json)} :
    Json.slots? Draft.names (normalEntry j) = some slots ↔
      Gives j ∧ Draft.names.map (given? · j) = slots := by
  cases j with
  | null | bool _ | number _ | string _ => exact iff_of_false nofun fun h => h.1
  | array items =>
      have hnormal : normalEntry (.array items) = .array items := rfl
      rw [hnormal, Json.slots?, Option.ite_none_right_eq_some, Gives]
      refine and_congr_right fun hlength => ?_
      rw [← map_range_getElem? hlength, Option.some.injEq]
      rfl
  | object fields =>
      rw [Json.isPlain] at hj
      obtain ⟨read, hread⟩ := Json.exists_named?_of_fieldsPlain hj
      have hnormal : normalEntry (.object fields) =
          .object (Json.escapedFields (Json.lastNamed read)) := by
        rw [normalEntry, hread]
        rfl
      have hgiven : ∀ name : String,
          ((Json.lastNamed read).find? (·.1 = name)).map (·.2) = given? name (.object fields) := by
        intro name
        rw [← List.head?_filter, Json.filter_lastNamed, given?, Json.valuesNamed_eq hread,
          List.getLast?_map]
        cases (read.filter (·.1 = name)).getLast? <;> rfl
      have hunique : (Draft.names.all fun name =>
          ((Json.lastNamed read).filter (·.1 = name)).length ≤ 1) = true := by
        refine List.all_eq_true.mpr fun name _ => decide_eq_true ?_
        rw [Json.filter_lastNamed]
        cases (read.filter (·.1 = name)).getLast? <;> simp
      rw [hnormal, Json.slots?, Json.named?_escapedFields, Option.bind_some, if_pos hunique]
      simp only [hgiven, Option.some.injEq, Gives, true_and]

/-! ## Entries -/

/-- An entry is read as a metric. -/
structure Decodes (j : Json) (m : Metric) : Prop where
  gives : Gives j
  id : (given? "id" j).bind Json.text? = some m.id
  kind : (given? "type" j).bind Json.text? = some m.kind.name
  delta : Json.optional Json.int64? (given? "delta" j) = some m.delta
  value : Json.optional Json.binary64? (given? "value" j) = some m.value
  hash : ∃ hash, Json.optional Json.text? (given? "hash" j) = some hash ∧
    hash.filter (· ≠ "") = m.hash
  complete : m.Complete

/-- An entry is read just as the metric that it decodes to. -/
theorem entry?_eq_some_iff {j : Json} (hj : j.isPlain = true) {m : Metric} :
    entry? j = some m ↔ Decodes j m := by
  rw [entry?_eq_some_iff_draft, ← Metric.complete_iff]
  constructor
  · rintro ⟨⟨d, hd, hm⟩, hcomplete⟩
    obtain ⟨slots, hslots, hdraft⟩ := Option.bind_eq_some_iff.mp hd
    obtain ⟨hgives, rfl⟩ := (slots?_normalEntry hj).mp hslots
    obtain ⟨hid, hkind, hdelta, hvalue, hhash⟩ := Draft.ofSlots?_eq_some_iff.mp hdraft
    obtain ⟨rid, rkind, rdelta, rvalue, rhash⟩ := Draft.metric_eq_ok_iff.mp hm
    exact ⟨hgives, rid ▸ hid, rkind ▸ hkind, rdelta ▸ hdelta, rvalue ▸ hvalue,
      ⟨d.hash, hhash, rhash⟩, hcomplete⟩
  · rintro ⟨hgives, hid, hkind, hdelta, hvalue, ⟨hash, hhash, hfilter⟩, hcomplete⟩
    refine ⟨⟨⟨m.id, m.kind.name, m.delta, m.value, hash⟩, ?_, ?_⟩, hcomplete⟩
    · exact Option.bind_eq_some_iff.mpr ⟨_, (slots?_normalEntry hj).mpr ⟨hgives, rfl⟩,
        Draft.ofSlots?_eq_some_iff.mpr ⟨hid, hkind, hdelta, hvalue, hhash⟩⟩
    · exact Draft.metric_eq_ok_iff.mpr ⟨rfl, rfl, rfl, rfl, hfilter⟩

end Snapshot

end Telemetry
