/-
A batch is its elements.

A batch is decoded in two passes: all of it is read before anything is asked of a metric in it.
Since a document reads the same wherever it stands, reading is done element by element, and so is
what follows (`Metric.decodeBatch_arrayText`).  The passes show only in which refusal comes
first: an element that has not the shape of a metric spoils the batch wherever it stands, and
among elements of this shape the first that is refused decides.

What is written for a list of metrics is a batch of what is written for each
(`Metric.encodeAll_eq`), so what is read of it is read of each.
-/
import Telemetry.Proofs.Json.Parts
import Telemetry.Proofs.Wire.Received

namespace Telemetry

/-! ## One element -/

theorem Kind.ofName_eq_error {name : String} (h : ∀ k : Kind, k.name ≠ name) :
    ofName name = .error (.badType name) := by
  rw [ofName, if_neg (h .counter).symm, if_neg (h .gauge).symm]

theorem Draft.completeMetric_ne_badRequest (d : Draft) (text : String) :
    d.completeMetric ≠ .error (.badRequest text) := by
  intro h
  rcases Result.bind_eq_error_iff.mp h with hnamed | ⟨m, -, hreading⟩
  · rcases Result.bind_eq_error_iff.mp hnamed with hmetric | ⟨m, -, hid⟩
    · have hname := Result.map_eq_error_iff.mp hmetric
      rw [Kind.ofName] at hname
      split at hname
      · cases hname
      · split at hname <;> cases hname
    · split at hid <;> cases hid
  · have hmissing := Result.map_eq_error_iff.mp hreading
    unfold Metric.reading at hmissing
    split at hmissing
    · cases hmissing
    · cases hmissing
    · cases hmissing
    · cases hmissing
    · rename_i m _ _
      rw [Metric.missingField] at hmissing
      split at hmissing <;> cases hmissing

namespace Metric

theorem decodeUpdate_eq_badRequest_iff {b : Bytes} :
    (∃ text, decodeUpdate b = .error (.badRequest text)) ↔ ∀ d, draft b ≠ .ok d := by
  rw [decodeUpdate]
  cases hdraft : draft b with
  | ok d =>
      refine iff_of_false ?_ fun h => h d rfl
      rintro ⟨text, htext⟩
      exact d.completeMetric_ne_badRequest text htext
  | error f =>
      refine iff_of_true ?_ fun d hd => ?_
      · rw [draft] at hdraft
        split at hdraft
        · cases hdraft
        · cases hdraft
          exact ⟨_, rfl⟩
      · cases hd

/-- The kind of a draft is looked at first, then its identifier, then its value. -/
theorem decodeUpdate_of_draft {b : Bytes} {d : Draft} (h : draft b = .ok d) :
    ((∀ k : Kind, k.name ≠ d.kind) → decodeUpdate b = .error (.badType d.kind)) ∧
      ∀ k : Kind, k.name = d.kind → decodeUpdate b =
        if d.id = "" then .error (.badAttrValue "empty metric id")
        else (Metric.mk d.id k d.delta d.value (d.hash.filter (· ≠ ""))).complete := by
  rw [decodeUpdate, h, Result.bind_ok, Draft.completeMetric, Draft.namedMetric, Draft.metric]
  refine ⟨fun hkind => ?_, fun k hk => ?_⟩
  · rw [Kind.ofName_eq_error hkind]
    rfl
  · rw [← hk, Kind.ofName_name, Result.map_ok, Result.bind_ok]
    split <;> rfl

/-! ## All elements -/

theorem mapM_draft {parts : List (Json × Bytes)} (h : ∀ p ∈ parts, Json.parse? p.2 = some p.1) :
    (parts.map (·.2)).mapM draft =
      match (parts.map (·.1)).mapM Draft.ofJson? with
      | some ds => .ok ds
      | none => .error malformed := by
  induction parts with
  | nil => rfl
  | cons p parts ih =>
      have hp : (Json.parse? p.2).bind Draft.ofJson? = Draft.ofJson? p.1 := by
        rw [h p List.mem_cons_self, Option.bind_some]
      rw [List.map_cons, List.map_cons, List.mapM_cons, List.mapM_cons,
        ih fun q hq => h q (List.mem_cons_of_mem p hq), draft, hp]
      cases Draft.ofJson? p.1 with
      | none => rfl
      | some d => cases (parts.map (·.1)).mapM Draft.ofJson? <;> rfl

theorem decodeBatch_arrayText {texts : List Bytes}
    (h : ∀ e ∈ texts, ∃ j, Json.parse? e = some j) :
    decodeBatch (Json.arrayText texts) =
      match texts.mapM draft with
      | .ok ds => ds.mapM Draft.completeMetric
      | .error _ => .error malformedBatch := by
  obtain ⟨parts, hparts, rfl⟩ : ∃ parts : List (Json × Bytes),
      (∀ p ∈ parts, Json.parse? p.2 = some p.1) ∧ parts.map (·.2) = texts := by
    refine ⟨texts.map fun e => ((Json.parse? e).getD .null, e), ?_, ?_⟩
    · intro p hp
      obtain ⟨e, he, rfl⟩ := List.mem_map.mp hp
      obtain ⟨j, hj⟩ := h e he
      simp only [hj, Option.getD_some]
    · simp only [List.map_map, Function.comp_def, List.map_id']
  rw [decodeBatch, Json.parse?_arrayText hparts, Option.bind_some, drafts?, mapM_draft hparts]
  cases (parts.map (·.1)).mapM Draft.ofJson? <;> rfl

theorem mapM_decodeUpdate {texts : List Bytes} {ds : List Draft} (h : texts.mapM draft = .ok ds) :
    texts.mapM decodeUpdate = ds.mapM Draft.completeMetric := by
  induction texts generalizing ds with
  | nil =>
      cases h
      rfl
  | cons e texts ih =>
      obtain ⟨d, rest, hd, hrest, rfl⟩ := Result.mapM_cons_eq_ok_iff.mp h
      rw [List.mapM_cons, List.mapM_cons, ih hrest, decodeUpdate, hd, Result.bind_ok]

/-- Elements of the right shape are decoded in a batch as they are alone. -/
theorem decodeBatch_of_shaped {texts : List Bytes} (h : ∀ e ∈ texts, ∃ j, Json.parse? e = some j)
    (hshape : ∀ e ∈ texts, ∀ text, decodeUpdate e ≠ .error (.badRequest text)) :
    decodeBatch (Json.arrayText texts) = texts.mapM decodeUpdate := by
  obtain ⟨ds, hds⟩ : ∃ ds, texts.mapM draft = .ok ds := by
    refine Result.exists_mapM_eq_ok fun e he => ?_
    by_contra hnone
    obtain ⟨text, htext⟩ := decodeUpdate_eq_badRequest_iff.mpr (not_exists.mp hnone)
    exact hshape e he text htext
  rw [decodeBatch_arrayText h, hds, mapM_decodeUpdate hds]

/-- One element of another shape spoils a batch. -/
theorem decodeBatch_of_unshaped {texts : List Bytes} (h : ∀ e ∈ texts, ∃ j, Json.parse? e = some j)
    {e : Bytes} (he : e ∈ texts) {text : String}
    (hbad : decodeUpdate e = .error (.badRequest text)) :
    decodeBatch (Json.arrayText texts) = .error malformedBatch := by
  rw [decodeBatch_arrayText h]
  cases hds : texts.mapM draft with
  | error f => rfl
  | ok ds =>
      have hdraft : ∃ d, draft e = .ok d := by
        have hmem : draft e ∈ texts.map draft := List.mem_map_of_mem he
        rw [Result.mapM_eq_ok_iff.mp hds] at hmem
        obtain ⟨d, -, hd⟩ := List.mem_map.mp hmem
        exact ⟨d, hd.symm⟩
      obtain ⟨d, hd⟩ := hdraft
      exact absurd hd (decodeUpdate_eq_badRequest_iff.mp ⟨text, hbad⟩ d)

/-- A batch is decoded to what its elements are decoded to. -/
theorem decodeBatch_eq_ok_iff {texts : List Bytes} (h : ∀ e ∈ texts, ∃ j, Json.parse? e = some j)
    {ms : List Metric} :
    decodeBatch (Json.arrayText texts) = .ok ms ↔ texts.map decodeUpdate = ms.map .ok := by
  by_cases hshape : ∀ e ∈ texts, ∀ text, decodeUpdate e ≠ .error (.badRequest text)
  · rw [decodeBatch_of_shaped h hshape, Result.mapM_eq_ok_iff]
  · simp only [not_forall, not_not] at hshape
    obtain ⟨e, he, text, hbad⟩ := hshape
    rw [decodeBatch_of_unshaped h he hbad]
    refine iff_of_false nofun fun hall => ?_
    have hmem : decodeUpdate e ∈ texts.map decodeUpdate := List.mem_map_of_mem he
    rw [hall, hbad] at hmem
    obtain ⟨m, -, hm⟩ := List.mem_map.mp hmem
    cases hm

/-- A batch of documents is decoded when each of them is decoded as an update, to the same metrics
in the same order.  Otherwise it is a bad request if one of them is, wherever it stands, and if
none is, it is refused as the first of them that is refused: for its kind before its identifier,
and for that before its value. -/
theorem batch_elementwise {texts : List Bytes} (h : ∀ e ∈ texts, ∃ j, Json.parse? e = some j) :
    (∀ ms, decodeBatch (Json.arrayText texts) = .ok ms ↔ texts.map decodeUpdate = ms.map .ok) ∧
      ((∃ e ∈ texts, ∃ text, decodeUpdate e = .error (.badRequest text)) →
        ∃ text, decodeBatch (Json.arrayText texts) = .error (.badRequest text)) ∧
      ((∀ e ∈ texts, ∀ text, decodeUpdate e ≠ .error (.badRequest text)) →
        ∀ f, decodeBatch (Json.arrayText texts) = .error f ↔
          ∃ earlier e later, texts = earlier ++ e :: later ∧
            (∀ x ∈ earlier, ∃ m, decodeUpdate x = .ok m) ∧ decodeUpdate e = .error f) ∧
      ∀ e ∈ texts, ∀ d, draft e = .ok d →
        ((∀ k : Kind, k.name ≠ d.kind) → decodeUpdate e = .error (.badType d.kind)) ∧
          ∀ k : Kind, k.name = d.kind → decodeUpdate e =
            if d.id = "" then .error (.badAttrValue "empty metric id")
            else (Metric.mk d.id k d.delta d.value (d.hash.filter (· ≠ ""))).complete := by
  refine ⟨fun ms => decodeBatch_eq_ok_iff h, ?_, fun hshape f => ?_,
    fun e _ d hd => decodeUpdate_of_draft hd⟩
  · rintro ⟨e, he, text, hbad⟩
    exact ⟨_, decodeBatch_of_unshaped h he hbad⟩
  · rw [decodeBatch_of_shaped h hshape, Result.mapM_eq_error_iff]
    constructor
    · rintro ⟨earlier, e, later, ms, hsplit, hearlier, he⟩
      refine ⟨earlier, e, later, hsplit, fun x hx => ?_, he⟩
      have hmem : decodeUpdate x ∈ earlier.map decodeUpdate := List.mem_map_of_mem hx
      rw [Result.mapM_eq_ok_iff.mp hearlier] at hmem
      obtain ⟨m, -, hm⟩ := List.mem_map.mp hmem
      exact ⟨m, hm.symm⟩
    · rintro ⟨earlier, e, later, hsplit, hearlier, he⟩
      obtain ⟨ms, hms⟩ := Result.exists_mapM_eq_ok hearlier
      exact ⟨earlier, e, later, ms, hsplit, hms, he⟩

/-- A counter written as an array, and a gauge with an escaped name and a field that is unknown. -/
def writtenTexts : List Bytes :=
  [Bytes.ofText "[\"a\",\"counter\",1]",
    Bytes.ofText " \x7b\"value\":2,\"x\":[\x7b\x7d],\"type\":\"gauge\",\"id\":\"\\u0062\"\x7d"]

theorem batch_elementwise_writtenTexts :
    (∀ e ∈ writtenTexts, ∃ j, Json.parse? e = some j) ∧
      decodeBatch (Json.arrayText writtenTexts) =
        .ok [.counter "a" 1, .gauge "b" ⟨0x4000000000000000⟩] := by
  have hsome : ∀ e ∈ writtenTexts, (Json.parse? e).isSome = true := by decide +kernel
  have h : ∀ e ∈ writtenTexts, ∃ j, Json.parse? e = some j := fun e he =>
    Option.isSome_iff_exists.mp (hsome e he)
  exact ⟨h, ((batch_elementwise h).1 _).mpr (by decide +kernel)⟩

/-! ## Batches as they are written -/

theorem encodeAll_eq (ms : List Metric) : encodeAll ms = Json.arrayText (ms.map encode) := by
  rw [encodeAll, Json.compact, Json.Reader.compactItems_eq, List.map_map]
  rfl

theorem parse?_of_mem_encode {ms : List Metric} (hms : ∀ m ∈ ms, m.Finite) :
    ∀ e ∈ ms.map encode, ∃ j, Json.parse? e = some j :=
  List.forall_mem_map.mpr fun m hm => ⟨_, parse?_encode (hms m hm)⟩

theorem decodeBatch_encodeAll {ms ns : List Metric} (hms : ∀ m ∈ ms, m.Finite) :
    decodeBatch (encodeAll ms) = .ok ns ↔ (ms.map fun m => decodeUpdate m.encode) = ns.map .ok := by
  rw [encodeAll_eq, decodeBatch_eq_ok_iff (parse?_of_mem_encode hms), List.map_map]
  rfl

theorem decodeBatch_singleton_error {m : Metric} (hm : m.Finite) {f : Fault}
    (h : decodeUpdate m.encode = .error f) :
    ∃ g, decodeBatch (encodeAll [m]) = .error g ∧ g.code = f.code := by
  have hparse := parse?_of_mem_encode (List.forall_mem_singleton.mpr hm)
  rw [encodeAll_eq]
  by_cases hbad : ∃ text, f = .badRequest text
  · obtain ⟨text, rfl⟩ := hbad
    exact ⟨_, decodeBatch_of_unshaped hparse (List.mem_singleton_self m.encode) h, rfl⟩
  · refine ⟨f, ?_, rfl⟩
    rw [decodeBatch_of_shaped hparse, List.map_singleton, List.mapM_cons, h]
    · rfl
    · rintro _ he text htext
      rw [List.map_singleton, List.mem_singleton] at he
      rw [he, h] at htext
      exact hbad ⟨text, Except.error.inj htext⟩

end Metric

end Telemetry
