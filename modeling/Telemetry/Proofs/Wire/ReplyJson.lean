/-
Replies are read as they are written.

An empty text is left out of the document of a reply, and what is left out is read as an empty
text, so nothing is lost (`Reply.parse?_encode`).
-/
import Telemetry.Proofs.Wire.MetricJson
import Telemetry.Wire.ReplyJson

namespace Telemetry.Reply

def fields (r : Reply) : List (String × Json) :=
  Json.present [("message", slotOf r.message), ("error", slotOf r.error), ("hash", slotOf r.hash)]

theorem toJson_eq (r : Reply) : r.toJson = .object (Json.escapedFields r.fields) :=
  Json.record_eq _

theorem slot?_slotOf (s : String) : slot? (slotOf s) = some s := by
  rw [slotOf]
  split
  · rename_i h
    rw [h, slot?]
  · exact Json.text?_ofText s

theorem ofJson?_toJson (r : Reply) : ofJson? r.toJson = some r := by
  have hslots : Json.slots? names r.toJson =
      some [slotOf r.message, slotOf r.error, slotOf r.hash] := by
    rw [toJson_eq, Json.slots?, Json.named?_escapedFields, Option.bind_some]
    cases hm : slotOf r.message <;> cases he : slotOf r.error <;> cases hh : slotOf r.hash <;>
      simp [fields, Json.present, names, hm, he, hh]
  simp only [ofJson?, hslots, slot?_slotOf]
  rfl

theorem readsField (r : Reply) : ∀ f ∈ Json.escapedFields r.fields,
    Json.Reader.ReadsField 0 Json.compact f := by
  intro f hf
  obtain ⟨⟨name, value⟩, hmem, rfl⟩ := List.mem_map.mp hf
  refine ⟨⟨name, rfl⟩, ?_⟩
  have htext : ∀ s, slotOf s = some value → value = Json.ofText s := by
    intro s hs
    rw [slotOf] at hs
    split at hs
    · cases hs
    · exact (Option.some.inj hs).symm
  obtain ⟨s, hs⟩ : ∃ s, slotOf s = some value := by
    rw [fields, Json.present, List.mem_filterMap] at hmem
    obtain ⟨⟨name, slot⟩, hslot, hvalue⟩ := hmem
    obtain ⟨v, hv, heq⟩ := Option.map_eq_some_iff.mp hvalue
    cases heq
    simp only [List.mem_cons, Prod.mk.injEq, List.not_mem_nil, or_false] at hslot
    rcases hslot with ⟨-, rfl⟩ | ⟨-, rfl⟩ | ⟨-, rfl⟩ <;> exact ⟨_, hv⟩
  rw [htext s hs]
  exact Json.Reader.layout_compact.reads_ofText s

/-- A reply is read from its octets as it was written. -/
theorem parse?_encode (r : Reply) : parse? r.encode = some r := by
  rw [parse?, encode, toJson_eq, Json.parse?_compact_object r.readsField, Option.bind_some,
    ← toJson_eq, ofJson?_toJson]

end Telemetry.Reply
