/-
Metrics are read as they are written.

The document of a metric holds each field that the metric has under its name, and
nothing else.  The document is read from its octets, whether these are in lines or
without blanks, if the level is finite (`Metric.parse?_encode`).  The metric is read
from the document as it was but for its level, which is what the number that is written
for it is read as (`Metric.level?`, `Draft.ofJson?_toJson`).  So a metric without a level,
or with a finite one that reads back, is read as it was (`Metric.decode_encode`).

Names are read as they were written, since what is escaped is unescaped again, and each name is
found by what it is; the draft that comes of this makes the metric (`Draft.metric_eq`).
-/
import Telemetry.Proofs.Fault
import Telemetry.Proofs.Json.Document
import Telemetry.Wire.MetricJson

namespace Telemetry

namespace Json

/-! ## Leaves -/

@[simp] theorem text?_ofText (s : String) : text? (ofText s) = some s := unquote?_escape s

@[simp] theorem int64?_ofInt64 (d : Int64) : int64? (ofInt64 d) = some d := Number.int64?_ofInt d

theorem ofBinary64_eq {x : Binary64} (hx : x.isFinite = true) :
    ∃ n, Number.ofBinary64? x = some n ∧ ofBinary64 x = .number n ∧ n.WellFormed := by
  obtain ⟨n, hn, hform, -⟩ := Number.ofBinary64?_writes hx
  refine ⟨n, hn, ?_, hform⟩
  rw [ofBinary64, hn]

theorem binary64?_ofBinary64 {x : Binary64} (hx : x.ReadsBack) :
    (ofBinary64 x).binary64? = some x := by
  obtain ⟨n, hn, hdocument, -⟩ := ofBinary64_eq hx.isFinite
  rw [Binary64.ReadsBack, hn] at hx
  rw [hdocument]
  exact hx

/-! ## Records -/

/-- Named values without those that are absent. -/
def present (fields : List (String × Option Json)) : List (String × Json) :=
  fields.filterMap fun (name, value) => value.map (name, ·)

/-- Fields with their names as between quotes. -/
def escapedFields (fields : List (String × Json)) : List (Bytes × Json) :=
  fields.map fun (name, value) => ((Bytes.ofText name).flatMap escape, value)

theorem record_eq (fields : List (String × Option Json)) :
    record fields = .object (escapedFields (present fields)) := by
  rw [record, present, escapedFields, List.map_filterMap]
  congr 2
  funext f
  obtain ⟨name, value⟩ := f
  cases value with
  | none => rfl
  | some v => rfl

theorem named?_escapedFields (fields : List (String × Json)) :
    named? (escapedFields fields) = some fields := by
  induction fields with
  | nil => rfl
  | cons f fields ih =>
      obtain ⟨name, value⟩ := f
      simp only [named?, escapedFields] at ih
      simp only [named?, escapedFields, List.map_cons, List.mapM_cons, unquote?_escape, ih,
        Option.map_some]
      rfl

end Json

namespace Metric

def Finite (m : Metric) : Prop := ∀ x, m.value = some x → x.isFinite = true

/-- A metric whose level reads back, if it has one that is finite. -/
def ReadsBack (m : Metric) : Prop := ∀ x, m.value = some x → x.isFinite = true → x.ReadsBack

/-- What the level of a metric is read as, or that there is none; `none` when it is out of
range. -/
def level? (m : Metric) : Option (Option Binary64) :=
  Json.optional Json.binary64? (m.value.map Json.ofBinary64)

theorem Finite.level? {m : Metric} (hm : m.Finite) (hback : m.ReadsBack) :
    m.level? = some m.value := by
  rw [Metric.level?]
  cases hx : m.value with
  | none => rfl
  | some x =>
      obtain ⟨n, -, hdocument, -⟩ := Json.ofBinary64_eq (hm x hx)
      have hread := Json.binary64?_ofBinary64 (hback x hx (hm x hx))
      rw [Option.map_some]
      rw [hdocument] at hread ⊢
      exact congrArg (Option.map some) hread

def fields (m : Metric) : List (String × Json) :=
  Json.present [("id", some (Json.ofText m.id)), ("type", some (Json.ofText m.kind.name)),
    ("delta", m.delta.map Json.ofInt64), ("value", m.value.map Json.ofBinary64),
    ("hash", m.hash.map Json.ofText)]

theorem toJson_eq (m : Metric) : m.toJson = .object (Json.escapedFields m.fields) :=
  Json.record_eq _

end Metric

theorem Draft.ofJson?_toJson (m : Metric) :
    Draft.ofJson? m.toJson =
      m.level?.map fun value => ⟨m.id, m.kind.name, m.delta, value, m.hash⟩ := by
  have hdelta : Json.optional Json.int64? (m.delta.map Json.ofInt64) = some m.delta := by
    cases m.delta with
    | none => rfl
    | some d => exact congrArg (Option.map some) (Json.int64?_ofInt64 d)
  have hhash : Json.optional Json.text? (m.hash.map Json.ofText) = some m.hash := by
    cases m.hash with
    | none => rfl
    | some s => exact congrArg (Option.map some) (Json.text?_ofText s)
  have hslots : Json.slots? names m.toJson = some
      [some (Json.ofText m.id), some (Json.ofText m.kind.name), m.delta.map Json.ofInt64,
        m.value.map Json.ofBinary64, m.hash.map Json.ofText] := by
    rw [Metric.toJson_eq, Json.slots?, Json.named?_escapedFields, Option.bind_some]
    cases hd : m.delta <;> cases hv : m.value <;> cases hh : m.hash <;>
      simp [Metric.fields, Json.present, names, hd, hv, hh]
  rw [ofJson?, hslots, Option.bind_some, ofSlots?, hdelta, hhash, ← Metric.level?]
  cases m.level? with
  | none => simp
  | some value => simp

/-- A metric whose level reads back is read as the draft of itself. -/
theorem Draft.ofJson?_of_readsBack {m : Metric} (hm : m.Finite) (hback : m.ReadsBack) :
    Draft.ofJson? m.toJson = some ⟨m.id, m.kind.name, m.delta, m.value, m.hash⟩ := by
  rw [ofJson?_toJson, hm.level? hback, Option.map_some]

theorem Draft.metric_eq {m : Metric} (hhash : m.hash ≠ some "") :
    (⟨m.id, m.kind.name, m.delta, m.value, m.hash⟩ : Draft).metric = .ok m := by
  have hfilter : m.hash.filter (· ≠ "") = m.hash := by
    cases hh : m.hash with
    | none => rfl
    | some s =>
        have hs : s ≠ "" := fun h => hhash (by rw [hh, h])
        simp [hs]
  rw [metric, Kind.ofName_name, Result.map_ok, hfilter]

/-! ## Octets -/

namespace Json

section

variable {write : Json → Bytes} (hwrite : Reader.Layout write)

include hwrite

theorem reads_ofInt64 (n : Int64) : Reader.Reads 0 (ofInt64 n) (write (ofInt64 n)) :=
  hwrite.reads_number (Number.wellFormed_ofInt n.toInt)

theorem reads_ofBinary64 {x : Binary64} (hx : x.isFinite = true) :
    Reader.Reads 0 (ofBinary64 x) (write (ofBinary64 x)) := by
  obtain ⟨n, -, hdocument, hform⟩ := ofBinary64_eq hx
  rw [hdocument]
  exact hwrite.reads_number hform

end

end Json

namespace Metric

theorem mem_fields {m : Metric} {f : String × Json} (hf : f ∈ m.fields) :
    (∃ s, f.2 = Json.ofText s) ∨ (∃ d, f.2 = Json.ofInt64 d) ∨
      ∃ x, m.value = some x ∧ f.2 = Json.ofBinary64 x := by
  rw [fields, Json.present, List.mem_filterMap] at hf
  obtain ⟨⟨name, value⟩, hmem, hvalue⟩ := hf
  obtain ⟨v, hv, rfl⟩ := Option.map_eq_some_iff.mp hvalue
  simp only [List.mem_cons, Prod.mk.injEq, List.not_mem_nil, or_false] at hmem
  rcases hmem with ⟨-, rfl⟩ | ⟨-, rfl⟩ | ⟨-, rfl⟩ | ⟨-, rfl⟩ | ⟨-, rfl⟩
  · exact Or.inl ⟨m.id, (Option.some.inj hv).symm⟩
  · exact Or.inl ⟨m.kind.name, (Option.some.inj hv).symm⟩
  · obtain ⟨d, -, rfl⟩ := Option.map_eq_some_iff.mp hv
    exact Or.inr (Or.inl ⟨d, rfl⟩)
  · obtain ⟨x, hx, rfl⟩ := Option.map_eq_some_iff.mp hv
    exact Or.inr (Or.inr ⟨x, hx, rfl⟩)
  · obtain ⟨s, -, rfl⟩ := Option.map_eq_some_iff.mp hv
    exact Or.inl ⟨s, rfl⟩

theorem readsField (m : Metric) (hm : m.Finite) {write : Json → Bytes}
    (hwrite : Json.Reader.Layout write) :
    ∀ f ∈ Json.escapedFields m.fields, Json.Reader.ReadsField 0 write f := by
  intro f hf
  obtain ⟨⟨name, value⟩, hmem, rfl⟩ := List.mem_map.mp hf
  refine ⟨⟨name, rfl⟩, ?_⟩
  rcases mem_fields hmem with ⟨s, rfl⟩ | ⟨n, rfl⟩ | ⟨x, hx, rfl⟩
  · exact hwrite.reads_ofText s
  · exact Json.reads_ofInt64 hwrite n
  · exact Json.reads_ofBinary64 hwrite (hm x hx)

theorem reads_toJson {m : Metric} (hm : m.Finite) (d : Nat) :
    Json.Reader.Reads 1 m.toJson (Json.indented d m.toJson) := by
  have hne : Json.escapedFields m.fields ≠ [] := List.cons_ne_nil _ _
  rw [toJson_eq]
  exact Json.Reader.reads_indented_object d hne (m.readsField hm (Json.Reader.layout_indented _))

/-- The document of a metric is read from its octets. -/
theorem parse?_encode {m : Metric} (hm : m.Finite) : Json.parse? m.encode = some m.toJson := by
  rw [encode, toJson_eq]
  exact Json.parse?_compact_object (m.readsField hm Json.Reader.layout_compact)

theorem draft_encode {m : Metric} (hm : m.Finite) :
    draft m.encode =
      match m.level? with
      | some value => .ok ⟨m.id, m.kind.name, m.delta, value, m.hash⟩
      | none => .error malformed := by
  rw [draft, parse?_encode hm, Option.bind_some, Draft.ofJson?_toJson]
  cases m.level? <;> rfl

theorem draft_of_readsBack {m : Metric} (hm : m.Finite) (hback : m.ReadsBack) :
    draft m.encode = .ok ⟨m.id, m.kind.name, m.delta, m.value, m.hash⟩ := by
  rw [draft_encode hm, hm.level? hback]

/-- A named metric is decoded from its octets as it was encoded. -/
theorem decode_encode {m : Metric} (hm : m.Finite) (hback : m.ReadsBack) (hid : m.id ≠ "")
    (hhash : m.hash ≠ some "") : decode m.encode = .ok m := by
  rw [decode, draft_of_readsBack hm hback, Result.bind_ok, Draft.namedMetric, Draft.metric_eq hhash,
    Result.bind_ok, if_neg hid]

theorem isPlain_toJson {m : Metric} (hm : m.Finite) (hback : m.ReadsBack) : m.toJson.isPlain = true := by
  have hfields : ∀ fs : List (String × Json), (∀ f ∈ fs, f.2.isPlain = true) →
      Json.fieldsPlain (Json.escapedFields fs) = true := by
    intro fs h
    induction fs with
    | nil => rfl
    | cons f fs ih =>
        obtain ⟨name, value⟩ := f
        have hvalue := h (name, value) List.mem_cons_self
        have hrest := ih fun g hg => h g (List.mem_cons_of_mem _ hg)
        rw [Json.escapedFields, List.map_cons, ← Json.escapedFields, Json.fieldsPlain,
          Json.unquote?_escape, hrest, hvalue]
        rfl
  rw [toJson_eq, Json.isPlain]
  refine hfields m.fields fun f hf => ?_
  rcases mem_fields hf with ⟨s, hs⟩ | ⟨n, hn⟩ | ⟨x, hx, hv⟩
  · rw [hs, Json.ofText, Json.isPlain, Json.unquote?_escape]
    rfl
  · rw [hn, Json.ofInt64, Json.isPlain]
    exact Json.Number.isSome_binary64?_ofInt n
  · obtain ⟨n, -, hdocument, -⟩ := Json.ofBinary64_eq (hm x hx)
    have hread := Json.binary64?_ofBinary64 (hback x hx (hm x hx))
    rw [hdocument] at hread
    change n.binary64? = some x at hread
    rw [hv, hdocument, Json.isPlain, hread]
    rfl

end Metric

end Telemetry
