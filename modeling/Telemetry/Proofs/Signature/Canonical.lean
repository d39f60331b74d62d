/-
What a canonical text says.

The canonical text of a metric is its identifier, its kind and its number with colons between
them.  Only the identifier may have colons of its own, so the text is read from its right end
and says all three (`Metric.canonical_eq_iff`).

The canonical text of a reply is two free texts with `;err:` between them, and it says only what
these are when they are joined: the border may be moved to another `;err:`
(`Reply.canonical_eq_iff`).  Nor does anything in a canonical text say whether a metric or a
reply is meant.  A reply can have the text of a metric, but then it ends in the kind and the
number of the metric, and the identifier begins as a reply does (`Reply.canonical_eq_metric_iff`).
-/
import Telemetry.Proofs.Fault
import Telemetry.Proofs.Text.Marks
import Telemetry.Proofs.Text.Numeral
import Telemetry.Signature

namespace Telemetry

/-! ## Metrics -/

theorem Kind.name_inj {k l : Kind} : k.name = l.name ↔ k = l := by
  constructor
  · intro h
    have hread := congrArg Kind.ofName h
    rw [Kind.ofName_name, Kind.ofName_name] at hread
    exact Except.ok.inj hread
  · rintro rfl
    rfl

theorem Kind.colon_notMem_name (k : Kind) : ':' ∉ k.name.toList := by
  cases k <;> decide

namespace Metric

/-- A metric that carries the field of its kind; it may carry the other one too. -/
def HasField (m : Metric) : Prop :=
  match m.kind with
  | .counter => m.delta.isSome = true
  | .gauge => m.value.isSome = true

/-- Metrics of one name and kind that show the same: for counters the same delta, for gauges the
same value in six places. -/
def Alike (m n : Metric) : Prop :=
  m.id = n.id ∧ m.kind = n.kind ∧
    match m.kind with
    | .counter => m.delta = n.delta
    | .gauge => m.value.map (·.fixed 6) = n.value.map (·.fixed 6)

def numeral? (m : Metric) : Option String :=
  match m.kind with
  | .counter => m.delta.map fun d => Integer.ofInt d.toInt
  | .gauge => m.value.map fun v => v.fixed 6

theorem HasField.numeral {m : Metric} (h : m.HasField) : ∃ n, m.numeral? = some n := by
  rw [HasField] at h
  rw [numeral?]
  cases hkind : m.kind with
  | counter =>
      simp only [hkind] at h
      obtain ⟨d, hd⟩ := Option.isSome_iff_exists.mp h
      exact ⟨_, by rw [hd, Option.map_some]⟩
  | gauge =>
      simp only [hkind] at h
      obtain ⟨v, hv⟩ := Option.isSome_iff_exists.mp h
      exact ⟨_, by rw [hv, Option.map_some]⟩

theorem colon_notMem_numeral {m : Metric} {n : String} (h : m.numeral? = some n) :
    ':' ∉ n.toList := by
  have hnumeral : ∀ c ∈ n.toList, Numeral c := by
    intro c hc
    rw [numeral?] at h
    split at h
    · obtain ⟨d, -, rfl⟩ := Option.map_eq_some_iff.mp h
      exact Integer.numeral_of_mem_ofInt hc
    · obtain ⟨v, -, rfl⟩ := Option.map_eq_some_iff.mp h
      exact Binary64.numeral_of_mem_fixed hc
  exact fun hc => not_numeral_colon (hnumeral ':' hc)

theorem canonical_eq {m : Metric} {n : String} (h : m.numeral? = some n) :
    m.canonical = .ok (m.id ++ ":" ++ m.kind.name ++ ":" ++ n) := by
  rw [numeral?] at h
  rw [canonical]
  cases hkind : m.kind with
  | counter =>
      simp only [hkind] at h
      obtain ⟨d, hd, rfl⟩ := Option.map_eq_some_iff.mp h
      have hcolons : ":counter:" = ":" ++ Kind.counter.name ++ ":" := by decide
      simp only [hd, hcolons, String.append_assoc]
  | gauge =>
      simp only [hkind] at h
      obtain ⟨v, hv, rfl⟩ := Option.map_eq_some_iff.mp h
      have hcolons : ":gauge:" = ":" ++ Kind.gauge.name ++ ":" := by decide
      simp only [hv, hcolons, String.append_assoc]

theorem HasField.canonical {m : Metric} (h : m.HasField) : ∃ text, m.canonical = .ok text := by
  obtain ⟨n, hn⟩ := h.numeral
  exact ⟨_, canonical_eq hn⟩

theorem alike_iff {m n : Metric} :
    m.Alike n ↔ m.id = n.id ∧ m.kind = n.kind ∧ m.numeral? = n.numeral? := by
  rw [Alike]
  refine and_congr_right fun _ => and_congr_right fun hkind => ?_
  rw [numeral?, numeral?, ← hkind]
  cases m.kind with
  | counter =>
      have hinj : Function.Injective fun d : Int64 => Integer.ofInt d.toInt :=
        fun d e h => Int64.toInt.inj (Integer.ofInt_inj.mp h)
      exact (Option.map_injective hinj).eq_iff.symm
  | gauge => exact Iff.rfl

/-- The canonical texts of two metrics are the same just when the metrics are alike. -/
theorem canonical_eq_iff {m n : Metric} (hm : m.HasField) (hn : n.HasField) :
    m.canonical = n.canonical ↔ m.Alike n := by
  obtain ⟨a, ha⟩ := hm.numeral
  obtain ⟨b, hb⟩ := hn.numeral
  rw [canonical_eq ha, canonical_eq hb, alike_iff, ha, hb, Except.ok.injEq, Option.some.injEq,
    Text.append_colon_inj (colon_notMem_numeral ha) (colon_notMem_numeral hb),
    Text.append_colon_inj m.kind.colon_notMem_name n.kind.colon_notMem_name, Kind.name_inj,
    and_assoc]

end Metric

/-! ## Replies -/

namespace Reply

/-- What stands between the message and the error of a reply in its canonical text. -/
def border : String := ";err:"

theorem border_eq : border = ";err" ++ ":" := by decide

theorem toList_border : border.toList = ';' :: ['e', 'r', 'r', ':'] := rfl

/-- The text of a reply that is cut at another border than that between its message and its
error. -/
def Recut (r t : Reply) : Prop :=
  Text.Recut border r.message r.error t.message t.error ∨
    Text.Recut border t.message t.error r.message r.error

/-- The canonical texts of two replies are the same just when their messages and errors are, or
when the text is cut at different borders. -/
theorem canonical_eq_iff {r t : Reply} :
    r.canonical = t.canonical ↔ (r.message = t.message ∧ r.error = t.error) ∨ r.Recut t := by
  rw [canonical, canonical, String.append_assoc, String.append_assoc, String.append_assoc,
    String.append_assoc, String.append_right_inj, ← String.append_assoc, ← String.append_assoc]
  exact Text.append_mark_eq_iff toList_border (by decide)

/-- A text in which there is a border can be cut at it. -/
def Bordered (text : String) : Prop := ∃ before after, text = before ++ border ++ after

theorem Bordered.ne_empty {text : String} (h : Bordered text) : text ≠ "" := by
  rintro rfl
  obtain ⟨before, after, hempty⟩ := h
  have hlist := congrArg String.toList hempty
  rw [String.toList_append, String.toList_append, toList_border] at hlist
  simp at hlist

theorem Recut.bordered {r t : Reply} (h : r.Recut t) : Bordered r.message ∨ Bordered r.error := by
  rcases h with ⟨p, -, herror⟩ | ⟨p, hmessage, -⟩
  · exact .inr ⟨p, t.error, herror⟩
  · exact .inl ⟨t.message, p, hmessage⟩

/-! ## Replies and metrics -/

/-- A reply whose canonical text is that of a metric: it ends in the kind and the number of the
metric, and the rest of it is the identifier. -/
inductive PassesFor (r : Reply) (m : Metric) : Prop
  | whole {n : String} : m.numeral? = some n → m.id = "msg:" ++ r.message ++ ";err" →
      r.error = m.kind.name ++ ":" ++ n → PassesFor r m
  | behind {n lead : String} : m.numeral? = some n →
      m.id = "msg:" ++ r.message ++ border ++ lead →
      r.error = lead ++ ":" ++ m.kind.name ++ ":" ++ n → PassesFor r m

namespace PassesFor

variable {r : Reply} {m : Metric}

theorem error_ne_empty (h : r.PassesFor m) : r.error ≠ "" := by
  intro hempty
  have hcolon : ':' ∈ r.error.toList := by
    cases h with
    | whole _ _ herror =>
        rw [herror]
        exact Text.colon_mem _ _
    | behind _ _ herror =>
        rw [herror]
        exact Text.colon_mem _ _
  rw [hempty] at hcolon
  exact absurd hcolon List.not_mem_nil

/-- The identifier of a metric that a reply passes for begins as the reply does. -/
theorem exists_id (h : r.PassesFor m) : ∃ rest, m.id = "msg:" ++ r.message ++ ";err" ++ rest := by
  cases h with
  | whole _ hid _ => exact ⟨"", by rw [hid, String.append_empty]⟩
  | @behind _ lead _ hid _ =>
      refine ⟨":" ++ lead, ?_⟩
      rw [hid, border_eq]
      simp only [String.append_assoc]

end PassesFor

/-- The name of a kind is not what ends before the colon of a border. -/
theorem append_name_ne (a b : String) (k : Kind) : a ++ k.name ≠ b ++ ";err" := by
  intro h
  have hlist := congrArg String.toList h
  cases k with
  | counter =>
      have hsplit : Kind.counter.name.toList = ['c', 'o', 'u'] ++ ['n', 't', 'e', 'r'] := by decide
      rw [String.toList_append, String.toList_append, hsplit, ← List.append_assoc] at hlist
      exact absurd (List.append_inj_right' hlist rfl) (by decide)
  | gauge =>
      have hsplit : Kind.gauge.name.toList = ['g'] ++ ['a', 'u', 'g', 'e'] := by decide
      rw [String.toList_append, String.toList_append, hsplit, ← List.append_assoc] at hlist
      exact absurd (List.append_inj_right' hlist rfl) (by decide)

/-- The canonical text of a metric is that of a reply just when the reply passes for the metric. -/
theorem canonical_eq_metric_iff {r : Reply} {m : Metric} (hm : m.HasField) :
    m.canonical = .ok r.canonical ↔ r.PassesFor m := by
  obtain ⟨n, hn⟩ := hm.numeral
  have hreply : r.canonical = "msg:" ++ r.message ++ ";err" ++ ":" ++ r.error := by
    rw [canonical, ← border, border_eq, ← String.append_assoc]
  rw [Metric.canonical_eq hn, Except.ok.injEq, hreply,
    Text.append_colon_eq_iff (Metric.colon_notMem_numeral hn)]
  constructor
  · rintro (⟨hname, -⟩ | ⟨p, hname, herror⟩)
    · exact absurd hname (append_name_ne _ _ _)
    · -- The colon before the kind is that of the border, or one in the error.
      rcases (Text.append_colon_eq_iff m.kind.colon_notMem_name).mp hname with
        ⟨hid, rfl⟩ | ⟨q, hid, rfl⟩
      · exact .whole hn hid herror
      · refine .behind hn ?_ herror
        rw [hid, border_eq, ← String.append_assoc]
  · rintro (⟨hn', hid, herror⟩ | ⟨hn', hid, herror⟩)
    · obtain rfl := Option.some.inj (hn.symm.trans hn')
      exact .inr ⟨m.kind.name, by rw [hid], herror⟩
    · obtain rfl := Option.some.inj (hn.symm.trans hn')
      refine .inr ⟨_, ?_, herror⟩
      rw [hid, border_eq]
      simp only [String.append_assoc]

end Reply

end Telemetry
