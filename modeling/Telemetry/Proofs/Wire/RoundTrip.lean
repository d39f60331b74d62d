/-
What arrives is what was sent.

A metric that is named and complete, and whose level reads back if it has one, arrives as it was,
whether it is sent for an update, for a look-up or in the frame of a call, and so does a reply.  Only one thing is not told apart on the
way: an empty hash arrives as none (`Metric.received`).

What arrives for a look-up need not be complete, but it has to be named (`Metric.decode_received`,
`Metric.decode_unnamed`).  What arrives for an update has to be complete, which a metric with
both fields is not.
-/
import Telemetry.Proofs.Store.Snapshot
import Telemetry.Proofs.Wire.Received
import Telemetry.Proofs.Wire.ReplyJson
import Telemetry.Wire.Frame

namespace Telemetry

namespace Metric

variable {m : Metric}

theorem decode_received (hm : m.Finite) (hback : m.ReadsBack) (hid : m.id ≠ "") :
    decode m.encode = .ok m.received := by
  rw [decode, draft_of_readsBack hm hback, Result.bind_ok, namedMetric_draft, if_neg hid]

theorem decode_unnamed (hm : m.Finite) (hback : m.ReadsBack) (hid : m.id = "") :
    decode m.encode = .error (.badAttrValue "empty metric id") := by
  rw [decode, draft_of_readsBack hm hback, Result.bind_ok, namedMetric_draft, if_pos hid]

theorem complete_received {r : Reading} (hr : m.reading = .ok r) :
    m.received.complete = .ok m.received := by
  rw [complete, reading_received, hr, Result.map_ok]

theorem value_of_isQuery (hm : m.isQuery = true) : m.value = none := by
  cases hx : m.value with
  | none => rfl
  | some x =>
      rw [isQuery, hx] at hm
      simp at hm

/-- A named and complete metric arrives as what is received of it in all three ways. -/
theorem arrives (hid : m.id ≠ "") {r : Reading} (hr : m.reading = .ok r) (hm : m.Finite)
    (hback : m.ReadsBack) (seq : UInt32) :
    decodeUpdate m.encode = .ok m.received ∧ decode m.encode = .ok m.received ∧
      (Frame.updateRequest seq m).update = .ok m.received := by
  have hupdate : decodeUpdate m.encode = .ok m.received := by
    rw [decodeUpdate_encode hm hback hid, complete_received hr]
  exact ⟨hupdate, decode_received hm hback hid, hupdate⟩

/-- A metric `m` that is named and complete, without an empty hash and with a finite level that
reads back if it is a gauge, arrives as it was, and with an empty hash it arrives without one.  A
query `q` arrives if it is named, and so does a reply `r` in the reply to any frame. -/
theorem round_trip {m q : Metric} (hid : m.id ≠ "") (hm : m.Storable) (hback : m.ReadsBack)
    (hq : q.isQuery = true) (seq : UInt32) (f : Frame) (r : Reply) :
    (decodeUpdate m.encode = .ok m ∧ decode m.encode = .ok m ∧
      (Frame.updateRequest seq m).update = .ok m) ∧
    (let unsigned := { m with hash := none }
      let emptied := { m with hash := some "" }
      decodeUpdate emptied.encode = .ok unsigned ∧ decode emptied.encode = .ok unsigned ∧
        (Frame.updateRequest seq emptied).update = .ok unsigned) ∧
    (decode q.encode = if q.id = "" then .error (.badAttrValue "empty metric id")
      else .ok { q with hash := q.hash.filter (· ≠ "") }) ∧
    (f.reply r.encode).response = .ok r := by
  obtain ⟨reading, hreading⟩ := hm.complete
  refine ⟨?_, ?_, ?_, ?_⟩
  · have harrives := arrives hid hreading hm.finite hback seq
    rw [received_eq_self hm.hash] at harrives
    exact harrives
  · intro unsigned emptied
    exact @arrives emptied hid reading hreading hm.finite hback seq
  · have hvalue := value_of_isQuery hq
    have hfinite : q.Finite := by rw [Finite, hvalue]; exact nofun
    have hqback : q.ReadsBack := by rw [ReadsBack, hvalue]; exact nofun
    split
    · exact decode_unnamed hfinite hqback ‹_›
    · exact decode_received hfinite hqback ‹_›
  · rw [Frame.response, Frame.reply, Reply.parse?_encode]

/-- A signed gauge with marks and a control character in its name and the least level below zero. -/
theorem round_trip_leastLevel :
    let m : Metric := ⟨"\"a\\\u0001", .gauge, none, some ⟨0x8000000000000001⟩, some "6162"⟩
    let q := Metric.query "é" .counter
    let f : Frame := .request Frame.updateMethod none []
    let r : Reply := ⟨"", "no \"a\"", "6162"⟩
    m.id ≠ "" ∧ m.Storable ∧ m.ReadsBack ∧ q.isQuery = true ∧
      (decodeUpdate m.encode = .ok m ∧ decode m.encode = .ok m ∧
        (Frame.updateRequest 7 m).update = .ok m) ∧
      decode { m with hash := some "" }.encode = .ok { m with hash := none } ∧
      decode q.encode = .ok q ∧ (f.reply r.encode).response = .ok r := by
  intro m q f r
  have hid : m.id ≠ "" := by decide
  have hm : m.Storable := by
    refine ⟨⟨.gauge ⟨0x8000000000000001⟩, rfl⟩, ?_, by decide⟩
    intro x hx
    rw [← Option.some.inj hx]
    decide
  have hback : m.ReadsBack := by
    intro x hx _
    rw [← Option.some.inj hx]
    decide +kernel
  have hq : q.isQuery = true := rfl
  obtain ⟨harrives, hunsigned, hquery, hreply⟩ := round_trip hid hm hback hq 7 f r
  rw [if_neg (by decide)] at hquery
  exact ⟨hid, hm, hback, hq, harrives, hunsigned.2.1, hquery, hreply⟩

/-- A query without a name does not arrive, nor does a counter that has a level as well as its
delta, if it is sent for an update. -/
theorem round_trip_refused :
    let q := Metric.query "" .counter
    let m : Metric := ⟨"a", .counter, some 1, some ⟨0x3FF0000000000000⟩, none⟩
    (q.isQuery = true ∧ decode q.encode = .error (.badAttrValue "empty metric id")) ∧
      m.id ≠ "" ∧ m.delta = some 1 ∧ m.Finite ∧ m.hash = none ∧
        decodeUpdate m.encode = .error (.badAttrValue "counter a carries a gauge value") := by
  intro q m
  have hq : q.isQuery = true := rfl
  have hid : m.id ≠ "" := by decide
  have hm : m.Finite := by
    intro x hx
    rw [← Option.some.inj hx]
    decide
  have hback : m.ReadsBack := by
    intro x hx _
    rw [← Option.some.inj hx]
    decide +kernel
  refine ⟨⟨hq, decode_unnamed nofun nofun rfl⟩, hid, rfl, hm, rfl, ?_⟩
  rw [decodeUpdate_encode hm hback hid]
  rfl

end Metric

end Telemetry
