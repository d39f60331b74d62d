/-
Every refusal says why.

A reply has no field for success: it is a success when its error is empty.  So a call that were
refused with an empty text would be taken for one that was carried out, and the agent would
subtract what was never added.  The causes with a lead of their own cannot be empty; a denied
access has none, and what matters is that those who deny it give a reason.  `Explained` is this
property of a result; it is shown of each operation that a call goes through, in their order, and
of the call as a whole (`Server.explained_call`).
-/
import Telemetry.Proofs.Fault
import Telemetry.Proofs.Server.Orders

namespace Telemetry

namespace Fault

theorem Code.lead_eq_empty_iff {c : Code} : c.lead = "" ↔ c = .accessDenied := by
  cases c <;> decide

/-- Only a denied access without a reason is without a text. -/
theorem message_eq_empty_iff {f : Fault} : f.message = "" ↔ f = .accessDenied "" := by
  rw [message, String.append_eq_empty_iff, Code.lead_eq_empty_iff]
  constructor
  · rintro ⟨hcode, hsubject⟩
    cases f with
    | accessDenied s => rw [← show s = "" from hsubject]
    | _ => cases hcode
  · rintro rfl
    exact ⟨rfl, rfl⟩

end Fault

/-! ## Results -/

/-- A result that is refused with some text, if it is refused. -/
inductive Explained {α : Type} : Result α → Prop
  | ok (a : α) : Explained (.ok a)
  | error {f : Fault} : f.message ≠ "" → Explained (.error f)

namespace Explained

variable {α β : Type} {x : Result α}

theorem of_code {f : Fault} (h : decide (f.code = .accessDenied) = false) :
    Explained (.error f : Result α) := by
  refine .error ?_
  rw [Ne, Fault.message_eq_empty_iff]
  rintro rfl
  exact of_decide_eq_false h rfl

theorem message_ne_empty {f : Fault} (h : Explained x) (hx : x = .error f) : f.message ≠ "" := by
  cases h with
  | ok a => cases hx
  | error hf =>
      cases hx
      exact hf

theorem bind {f : α → Result β} (hx : Explained x) (hf : ∀ a, Explained (f a)) :
    Explained (x.bind f) := by
  cases hx with
  | ok a => exact hf a
  | error h => exact .error h

theorem map {f : α → β} (hx : Explained x) : Explained (x.map f) := by
  cases hx with
  | ok a => exact .ok (f a)
  | error h => exact .error h

theorem mapM {f : α → Result β} (hf : ∀ a, Explained (f a)) (l : List α) :
    Explained (l.mapM f) := by
  induction l with
  | nil => exact .ok []
  | cons a l ih =>
      rw [List.mapM_cons]
      exact (hf a).bind fun b => ih.bind fun bs => .ok (b :: bs)

theorem foldlM {f : β → α → Result β} (hf : ∀ b a, Explained (f b a)) (l : List α) (b : β) :
    Explained (l.foldlM f b) := by
  induction l generalizing b with
  | nil => exact .ok b
  | cons a l ih =>
      rw [List.foldlM_cons]
      exact (hf b a).bind ih

end Explained

/-! ## What is carried -/

theorem Kind.explained_ofName (name : String) : Explained (ofName name) := by
  rw [ofName]
  split
  · exact .ok _
  · split
    · exact .ok _
    · exact .of_code rfl

theorem Metric.explained_missingField {α : Type} (m : Metric) :
    Explained (.error m.missingField : Result α) := by
  rw [missingField]
  cases m.kind with
  | counter => exact .of_code rfl
  | gauge => exact .of_code rfl

theorem Metric.explained_reading (m : Metric) : Explained m.reading := by
  rw [reading]
  split
  · exact .of_code rfl
  · exact .ok _
  · exact .of_code rfl
  · exact .ok _
  · exact m.explained_missingField

theorem Draft.explained_namedMetric (d : Draft) : Explained d.namedMetric := by
  refine (Kind.explained_ofName d.kind).map.bind fun m => ?_
  split
  · exact .of_code rfl
  · exact .ok m

theorem Metric.explained_decodeUpdate (b : Bytes) : Explained (decodeUpdate b) := by
  have hdraft : Explained (draft b) := by
    rw [draft]
    split
    · exact .ok _
    · exact .of_code rfl
  exact hdraft.bind fun d => d.explained_namedMetric.bind fun m => m.explained_reading.map

theorem Frame.explained_decode (raw : Bytes) : Explained (decode raw) := by
  rw [decode.eq_def]
  split
  · split
    · exact .of_code rfl
    · split
      · exact .ok _
      · split
        · exact .ok _
        · exact .of_code rfl
  · exact .of_code rfl

/-! ## Guards -/

theorem Subnet.explained_checkAddress (n : Subnet) (a : IpAddr) : Explained (n.checkAddress a) := by
  rw [checkAddress]
  split
  · exact .ok ()
  · exact .error (by decide)

theorem Metric.explained_canonical (m : Metric) : Explained m.canonical := by
  rw [canonical]
  split
  · exact .ok _
  · exact .ok _
  · exact m.explained_missingField

theorem Signer.explained_verifyMetric (s : Signer) (m : Metric) : Explained (s.verifyMetric m) := by
  rw [verifyMetric]
  split
  · exact .of_code rfl
  · refine m.explained_canonical.bind fun text => ?_
    rw [check]
    split
    · exact .ok ()
    · exact .of_code rfl

/-! ## Stores -/

theorem Memory.explained_update (h : Holdings) (m : Metric) : Explained (update h m) := by
  refine m.explained_reading.bind fun r => ?_
  cases r with
  | gauge level => exact .ok _
  | counter delta =>
      refine Explained.map ?_
      rw [sum]
      split
      · exact .ok _
      · exact .of_code rfl

theorem Database.explained_accumulate (t : Holdings) (row : String × Reading) :
    Explained (accumulate t row) := by
  obtain ⟨id, r⟩ := row
  cases r with
  | counter delta =>
      rw [accumulate, addRow]
      split
      · exact .ok _
      · split
        · exact .ok _
        · exact .of_code rfl
  | gauge level =>
      rw [accumulate, setGauge]
      split
      · exact .of_code rfl
      · exact .ok _

theorem Database.explained_connection (db : Database) : Explained db.connection := by
  rw [connection]
  split
  · exact .of_code rfl
  · exact .ok _
  · exact .of_code rfl

theorem Database.explained_update (db : Database) (m : Metric) : Explained (db.update m) := by
  have hreadings : Explained (Holdings.readings [m]) :=
    .mapM (fun n => n.explained_reading.map) [m]
  refine hreadings.bind fun rs => db.explained_connection.bind fun c => ?_
  split
  · exact .of_code rfl
  · exact (Explained.foldlM explained_accumulate rs c.tables).map

theorem Store.explained_update (s : Store) (m : Metric) : Explained (s.update m) := by
  cases s with
  | memory h => exact (Memory.explained_update h m).map
  | database db => exact (db.explained_update m).map

/-! ## Calls -/

namespace Server

variable (s : Server)

theorem explained_verify (m : Metric) : Explained (s.verify m) := by
  rw [verify]
  split
  · exact Signer.explained_verifyMetric _ m
  · exact .ok ()

theorem explained_checkPeer (peer : IpAddr) : Explained (s.checkPeer peer) := by
  rw [checkPeer]
  split
  · exact Subnet.explained_checkAddress _ peer
  · exact .ok ()

theorem explained_frameMetric (peer : IpAddr) (f : Frame) : Explained (s.frameMetric peer f) := by
  rw [frameMetric]
  split
  · exact .of_code rfl
  · refine (s.explained_checkPeer peer).bind fun _ => ?_
    split
    · exact (Metric.explained_decodeUpdate f.payload).bind fun m => (s.explained_verify m).map
    · exact .of_code rfl

/-- A call is refused with a text, whoever refuses it. -/
theorem explained_call (peer : IpAddr) (f : Frame) : Explained (s.call peer f) := by
  rw [call_eq]
  exact (s.explained_frameMetric peer f).bind fun m => (s.store.explained_update m).map.map

end Server

end Telemetry
