/-
What a reply says of a call.

Every frame has one reply, which repeats its method and its number, and which is read as it was
written.  An agent takes a reply without an error for the news that its metric was added, and
subtracts what it has sent; so this is what a reply has to be right about.  `Grants` lists what
has to come together for a metric to be added, and the reply is without an error just then
(`answer_contract`).  Along a connection the metrics of the frames that were acknowledged, and no
others, were applied to the store in their order (`store_answerAll`).
-/
import Telemetry.Proofs.Server.Authenticity
import Telemetry.Proofs.Server.Refusals
import Telemetry.Proofs.Wire.Frame
import Telemetry.Proofs.Wire.ReplyJson

namespace Telemetry

@[simp] theorem Reply.error_signed (signer : Option Signer) (r : Reply) :
    (r.signed signer).error = r.error := by
  cases signer with
  | none => rfl
  | some s => rfl

theorem Subnet.checkAddress_eq_ok_iff {n : Subnet} {a : IpAddr} :
    n.checkAddress a = .ok () ↔ n.contains a = true := by
  rw [checkAddress]
  exact Result.ite_eq_ok_iff

namespace Server

variable {s : Server} {peer : IpAddr}

/-! ## What a call needs -/

theorem checkPeer_eq_ok_iff :
    s.checkPeer peer = .ok () ↔ ∀ n, s.subnet = some n → n.contains peer = true := by
  rw [checkPeer]
  cases hsubnet : s.subnet with
  | none =>
      refine iff_of_true rfl ?_
      intro _ h
      cases h
  | some n =>
      simp only [Subnet.checkAddress_eq_ok_iff, Option.some.injEq, forall_eq']

theorem verify_eq_ok_iff {m : Metric} :
    s.verify m = .ok () ↔ ∀ k, s.signer = some k → m.Signed k.key := by
  rw [verify]
  cases hsigner : s.signer with
  | none =>
      refine iff_of_true rfl ?_
      intro _ h
      cases h
  | some k =>
      simp only [Signer.verifyMetric_eq_ok_iff, Option.some.injEq, forall_eq']

/-- A frame that asks for what may be done: it is a request for a method that there is, from a
peer that is trusted, with a metric that is complete and, where there is a key, signed. -/
structure Admits (s : Server) (peer : IpAddr) (f : Frame) (m : Metric) : Prop where
  request : f.isResponse = false
  trusted : ∀ n, s.subnet = some n → n.contains peer = true
  registered : ∃ method, Method.ofNumber? f.method = some method
  carried : Metric.decodeUpdate f.payload = .ok m
  signed : ∀ k, s.signer = some k → m.Signed k.key

theorem frameMetric_eq_ok_iff {f : Frame} {m : Metric} :
    s.frameMetric peer f = .ok m ↔ s.Admits peer f m := by
  constructor
  · intro h
    obtain ⟨hpeer, n, hn, hverified⟩ := frameMetric_eq_ok h
    obtain ⟨_, hverify, rfl⟩ := Result.map_eq_ok_iff.mp hverified
    rw [frameMetric] at h
    split at h
    · cases h
    · rename_i hrequest
      refine ⟨Bool.eq_false_iff.mpr hrequest, checkPeer_eq_ok_iff.mp hpeer, ?_, hn,
        verify_eq_ok_iff.mp hverify⟩
      obtain ⟨_, -, hrest⟩ := Result.bind_eq_ok_iff.mp h
      split at hrest
      · rename_i hmethod
        exact ⟨_, hmethod⟩
      · cases hrest
  · rintro ⟨hrequest, htrusted, ⟨⟨⟩, hmethod⟩, hcarried, hsigned⟩
    rw [frameMetric, if_neg (Bool.eq_false_iff.mp hrequest), checkPeer_eq_ok_iff.mpr htrusted,
      Result.bind_ok, hmethod]
    change (Metric.decodeUpdate f.payload).bind s.verified = .ok m
    rw [hcarried, Result.bind_ok, verified, verify_eq_ok_iff.mpr hsigned, Result.map_ok]

/-- Octets that have a store become another one: they are a frame that asks for what may be
done, and the store accepts its metric. -/
inductive Grants (s : Server) (peer : IpAddr) (raw : Bytes) (store : Store) : Prop
  | intro {f : Frame} {m : Metric} : Frame.decode raw = .ok f → s.Admits peer f m →
      s.store.update m = .ok store → Grants s peer raw store

/-- The store that octets lead to, or why they are refused. -/
def verdict (s : Server) (peer : IpAddr) (raw : Bytes) : Result Store :=
  (Frame.decode raw).bind fun f => (s.frameMetric peer f).bind s.store.update

theorem verdict_eq_ok_iff {raw : Bytes} {store : Store} :
    s.verdict peer raw = .ok store ↔ s.Grants peer raw store := by
  simp only [verdict, Result.bind_eq_ok_iff, frameMetric_eq_ok_iff]
  constructor
  · rintro ⟨f, hf, m, hm, hupdate⟩
    exact ⟨hf, hm, hupdate⟩
  · rintro ⟨hf, hm, hupdate⟩
    exact ⟨_, hf, _, hm, hupdate⟩

theorem explained_verdict (s : Server) (peer : IpAddr) (raw : Bytes) :
    Explained (s.verdict peer raw) :=
  (Frame.explained_decode raw).bind fun f =>
    (s.explained_frameMetric peer f).bind s.store.explained_update

/-! ## Replies -/

/-- The frame that octets are answered as: the one they write, or one without a number. -/
def answered (raw : Bytes) : Frame :=
  match Frame.decode raw with
  | .ok f => f
  | .error _ => .request 0 none []

theorem answer_of_ok {raw : Bytes} {store : Store} (h : s.verdict peer raw = .ok store) :
    (s.answer peer raw).1 =
        (answered raw).reply ((Reply.success savedText).signed s.signer).encode ∧
      (s.answer peer raw).2.store = store := by
  obtain ⟨f, hf, hrest⟩ := Result.bind_eq_ok_iff.mp h
  obtain ⟨m, hm, hupdate⟩ := Result.bind_eq_ok_iff.mp hrest
  have hcall : s.call peer f = .ok (.success savedText,
      { s with store, stats := s.stats.updated m.kind 1 }) := by
    rw [call_eq, hm, Result.bind_ok, apply, hupdate]
    rfl
  constructor
  · simp only [answer, answered, hf, answerFrame, hcall]
  · simp only [answer, hf, answerFrame, hcall]
    rfl

theorem call_of_error {raw : Bytes} {f : Frame} {fault : Fault} (hf : Frame.decode raw = .ok f)
    (h : s.verdict peer raw = .error fault) : s.call peer f = .error fault := by
  rw [verdict, hf, Result.bind_ok] at h
  rw [call_eq, Result.bind_eq_error_iff]
  rcases Result.bind_eq_error_iff.mp h with hm | ⟨m, hm, hupdate⟩
  · exact .inl hm
  · exact .inr ⟨m, hm, by rw [apply, hupdate]; rfl⟩

/-- The reason is signed, if there is a key and the octets could be read. -/
theorem fst_answer_of_error {raw : Bytes} {f : Frame} {fault : Fault}
    (hf : Frame.decode raw = .ok f) (h : s.verdict peer raw = .error fault) :
    (s.answer peer raw).1 = f.reply ((Reply.ofFault fault).signed s.signer).encode := by
  simp only [answer, hf, answerFrame, call_of_error hf h]

theorem answer_of_error {raw : Bytes} {fault : Fault} (h : s.verdict peer raw = .error fault) :
    (∃ envelope : Reply, (s.answer peer raw).1 = (answered raw).reply envelope.encode ∧
        envelope.error = fault.message) ∧
      (s.answer peer raw).2.store = s.store := by
  cases hf : Frame.decode raw with
  | error unreadable =>
      rw [verdict, hf] at h
      cases h
      simp only [answer, answered, hf]
      exact ⟨⟨Reply.ofFault fault, rfl, rfl⟩, rfl⟩
  | ok f =>
      simp only [answer, answered, hf, answerFrame, call_of_error hf h]
      exact ⟨⟨(Reply.ofFault fault).signed s.signer, rfl, Reply.error_signed _ _⟩, rfl⟩

/-- The reply to octets says whether they were granted, and the store is what they lead to. -/
theorem answer_cases (s : Server) (peer : IpAddr) (raw : Bytes) :
    ∃ envelope : Reply, (s.answer peer raw).1 = (answered raw).reply envelope.encode ∧
      (envelope.error = "" ∧ s.Grants peer raw (s.answer peer raw).2.store ∨
        envelope.error ≠ "" ∧ (∀ store, ¬s.Grants peer raw store) ∧
          (s.answer peer raw).2.store = s.store) := by
  cases h : s.verdict peer raw with
  | ok store =>
      obtain ⟨hreply, hstore⟩ := answer_of_ok h
      refine ⟨_, hreply, .inl ⟨Reply.error_signed _ _, ?_⟩⟩
      rw [hstore]
      exact verdict_eq_ok_iff.mp h
  | error fault =>
      obtain ⟨⟨envelope, hreply, herror⟩, hstore⟩ := answer_of_error h
      refine ⟨envelope, hreply, .inr ⟨?_, ?_, hstore⟩⟩
      · rw [herror]
        exact (s.explained_verdict peer raw).message_ne_empty h
      · intro store hgrants
        cases h.symm.trans (verdict_eq_ok_iff.mpr hgrants)

theorem Grants.eq {raw : Bytes} {store store' : Store} (h : s.Grants peer raw store)
    (h' : s.Grants peer raw store') : store = store' :=
  Except.ok.inj ((verdict_eq_ok_iff.mpr h).symm.trans (verdict_eq_ok_iff.mpr h'))

/-- Octets are answered with one frame, which is read as it was written and is a reply.  It
repeats the number and the method of the frame they write, or has none.  It carries an envelope
without an error just when the octets are granted; then the store becomes what they lead to, and
it stays as it was otherwise. -/
theorem answer_contract (s : Server) (peer : IpAddr) (raw : Bytes) :
    ∃ (reply : Frame) (t : Server) (envelope : Reply), s.answerAll peer [raw] = ([reply], t) ∧
      Frame.decode reply.encode = .ok reply ∧ reply.isResponse = true ∧
      (∀ f, Frame.decode raw = .ok f → reply.seq = f.seq ∧ reply.method = f.method) ∧
      ((∀ f, Frame.decode raw ≠ .ok f) → reply.seq = none ∧ reply.method = 0) ∧
      reply.response = .ok envelope ∧
      (envelope.error = "" ↔ ∃ store, s.Grants peer raw store) ∧
      (∀ store, s.Grants peer raw store → t.store = store) ∧
      ((∀ store, ¬s.Grants peer raw store) → t.store = s.store) := by
  obtain ⟨envelope, hreply, hcases⟩ := s.answer_cases peer raw
  have hall : s.answerAll peer [raw] = ([(answered raw).reply envelope.encode],
      (s.answer peer raw).2) := by
    rw [← hreply]
    rfl
  refine ⟨_, _, envelope, hall, Frame.decode_encode_reply _ _, Frame.isResponse_reply _ _,
    ?_, ?_, ?_, ?_⟩
  · intro f hf
    simp only [answered, hf]
    exact ⟨rfl, rfl⟩
  · intro hunreadable
    cases hf : Frame.decode raw with
    | ok f => exact absurd hf (hunreadable f)
    | error fault =>
        simp only [answered, hf]
        exact ⟨rfl, rfl⟩
  · rw [Frame.response, Frame.reply, Reply.parse?_encode]
  · rcases hcases with ⟨herror, hgrants⟩ | ⟨herror, hrefused, hkept⟩
    · refine ⟨iff_of_true herror ⟨_, hgrants⟩, ?_, ?_⟩
      · exact fun store hstore => hgrants.eq hstore
      · exact fun hnone => absurd hgrants (hnone _)
    · refine ⟨iff_of_false herror ?_, ?_, ?_⟩
      · rintro ⟨store, hgrants⟩
        exact hrefused store hgrants
      · exact fun store hgrants => absurd hgrants (hrefused store)
      · exact fun _ => hkept

/-! ## Connections -/

/-- Whether octets were acknowledged by the reply to them. -/
def acknowledged (call : Bytes × Frame) : Bool :=
  match call.2.response with
  | .ok envelope => envelope.error = ""
  | .error _ => false

theorem acknowledged_reply (raw : Bytes) (f : Frame) (envelope : Reply) :
    acknowledged (raw, f.reply envelope.encode) = true ↔ envelope.error = "" := by
  rw [acknowledged, Frame.response, Frame.reply, Reply.parse?_encode]
  exact decide_eq_true_iff

/-- The metric that was carried to the server. -/
def carried (call : Bytes × Frame) : Result Metric := (Frame.decode call.1).bind Frame.update

theorem answerAll_cons (s : Server) (peer : IpAddr) (raw : Bytes) (rest : List Bytes) :
    s.answerAll peer (raw :: rest) =
      ((s.answer peer raw).1 :: ((s.answer peer raw).2.answerAll peer rest).1,
        ((s.answer peer raw).2.answerAll peer rest).2) := rfl

theorem length_answerAll (s : Server) (peer : IpAddr) (raws : List Bytes) :
    (s.answerAll peer raws).1.length = raws.length := by
  induction raws generalizing s with
  | nil => rfl
  | cons raw rest ih => rw [answerAll_cons, List.length_cons, List.length_cons, ih]

/-- Along a connection the store takes up the metrics of the frames that were acknowledged, in
their order, and no others. -/
theorem store_answerAll (s : Server) (peer : IpAddr) (raws : List Bytes) :
    ∃ ms, ((raws.zip (s.answerAll peer raws).1).filter acknowledged).mapM carried = .ok ms ∧
      ms.foldlM Store.update s.store = .ok (s.answerAll peer raws).2.store := by
  induction raws generalizing s with
  | nil => exact ⟨[], rfl, rfl⟩
  | cons raw rest ih =>
      obtain ⟨envelope, hreply, hcases⟩ := s.answer_cases peer raw
      obtain ⟨ms, hms, hstore⟩ := ih (s.answer peer raw).2
      have hsaid := acknowledged_reply raw (answered raw) envelope
      rw [answerAll_cons, List.zip_cons_cons, hreply]
      rcases hcases with ⟨herror, @⟨f, m, hf, hadmits, hupdate⟩⟩ | ⟨herror, -, hkept⟩
      · have hcarried : carried (raw, (answered raw).reply envelope.encode) = .ok m := by
          rw [carried, hf]
          exact hadmits.carried
        refine ⟨m :: ms, ?_, ?_⟩
        · rw [List.filter_cons_of_pos (hsaid.mpr herror), List.mapM_cons, hcarried, hms]
          rfl
        · rw [List.foldlM_cons, hupdate]
          exact hstore
      · -- The rest goes on from the store that there was before.
        refine ⟨ms, ?_, ?_⟩
        · rw [List.filter_cons_of_neg (mt hsaid.mp herror)]
          exact hms
        · rw [← hkept]
          exact hstore

example :
    let s : Server := ⟨.inMemory, none, none, none, .empty⟩
    let request := Frame.updateRequest 7 (.counter "a" 1)
    let raws := [request.encode, (request.reply request.payload).encode]
    let done := s.answerAll (.v4 0) raws
    (raws.zip done.1).map acknowledged = [true, false] ∧
      done.2.store.held.counters.toList = [("a", 1)] := by decide +kernel

end Server

end Telemetry
