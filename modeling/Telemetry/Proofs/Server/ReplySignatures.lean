/-
Which replies to calls are signed.

A server with a key signs what it says of a call, whatever became of the call: the reply to a
frame of an outsider is signed, and so is the reply to a method that there is not, to a frame
that is itself a reply, and to a metric that is refused.  There is one exit before that.  Octets
that are no frame are answered by an orphan, which is made without looking at the key.  So a peer
with the key can tell that a reply comes from the server just when what it sent was a frame
(`replies_verify_iff_readable`), and it cannot tell the orphan of its server from anybody else's
(`orphan_unverified`).
-/
import Telemetry.Proofs.Server.Calls
import Telemetry.Proofs.Wire.Body

namespace Telemetry

theorem Signer.verifyReply_unsigned (k : Signer) {r : Reply} (h : r.hash = "") :
    k.verifyReply r = .error (.authFailed "response is not signed") := by
  rw [verifyReply, if_pos h]

theorem Frame.response_of_payload {f : Frame} {r : Reply} (h : f.payload = r.encode) :
    f.response = .ok r := by
  rw [response, h, Reply.parse?_encode]

namespace Server

variable {s : Server} {peer : IpAddr} {raw : Bytes} {k : Signer}

/-! ## One reply -/

/-- Octets that are a frame are answered by a reply that was given to the signer. -/
theorem answer_readable (s : Server) (peer : IpAddr) {f : Frame} (hf : Frame.decode raw = .ok f) :
    ∃ r : Reply, (s.answer peer raw).1 = f.reply (r.signed s.signer).encode := by
  simp only [answer, hf, answerFrame]
  split
  · rename_i r _ _
    exact ⟨r, rfl⟩
  · rename_i fault _
    exact ⟨.ofFault fault, rfl⟩

theorem answer_unreadable {fault : Fault} (hf : Frame.decode raw = .error fault) :
    (s.answer peer raw).1 = orphan fault := by
  simp only [answer, hf]

theorem signer_answer (s : Server) (peer : IpAddr) (raw : Bytes) :
    (s.answer peer raw).2.signer = s.signer := by
  obtain ⟨stats, h⟩ := s.becomes_take (.frame peer raw)
  have hsigner := congrArg signer h
  exact hsigner

/-- What a call is told: octets that are a frame get a reply that verifies, all others one that
has no signature. -/
inductive Told (k : Signer) (raw : Bytes) (envelope : Reply) : Prop
  | signed {f : Frame} : Frame.decode raw = .ok f → envelope.hash = k.sign envelope.canonical →
      k.verifyReply envelope = .ok () → Told k raw envelope
  | orphaned {fault : Fault} : Frame.decode raw = .error fault → envelope = .ofFault fault →
      k.verifyReply envelope = .error (.authFailed "response is not signed") →
      Told k raw envelope

theorem exists_told (hk : s.signer = some k) (peer : IpAddr) (raw : Bytes) :
    ∃ envelope, (s.answer peer raw).1.response = .ok envelope ∧ Told k raw envelope := by
  cases hf : Frame.decode raw with
  | ok f =>
      obtain ⟨r, hreply⟩ := answer_readable s peer hf
      rw [hk] at hreply
      have hpayload : (s.answer peer raw).1.payload = (k.signReply r).encode := by
        rw [hreply]
        rfl
      exact ⟨k.signReply r, Frame.response_of_payload hpayload,
        .signed hf rfl (k.verifyReply_signReply r)⟩
  | error fault =>
      have hpayload : (s.answer peer raw).1.payload = (Reply.ofFault fault).encode := by
        rw [answer_unreadable hf]
        rfl
      exact ⟨.ofFault fault, Frame.response_of_payload hpayload,
        .orphaned hf rfl (k.verifyReply_unsigned rfl)⟩

theorem Told.verifies_iff {envelope : Reply} (h : Told k raw envelope) :
    k.verifyReply envelope = .ok () ↔ ∃ f, Frame.decode raw = .ok f := by
  cases h with
  | signed hf _ hverify => exact iff_of_true hverify ⟨_, hf⟩
  | orphaned hf _ hverify =>
      refine iff_of_false ?_ ?_
      · rw [hverify]
        exact nofun
      · rintro ⟨f, hok⟩
        cases hf.symm.trans hok

/-! ## A connection -/

/-- Along a connection everything is told like that, for the key stays. -/
theorem told_answerAll (hk : s.signer = some k) (peer : IpAddr) (raws : List Bytes) :
    ∀ call ∈ raws.zip (s.answerAll peer raws).1,
      ∃ envelope, call.2.response = .ok envelope ∧ Told k call.1 envelope := by
  induction raws generalizing s with
  | nil => exact fun _ hcall => absurd hcall List.not_mem_nil
  | cons raw rest ih =>
      intro call hcall
      rw [answerAll_cons, List.zip_cons_cons, List.mem_cons] at hcall
      rcases hcall with rfl | hcall
      · exact exists_told hk peer raw
      · exact ih ((s.signer_answer peer raw).trans hk) call hcall

/-- Whatever octets a server with a key is sent over a connection, and from wherever: each of
the frames in them is answered by a reply whose hash is the signature of what it says, and which
verifies.  Octets that are no frame, for they are too short for what they announce or of another
version, are answered by the bare reason, which does not verify. -/
theorem replies_verify_iff_readable (hk : s.signer = some k) (peer : IpAddr) (raws : List Bytes) :
    ∀ call ∈ raws.zip (s.answerAll peer raws).1, ∃ envelope, call.2.response = .ok envelope ∧
      (k.verifyReply envelope = .ok () ↔ 3 ≤ call.1.length ∧
        call.1[0]? = some Frame.currentVersion ∧
        ((∃ flags, call.1[2]? = some flags ∧ flags &&& Frame.seqFlag = 0) ∨
          7 ≤ call.1.length)) ∧
      (k.verifyReply envelope = .ok () → envelope.hash = k.sign envelope.canonical) ∧
      (k.verifyReply envelope ≠ .ok () → ∃ fault, Frame.decode call.1 = .error fault ∧
        envelope = .ofFault fault ∧
        k.verifyReply envelope = .error (.authFailed "response is not signed")) := by
  intro call hcall
  obtain ⟨envelope, hresponse, htold⟩ := told_answerAll hk peer raws call hcall
  refine ⟨envelope, hresponse, htold.verifies_iff.trans Frame.exists_decode_iff, ?_, ?_⟩
  · intro hverified
    cases htold with
    | signed _ hhash _ => exact hhash
    | orphaned _ _ hverify => cases hverify.symm.trans hverified
  · intro hrefused
    cases htold with
    | signed _ _ hverify => exact absurd hverify hrefused
    | orphaned hf henvelope hverify => exact ⟨_, hf, henvelope, hverify⟩

/-- A reply that is sent as if it were a request is answered with a signature. -/
theorem replies_verify_unexpected :
    ∃ k reply envelope, keyServer.signer = some k ∧
      (keyServer.answerAll (.v4 0) [[1, 2, 2]]).1 = [reply] ∧
      reply.response = .ok envelope ∧
      envelope.error = "bad request: unexpected response frame" ∧
      k.verifyReply envelope = .ok () := by
  have hk : keyServer.signer = some ⟨Bytes.ofText "secret", by decide⟩ := rfl
  obtain ⟨envelope, hresponse, hverifies, -, -⟩ := replies_verify_iff_readable hk (.v4 0)
    [[1, 2, 2]] ([1, 2, 2], (keyServer.answer (.v4 0) [1, 2, 2]).1) List.mem_cons_self
  have herror : (keyServer.answer (.v4 0) [1, 2, 2]).1.response.map Reply.error =
      .ok "bad request: unexpected response frame" := by decide +kernel
  rw [hresponse] at herror
  refine ⟨_, _, envelope, hk, rfl, hresponse, Except.ok.inj herror, hverifies.mpr ?_⟩
  exact ⟨by decide, rfl, .inl ⟨2, rfl, by decide⟩⟩

/-- The reply to a frame of another version has no signature, and does not verify. -/
theorem orphan_unverified :
    ∃ k envelope, keyServer.signer = some k ∧
      (keyServer.answer (.v4 0) [9, 1, 0]).1.response = .ok envelope ∧
      envelope = ⟨"", "bad request: unsupported rpc frame version 9", ""⟩ ∧
      k.verifyReply envelope = .error (.authFailed "response is not signed") := by
  have hresponse : (keyServer.answer (.v4 0) [9, 1, 0]).1.response =
      .ok ⟨"", "bad request: unsupported rpc frame version 9", ""⟩ := by decide +kernel
  exact ⟨⟨Bytes.ofText "secret", by decide⟩, _, rfl, hresponse, rfl, rfl⟩

end Server

end Telemetry
