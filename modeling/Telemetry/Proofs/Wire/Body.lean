/-
Signed bodies are verified where they are read.

What is signed is read back as it was, so whoever has the key finds that its hash is the code
of what it says.  This holds of every reply, and of every metric that has an identifier, says
something and has no level but a finite one that reads back.  Another level is signed as well,
but it may be read as a neighbour whose code is a different one.
-/
import Telemetry.Proofs.Wire.ReplyJson
import Telemetry.Wire.Body

namespace Telemetry

/-! ## Signing -/

namespace Signer

theorem sign_ne_empty (s : Signer) (text : String) : s.sign text ≠ "" := by
  intro h
  have hread := Hex.decode?_encode (Hmac.code s.key (Bytes.ofText text))
  rw [← sign, h] at hread
  have hlength := congrArg List.length (Option.some.inj hread)
  rw [Hmac.length_code] at hlength
  exact absurd hlength (by decide)

theorem verifyReply_signReply (s : Signer) (r : Reply) :
    s.verifyReply (s.signReply r) = .ok () := by
  rw [verifyReply, signReply, if_neg (s.sign_ne_empty _)]
  exact s.check_sign _

theorem exists_signMetric (s : Signer) (id : String) (r : Reading) :
    ∃ hash, hash ≠ "" ∧
      s.signMetric (r.toMetric id) = .ok { r.toMetric id with hash := some hash } ∧
      s.verifyMetric { r.toMetric id with hash := some hash } = .ok () := by
  obtain ⟨text, htext⟩ : ∃ text, (r.toMetric id).canonical = .ok text := by
    cases r with
    | counter amount => exact ⟨_, rfl⟩
    | gauge level => exact ⟨_, rfl⟩
  refine ⟨s.sign text, s.sign_ne_empty text, ?_, ?_⟩
  · rw [signMetric, metricHash, htext, Result.map_ok, Result.map_ok]
  · -- The canonical text does not depend on the hash.
    change ((r.toMetric id).canonical.bind fun t => s.check t (s.sign text)) = _
    rw [htext, Result.bind_ok, check_sign]

/-- Content that is a metric or a reply whose hash verifies. -/
def Signs (s : Signer) (content : Bytes) : Prop :=
  (∃ m, Metric.decode content = .ok m ∧ s.verifyMetric m = .ok ()) ∨
    ∃ r, Reply.parse? content = some r ∧ s.verifyReply r = .ok ()

/-! ## Bodies -/

theorem signs_replyBody (s : Signer) (r : Reply) : s.Signs (r.body (some s) .json) :=
  .inr ⟨s.signReply r, Reply.parse?_encode _, s.verifyReply_signReply r⟩

/-- What a reading is shown as can be signed, and is verified as JSON. -/
theorem exists_signed (s : Signer) {id : String} (hid : id ≠ "") (r : Reading) :
    ∃ m, (r.toMetric id).signed (some s) = .ok m ∧
      ((r.toMetric id).Finite → (r.toMetric id).ReadsBack → s.Signs m.encode) := by
  obtain ⟨hash, hhash, hsigned, hverify⟩ := s.exists_signMetric id r
  have hnamed : ({ r.toMetric id with hash := some hash } : Metric).id ≠ "" := by
    cases r <;> exact hid
  refine ⟨_, hsigned, fun hfinite hback => .inl ⟨_, ?_, hverify⟩⟩
  exact Metric.decode_encode hfinite hback hnamed fun h => hhash (Option.some.inj h)

end Signer

end Telemetry
