/-
What a signature vouches for.

A signature vouches for a canonical text, as far as the codes of different texts differ.  No
function of texts to codes of one length can do that for all of them, so it is asked of the two
texts at hand only (`Signer.TellsApart`): that which was signed, and that which is verified.

For metrics this is as good as it can be: a signature is good for another metric just when the
two are alike (`metric_signature_binds`).  For replies it is not.  The error may end where the
text does not say so, and an error reply about an identifier with `;err:` in it can be passed off
as a success (`verifyReply_rewritten`).  And as metrics and replies share the key, a reply that
complains about a text of the client's choice can be a signature for a metric of the client's
choice (`verifyMetric_replayed`).  `reply_signature_binds` and `signatures_separated` say what is
true of all others.
-/
import Telemetry.Proofs.Signature.Canonical
import Telemetry.Proofs.Wire.Body

namespace Telemetry

namespace Signer

/-! ## Codes -/

/-- Whether the code under a key tells two texts apart, if they differ. -/
def TellsApart (s : Signer) (a b : String) : Prop :=
  Hmac.code s.key (Bytes.ofText a) = Hmac.code s.key (Bytes.ofText b) → a = b

variable {s : Signer} {a b : String}

theorem TellsApart.symm (h : s.TellsApart a b) : s.TellsApart b a :=
  fun hcode => (h hcode.symm).symm

def badHash : Fault := .authFailed "invalid hash value"

/-- The signature of one text is good for another one just when they are the same. -/
theorem check_sign_eq (h : s.TellsApart a b) :
    s.check b (s.sign a) = if a = b then .ok () else .error badHash := by
  rw [check, accepts, sign, Hex.decode?_encode]
  by_cases hab : a = b
  · rw [if_pos hab, hab, decide_eq_true rfl, if_pos rfl]
  · have hcode : ¬some (Hmac.code s.key (Bytes.ofText a)) =
        some (Hmac.code s.key (Bytes.ofText b)) := fun hsame => hab (h (Option.some.inj hsame))
    rw [if_neg hab, decide_eq_false hcode, if_neg Bool.false_ne_true]
    rfl

theorem verifyMetric_sign {m : Metric} (hhash : m.hash = some (s.sign a))
    (hm : m.canonical = .ok b) (h : s.TellsApart a b) :
    s.verifyMetric m = if a = b then .ok () else .error badHash := by
  rw [verifyMetric, hhash, hm]
  exact check_sign_eq h

theorem verifyReply_sign {r : Reply} (hhash : r.hash = s.sign a)
    (h : s.TellsApart a r.canonical) :
    s.verifyReply r = if a = r.canonical then .ok () else .error badHash := by
  have hsigned : r.hash ≠ "" := by
    rw [hhash]
    exact s.sign_ne_empty a
  rw [verifyReply, if_neg hsigned, hhash]
  exact check_sign_eq h

theorem signMetric_eq {m : Metric} (hm : m.canonical = .ok a) (earlier : Option String) :
    s.signMetric { m with hash := earlier } = .ok { m with hash := some (s.sign a) } := by
  have hcanonical : ({ m with hash := earlier } : Metric).canonical = .ok a := hm
  rw [signMetric, metricHash, hcanonical, Result.map_ok, Result.map_ok]

end Signer

/-! ## Metrics -/

/-- A metric with its field is signed whatever signature it had, and verified then.  Its
signature is good for the metrics that are alike, and others are refused with it. -/
theorem metric_signature_binds (s : Signer) {m : Metric} (hm : m.HasField) :
    ∃ hash, (∀ earlier, s.signMetric { m with hash := earlier } =
        .ok { m with hash := some hash }) ∧
      s.verifyMetric { m with hash := some hash } = .ok () ∧
      ∀ n : Metric, n.HasField → n.hash = some hash →
        (∀ a b, m.canonical = .ok a → n.canonical = .ok b → s.TellsApart a b) →
          (s.verifyMetric n = .ok () ↔ m.Alike n) ∧
            (¬m.Alike n → s.verifyMetric n = .error (.authFailed "invalid hash value")) := by
  obtain ⟨a, ha⟩ := hm.canonical
  have hsigned : ({ m with hash := some (s.sign a) } : Metric).canonical = .ok a := ha
  refine ⟨s.sign a, Signer.signMetric_eq ha, ?_, ?_⟩
  · rw [Signer.verifyMetric_sign rfl hsigned fun _ => rfl, if_pos rfl]
  · intro n hn hhash hcode
    obtain ⟨b, hb⟩ := hn.canonical
    have halike : a = b ↔ m.Alike n := by
      rw [← Metric.canonical_eq_iff hm hn, ha, hb, Except.ok.injEq]
    rw [Signer.verifyMetric_sign hhash hb (hcode a b ha hb)]
    constructor
    · rw [← halike]
      exact Result.ite_eq_ok_iff
    · intro hnot
      exact if_neg (mt halike.mp hnot)

def secretSigner : Signer := ⟨Bytes.ofText "secret", by decide⟩

/-- The signature of a gauge at 0.5 is good for the gauge at the next value, which shows the same
six places, and not for a counter that has the text of the gauge in its name. -/
theorem metric_signature_binds_half :
    let m := Metric.gauge "g" ⟨0x3fe0000000000000⟩
    m.HasField ∧ ∃ hash, secretSigner.signMetric m = .ok { m with hash := some hash } ∧
      secretSigner.verifyMetric ⟨"g", .gauge, none, some ⟨0x3fe0000000000001⟩, some hash⟩ = .ok () ∧
      secretSigner.verifyMetric ⟨"g:gauge:0.500000", .counter, some 5, none, some hash⟩ =
        .error (.authFailed "invalid hash value") := by
  intro m
  have hm : m.HasField := rfl
  have hplaces : (⟨0x3fe0000000000000⟩ : Binary64).fixed 6 =
      (⟨0x3fe0000000000001⟩ : Binary64).fixed 6 := by decide +kernel
  have htext : m.canonical = .ok ("g" ++ ":" ++ "gauge" ++ ":" ++ "0.500000") :=
    Metric.canonical_eq (by decide +kernel)
  obtain ⟨hash, hsign, -, hbinds⟩ := metric_signature_binds secretSigner hm
  refine ⟨hm, hash, hsign none, ?_, ?_⟩
  · let next : Metric := ⟨"g", .gauge, none, some ⟨0x3fe0000000000001⟩, some hash⟩
    have hnext : next.HasField := rfl
    have halike : m.Alike next := ⟨rfl, rfl, congrArg some hplaces⟩
    refine ((hbinds next hnext rfl ?_).1).mpr halike
    intro a b ha hb _
    have hsame := (Metric.canonical_eq_iff hm hnext).mpr halike
    exact Except.ok.inj (ha.symm.trans (hsame.trans hb))
  · let other : Metric := ⟨"g:gauge:0.500000", .counter, some 5, none, some hash⟩
    have hfive : Integer.ofInt (5 : Int64).toInt = "5" := by decide +kernel
    have hother : other.canonical =
        .ok ("g:gauge:0.500000" ++ ":" ++ "counter" ++ ":" ++ "5") :=
      Metric.canonical_eq (congrArg some hfive)
    refine (hbinds other rfl rfl ?_).2 ?_
    · intro a b ha hb hcode
      cases htext.symm.trans ha
      cases hother.symm.trans hb
      exact absurd hcode (by decide +kernel)
    · rintro ⟨-, hkind, -⟩
      cases hkind

/-! ## Replies -/

/-- The signature of a reply is good for the replies that have the same message and the same
error, and for those that have the same text with another of its borders between them; others are
refused with it.  So nothing but the signed reply is verified unless there is a border in its
message or in its error; and what passes an error off as a success is an error that ends in a
border. -/
theorem reply_signature_binds (s : Signer) {r t : Reply}
    (hhash : t.hash = (s.signReply r).hash) (hcode : s.TellsApart r.canonical t.canonical) :
    let same := r.message = t.message ∧ r.error = t.error
    (s.verifyReply t = .ok () ↔ same ∨ r.Recut t) ∧
      (¬(same ∨ r.Recut t) → s.verifyReply t = .error (.authFailed "invalid hash value")) ∧
      (¬Reply.Bordered r.message → ¬Reply.Bordered r.error → s.verifyReply t = .ok () → same) ∧
      (r.error ≠ "" → t.error = "" → s.verifyReply t = .ok () →
        ∃ lead, r.error = lead ++ ";err:" ∧ t.message = r.message ++ ";err:" ++ lead) := by
  intro same
  have hok : s.verifyReply t = .ok () ↔ same ∨ r.Recut t := by
    rw [Signer.verifyReply_sign hhash hcode, ← Reply.canonical_eq_iff]
    exact Result.ite_eq_ok_iff
  refine ⟨hok, ?_, ?_, ?_⟩
  · intro hnot
    rw [← Reply.canonical_eq_iff] at hnot
    rw [Signer.verifyReply_sign hhash hcode]
    exact if_neg hnot
  · intro hmessage herror hverified
    rcases hok.mp hverified with hsame | hcut
    · exact hsame
    · rcases hcut.bordered with hborder | hborder
      · exact absurd hborder hmessage
      · exact absurd hborder herror
  · intro herror hsuccess hverified
    rcases hok.mp hverified with ⟨-, hsame⟩ | ⟨lead, ht, hr⟩ | ⟨lead, -, ht⟩
    · exact absurd (hsame.trans hsuccess) herror
    · refine ⟨lead, ?_, ht⟩
      rw [hr, hsuccess, String.append_empty]
      rfl
    · exact absurd hsuccess (Reply.Bordered.ne_empty ⟨lead, r.error, ht⟩)

/-- A message that was touched is refused with the signature of what it was. -/
theorem reply_signature_binds_touched :
    let r := Reply.success "metric was saved"
    let t : Reply := ⟨"metric was saved!", "", (secretSigner.signReply r).hash⟩
    secretSigner.TellsApart r.canonical t.canonical ∧
      secretSigner.verifyReply t = .error (.authFailed "invalid hash value") := by
  intro r t
  have hcode : secretSigner.TellsApart r.canonical t.canonical :=
    fun h => absurd h (by decide +kernel)
  obtain ⟨hok, hother, -⟩ := reply_signature_binds secretSigner (r := r) (t := t) rfl hcode
  refine ⟨hcode, hother ?_⟩
  rintro (⟨hmessage, -⟩ | hcut)
  · exact absurd hmessage (by decide)
  · -- There is room for one border only.
    rcases hcut with ⟨lead, -, herror⟩ | ⟨lead, hmessage, -⟩
    · exact Reply.Bordered.ne_empty ⟨lead, t.error, herror⟩ rfl
    · have hlength := congrArg String.length hmessage
      rw [String.length_append, String.length_append] at hlength
      have hr : r.message.length = 16 := by decide
      have ht : t.message.length = 17 := by decide
      omega

/-- The complaint about a counter whose identifier ends in a border is as good a success. -/
theorem verifyReply_rewritten :
    let r := Reply.ofFault (Metric.query "a;err:" .counter).missingField
    let t : Reply := ⟨";err:metric has not set attribute: delta of counter a", "",
      (secretSigner.signReply r).hash⟩
    r.isError = true ∧ t.isError = false ∧ secretSigner.TellsApart r.canonical t.canonical ∧
      secretSigner.verifyReply t = .ok () := by
  intro r t
  have htext : r.canonical = t.canonical := by decide
  refine ⟨by decide, by decide, fun _ => htext, ?_⟩
  rw [Signer.verifyReply_sign rfl fun _ => htext, if_pos htext]

/-! ## Replies and metrics -/

/-- The signature of a reply is good for a metric, and that of the metric for the reply, just
when the error of the reply ends in the kind and the number of the metric and all that comes
before in the text of the reply is the identifier.  Such a reply is an error, and the identifier
of such a metric begins with the message. -/
theorem signatures_separated (s : Signer) (r : Reply) {m : Metric} (hm : m.HasField) :
    ∃ hash, s.signMetric m = .ok { m with hash := some hash } ∧
      ((∀ text, m.canonical = .ok text → s.TellsApart r.canonical text) →
        let replayed : Metric := { m with hash := some (s.signReply r).hash }
        let answered : Reply := { r with hash }
        (s.verifyMetric replayed = .ok () ↔ r.PassesFor m) ∧
          (s.verifyReply answered = .ok () ↔ r.PassesFor m) ∧
          (¬r.PassesFor m →
            s.verifyMetric replayed = .error (.authFailed "invalid hash value") ∧
              s.verifyReply answered = .error (.authFailed "invalid hash value")) ∧
          (r.PassesFor m → r.error ≠ "" ∧
            ∃ rest, m.id = "msg:" ++ r.message ++ ";err" ++ rest)) := by
  obtain ⟨text, htext⟩ := hm.canonical
  refine ⟨s.sign text, Signer.signMetric_eq htext m.hash, ?_⟩
  intro hcode replayed answered
  have hpasses : text = r.canonical ↔ r.PassesFor m := by
    rw [← Reply.canonical_eq_metric_iff hm, htext, Except.ok.injEq]
  have hmetric : s.verifyMetric replayed =
      if r.canonical = text then .ok () else .error Signer.badHash :=
    Signer.verifyMetric_sign rfl htext (hcode text htext)
  have hreply : s.verifyReply answered =
      if text = r.canonical then .ok () else .error Signer.badHash :=
    Signer.verifyReply_sign rfl (hcode text htext).symm
  refine ⟨?_, ?_, ?_, ?_⟩
  · rw [hmetric, ← hpasses, eq_comm (a := text)]
    exact Result.ite_eq_ok_iff
  · rw [hreply, ← hpasses]
    exact Result.ite_eq_ok_iff
  · intro hnot
    rw [← hpasses] at hnot
    exact ⟨hmetric.trans (if_neg (Ne.symm hnot)), hreply.trans (if_neg hnot)⟩
  · exact fun h => ⟨h.error_ne_empty, h.exists_id⟩

/-- A success is no signature for a counter of the same name. -/
theorem signatures_separated_saved :
    let r := Reply.success "a"
    let m := Metric.counter "a" 1
    m.HasField ∧ (∀ text, m.canonical = .ok text → secretSigner.TellsApart r.canonical text) ∧
      secretSigner.verifyMetric { m with hash := some (secretSigner.signReply r).hash } =
        .error (.authFailed "invalid hash value") := by
  intro r m
  have hm : m.HasField := rfl
  have hone : Integer.ofInt (1 : Int64).toInt = "1" := by decide +kernel
  have htext : m.canonical = .ok ("a" ++ ":" ++ "counter" ++ ":" ++ "1") :=
    Metric.canonical_eq (congrArg some hone)
  have hcode : ∀ text, m.canonical = .ok text → secretSigner.TellsApart r.canonical text := by
    intro text h
    cases htext.symm.trans h
    exact fun hcode => absurd hcode (by decide +kernel)
  obtain ⟨_, -, hseparated⟩ := signatures_separated secretSigner r hm
  obtain ⟨-, -, hother, hpassed⟩ := hseparated hcode
  refine ⟨hm, hcode, (hother ?_).1⟩
  intro h
  exact (hpassed h).1 rfl

/-- The complaint about a kind that a client made up is a signature for a counter that the client
made up, and the signature of this counter is one for the complaint. -/
theorem verifyMetric_replayed :
    let r := Reply.ofFault (.badType "x:counter:5")
    let m := Metric.counter "msg:;err:metric has unsupported type: x" 5
    m.HasField ∧ (∀ text, m.canonical = .ok text → secretSigner.TellsApart r.canonical text) ∧
      secretSigner.verifyMetric { m with hash := some (secretSigner.signReply r).hash } = .ok () ∧
      ∃ hash, secretSigner.signMetric m = .ok { m with hash := some hash } ∧
        secretSigner.verifyReply { r with hash } = .ok () := by
  intro r m
  have hfive : Integer.ofInt (5 : Int64).toInt = "5" := by decide +kernel
  have hnumeral : m.numeral? = some "5" := congrArg some hfive
  have htext : m.canonical = .ok r.canonical := by
    rw [Metric.canonical_eq hnumeral]
    decide
  refine ⟨rfl, ?_, ?_, secretSigner.sign r.canonical, Signer.signMetric_eq htext none, ?_⟩
  · intro text h _
    exact Except.ok.inj (htext.symm.trans h)
  · have hsigned := Signer.verifyMetric_sign (s := secretSigner) (a := r.canonical)
      (m := { m with hash := some (secretSigner.signReply r).hash }) rfl htext fun _ => rfl
    rw [hsigned, if_pos rfl]
  · rw [Signer.verifyReply_sign rfl fun _ => rfl, if_pos rfl]

end Telemetry
