/-
What is posted is what is read.

A body carries metrics that are signed each, written as one list, compressed and perhaps sealed.
A server with the same key and the matching seal undoes all of this in the opposite order
(`Server.plainBody_request`).  What it decodes is what is read of each of the metrics that were
signed (`Metric.decodeBatch_batchBody`).  A metric without a level, or with one that reads back,
is read as it was signed, and so it is verified (`Server.forM_verify_received`).

Signing changes nothing but the signature, and there is one when there is a key.  What says
something has a canonical text and can be signed, and so there is a list of it to send; there is
a body, too, unless the key to seal with is too small.
-/
import Telemetry.Agent.Poster
import Telemetry.Proofs.Gzip.Deflate
import Telemetry.Proofs.Seal.Sealing
import Telemetry.Proofs.Store.Holdings
import Telemetry.Proofs.Wire.Elements
import Telemetry.Proofs.Wire.Body
import Telemetry.Server.Body

namespace Telemetry

/-! ## Signed metrics -/

namespace Metric

variable {signer : Option Signer} {m n : Metric}

def unsigned (m : Metric) : Metric := { m with hash := none }

theorem signed_some_eq_ok_iff {s : Signer} :
    m.signed (some s) = .ok n ↔
      ∃ text, m.canonical = .ok text ∧ { m with hash := some (s.sign text) } = n := by
  change s.signMetric m = .ok n ↔ _
  simp only [Signer.signMetric, Signer.metricHash, Result.map_eq_ok_iff, exists_exists_and_eq_and]

theorem unsigned_of_signed (h : m.signed signer = .ok n) : n.unsigned = m.unsigned := by
  cases signer with
  | none =>
      obtain rfl : m = n := Except.ok.inj h
      rfl
  | some s =>
      obtain ⟨text, -, rfl⟩ := signed_some_eq_ok_iff.mp h
      rfl

theorem reading_of_signed (h : m.signed signer = .ok n) : n.reading = m.reading := by
  have hreading := congrArg reading (unsigned_of_signed h)
  exact hreading

theorem id_of_signed (h : m.signed signer = .ok n) : n.id = m.id := by
  have hid := congrArg Metric.id (unsigned_of_signed h)
  exact hid

theorem finite_of_signed (h : m.signed signer = .ok n) (hm : m.Finite) : n.Finite := by
  have hvalue := congrArg value (unsigned_of_signed h)
  exact fun x hx => hm x (hvalue.symm.trans hx)

theorem readsBack_of_signed (h : m.signed signer = .ok n) (hm : m.ReadsBack) : n.ReadsBack := by
  have hvalue := congrArg value (unsigned_of_signed h)
  exact fun x hx => hm x (hvalue.symm.trans hx)

theorem isSome_hash_of_signed (h : m.signed signer = .ok n) (hm : m.hash = none) :
    n.hash.isSome = signer.isSome := by
  cases signer with
  | none =>
      obtain rfl : m = n := Except.ok.inj h
      rw [hm]
      rfl
  | some s =>
      obtain ⟨text, -, rfl⟩ := signed_some_eq_ok_iff.mp h
      rfl

theorem received_of_signed (h : m.signed signer = .ok n) (hm : m.hash = none) :
    n.received = n := by
  apply received_eq_self
  cases signer with
  | none =>
      obtain rfl : m = n := Except.ok.inj h
      rw [hm]
      exact nofun
  | some s =>
      obtain ⟨text, -, rfl⟩ := signed_some_eq_ok_iff.mp h
      exact fun hempty => s.sign_ne_empty text (Option.some.inj hempty)

theorem exists_canonical {r : Reading} (hr : m.reading = .ok r) :
    ∃ text, m.canonical = .ok text := by
  rw [reading] at hr
  split at hr
  · cases hr
  · rename_i hkind hdelta _
    simp only [canonical, hkind, hdelta]
    exact ⟨_, rfl⟩
  · cases hr
  · rename_i hkind hdelta hvalue
    simp only [canonical, hkind, hdelta, hvalue]
    exact ⟨_, rfl⟩
  · cases hr

theorem exists_signed {r : Reading} (hr : m.reading = .ok r) (signer : Option Signer) :
    ∃ n, m.signed signer = .ok n := by
  cases signer with
  | none => exact ⟨m, rfl⟩
  | some s =>
      obtain ⟨text, htext⟩ := exists_canonical hr
      exact ⟨_, signed_some_eq_ok_iff.mpr ⟨text, htext, rfl⟩⟩

/-! ## Signed batches -/

variable {ms ns : List Metric}

/-- Metrics that say something can be signed together, and there is a list of them to send. -/
theorem exists_batchBody (hms : ∀ m ∈ ms, ∃ r, m.reading = .ok r) (signer : Option Signer) :
    ∃ ns, ms.mapM (signed signer) = .ok ns ∧ batchBody signer ms = .ok (encodeAll ns) := by
  obtain ⟨ns, hns⟩ : ∃ ns, ms.mapM (signed signer) = .ok ns := by
    refine Result.exists_mapM_eq_ok fun m hm => ?_
    obtain ⟨r, hr⟩ := hms m hm
    exact exists_signed hr signer
  exact ⟨ns, hns, by rw [batchBody, hns, Result.map_ok]⟩

/-- What is true of a metric however it is signed is true of those of a signed batch. -/
theorem forall_mem_signed {P Q : Metric → Prop} (hns : ms.mapM (signed signer) = .ok ns)
    (hms : ∀ m ∈ ms, P m) (hsigned : ∀ m n, m.signed signer = .ok n → P m → Q n) :
    ∀ n ∈ ns, Q n := by
  intro n hn
  obtain ⟨m, hm, hmn⟩ := Result.exists_of_mem_mapM hns hn
  exact hsigned m n hmn (hms m hm)

theorem map_unsigned_of_signed (hns : ms.mapM (signed signer) = .ok ns) :
    ns.map unsigned = ms.map unsigned := by
  induction ms generalizing ns with
  | nil =>
      cases hns
      rfl
  | cons m ms ih =>
      obtain ⟨n, rest, hn, hrest, rfl⟩ := Result.mapM_cons_eq_ok_iff.mp hns
      rw [List.map_cons, List.map_cons, unsigned_of_signed hn, ih hrest]

/-- The list that is sent is that of the signed metrics, and it is read as each of these is. -/
theorem decodeBatch_batchBody {json : Bytes} (hjson : batchBody signer ms = .ok json)
    (hms : ∀ m ∈ ms, m.Finite) :
    ∃ ns, ms.mapM (signed signer) = .ok ns ∧ ∀ arrived, decodeBatch json = .ok arrived ↔
      (ns.map fun n => decodeUpdate n.encode) = arrived.map .ok := by
  obtain ⟨ns, hns, rfl⟩ := Result.map_eq_ok_iff.mp hjson
  exact ⟨ns, hns, fun arrived => decodeBatch_encodeAll
    (forall_mem_signed hns hms fun m n => finite_of_signed)⟩

end Metric

theorem Server.verify_received {s : Server} {m n : Metric} (h : m.signed s.signer = .ok n) :
    s.verify n.received = .ok () := by
  rw [verify]
  cases hsigner : s.signer with
  | none => rfl
  | some k =>
      rw [hsigner] at h
      obtain ⟨text, htext, rfl⟩ := Metric.signed_some_eq_ok_iff.mp h
      have hreceived : ({ m with hash := some (k.sign text) } : Metric).received =
          { m with hash := some (k.sign text) } :=
        Metric.received_eq_self fun hempty => k.sign_ne_empty text (Option.some.inj hempty)
      have hcanonical : ({ m with hash := some (k.sign text) } : Metric).canonical = .ok text :=
        htext
      simp only [hreceived, Signer.verifyMetric, hcanonical, Result.bind_ok, Signer.check_sign]

theorem Server.forM_verify_received {s : Server} {ms ns : List Metric}
    (hns : ms.mapM (Metric.signed s.signer) = .ok ns) :
    (ns.map Metric.received).forM s.verify = .ok () := by
  rw [Result.forM_eq_ok_iff, List.forall_mem_map]
  intro n hn
  obtain ⟨m, -, hmn⟩ := Result.exists_of_mem_mapM hns hn
  exact verify_received hmn

/-! ## Bodies -/

/-- The seals of both ends: there are none, or what the one seals the other opens. -/
inductive Paired : Option Sealer → Option Unsealer → Prop
  | unsealed : Paired none none
  | sealed {s : Sealer} {u : Unsealer} : s.OpenedBy u → Paired (some s) (some u)

namespace Agent.Poster

variable {p : Poster} {seeds : Nat → Oaep.Seed} {ms : List Metric} {json : Bytes}

theorem exists_body (hjson : Metric.batchBody p.signer ms = .ok json)
    (hfits : ∀ s, p.sealer = some s → Oaep.overhead < s.size) :
    ∃ body, p.body seeds ms = .ok body := by
  rw [body, hjson]
  cases hsealer : p.sealer with
  | none => exact ⟨_, rfl⟩
  | some s =>
      have hseal : s.sealBody seeds (Gzip.compress json) = .ok (s.blocks seeds
          (Bytes.chunks (s.size - Oaep.overhead) (Gzip.compress json))) := by
        rw [Sealer.sealBody, if_neg (Nat.not_le_of_lt (hfits s hsealer))]
      exact ⟨_, hseal⟩

theorem exists_batchBody {b : Bytes} (hbody : p.body seeds ms = .ok b) :
    ∃ json, Metric.batchBody p.signer ms = .ok json := by
  obtain ⟨json, hjson, -⟩ := Result.bind_eq_ok_iff.mp hbody
  exact ⟨json, hjson⟩

end Agent.Poster

namespace Server

open Agent (Poster)

variable {p : Poster} {s : Server} {seeds : Nat → Oaep.Seed} {ms : List Metric}
  {json body : Bytes}

/-- A body opens to the list that it carries, if that is not too long. -/
theorem openBody_body (hpaired : Paired p.sealer s.unsealer)
    (hjson : Metric.batchBody p.signer ms = .ok json) (hsize : json.length ≤ Gzip.maxInflated)
    (hbody : p.body seeds ms = .ok body) : s.openBody body true = .ok json := by
  rw [Poster.body, hjson] at hbody
  rw [openBody]
  generalize hsealer : p.sealer = sealer at hpaired hbody
  generalize hunsealer : s.unsealer = unsealer at hpaired
  cases hpaired with
  | unsealed =>
      obtain rfl : Gzip.compress json = body := Except.ok.inj hbody
      exact Gzip.gunzip_compress_le hsize
  | sealed hopened =>
      have hplain := hopened.openBody_sealBody hbody
      simp only [hplain]
      exact Gzip.gunzip_compress_le hsize

theorem plainBody_request (hpaired : Paired p.sealer s.unsealer)
    (hjson : Metric.batchBody p.signer ms = .ok json) (hsize : json.length ≤ Gzip.maxInflated)
    (hbody : p.body seeds ms = .ok body) (hlength : body.length ≤ maxBody) (url : Http.Url) :
    s.plainBody (Poster.request url body) = .ok json := by
  have hencoding : headerListsGzip (Poster.request url body) "content-encoding" = true := rfl
  have htype : isJson ((Poster.request url body).header? "content-type") = true := rfl
  have hshort : ¬maxBody < (Poster.request url body).body.length := Nat.not_lt_of_le hlength
  rw [plainBody, htype, hencoding, if_neg (by decide), if_neg hshort]
  exact openBody_body hpaired hjson hsize hbody

end Server

end Telemetry
