/-
The two ways to a server agree.

By request, the server takes or refuses all metrics together; by calls, each on its own.  What is
signed, written and read on the way differs too, but of each metric the same is read in both ways
(`Server.Gets`): the metric itself, at the level that is read of the number that is written for its
level.  It comes down to the store of the server: a request leads to what is read as a batch
(`Server.obey_posted`), and calls to the metrics of this batch one by one (`Caller.calls_peer`).
So if the request is accepted, the calls lead to the same; and if it is refused because counters
overflow, the calls bring in all metrics but these (`transports_agree`).

Nothing is claimed of a request that is refused for another reason.  If a metric of it lacks its
field, for example, the calls bring in the others.  Nor does the order of two metrics of one kind
and identifier stay without effect: the first may take the room of the second.

A sum that overflows is the only refusal that is looked into.  It is told apart from every other one
by its text: no metric is incomplete, and none fails to be verified, for an overflow
(`Server.verify_ne_overflow`).  Which counters overflow is asked of the batch as a whole and of
each metric alone; as no two metrics have one kind and identifier, the answers agree
(`Server.Gets.hasRoom_iff`).
-/
import Mathlib.Data.List.Forall2
import Telemetry.Proofs.Agent.Attempts
import Telemetry.Proofs.Agent.Bodies
import Telemetry.Proofs.Server.Forms
import Telemetry.Proofs.Signature.Binding

namespace Telemetry

open Agent

/-! ## What is kept, and what is refused for an overflow -/

theorem Binary64.isNaN_of_isFinite {x : Binary64} (hx : x.isFinite = true) : x.isNaN = false := by
  rw [isFinite, decide_eq_true_eq] at hx
  rw [isNaN, decide_eq_false_iff_not]
  omega

theorem Metric.Finite.keepable {m : Metric} (hm : m.Finite) {r : Reading}
    (hr : m.reading = .ok r) : m.Keepable :=
  ⟨r, hr, fun x hx => Binary64.isNaN_of_isFinite (hm.reading hr x hx)⟩

/-- The text of an overflow ends in the digit of `i64`, and a text that ends otherwise tells of
something else. -/
theorem Holdings.ne_overflow {a b : String} {last : Char} (hb : b.toList.getLast? = some last)
    (hlast : last ≠ '4') (id : String) : Fault.badAttrValue (a ++ b) ≠ overflow id := by
  intro h
  have htext := congrArg (fun t => t.toList.getLast?) (Fault.badAttrValue.inj h)
  simp only [String.toList_append, List.getLast?_append, hb, Option.some_or] at htext
  exact hlast (Option.some.inj htext)

theorem Metric.reading_ne_overflow (m : Metric) (id : String) :
    m.reading ≠ .error (Holdings.overflow id) := by
  rw [reading]
  split
  · exact fun h => Holdings.ne_overflow (a := "counter " ++ m.id) (b := " carries a gauge value")
      rfl (by decide) id (Except.error.inj h)
  · intro h
    cases h
  · exact fun h => Holdings.ne_overflow (a := "gauge " ++ m.id) (b := " carries a counter delta")
      rfl (by decide) id (Except.error.inj h)
  · intro h
    cases h
  · intro h
    rw [missingField] at h
    split at h <;> cases h

theorem Draft.completeMetric_ne_overflow (d : Draft) (id : String) :
    d.completeMetric ≠ .error (Holdings.overflow id) := by
  intro h
  rcases Result.bind_eq_error_iff.mp h with hnamed | ⟨m, -, hreading⟩
  · rcases Result.bind_eq_error_iff.mp hnamed with hmetric | ⟨m, -, hid⟩
    · have hkind := Result.map_eq_error_iff.mp hmetric
      rw [Kind.ofName] at hkind
      split at hkind
      · cases hkind
      · split at hkind <;> cases hkind
    · split at hid
      · exact Holdings.ne_overflow (a := "empty metric ") (b := "id") rfl (by decide) id
          (Except.error.inj hid)
      · cases hid
  · exact m.reading_ne_overflow id (Result.map_eq_error_iff.mp hreading)

theorem Metric.decodeBatch_ne_overflow (b : Bytes) (id : String) :
    decodeBatch b ≠ .error (Holdings.overflow id) := by
  intro h
  rw [decodeBatch] at h
  split at h
  · obtain ⟨-, d, -, -, -, -, hd⟩ := Result.mapM_eq_error_iff.mp h
    exact d.completeMetric_ne_overflow id hd
  · cases h

theorem Server.verify_ne_overflow (s : Server) (m : Metric) (id : String) :
    s.verify m ≠ .error (Holdings.overflow id) := by
  intro h
  rw [verify] at h
  cases hsigner : s.signer with
  | none =>
      rw [hsigner] at h
      cases h
  | some k =>
      simp only [hsigner, Signer.verifyMetric] at h
      split at h
      · cases h
      · rcases Result.bind_eq_error_iff.mp h with hcanonical | ⟨text, -, hcheck⟩
        · rw [Metric.canonical] at hcanonical
          split at hcanonical
          · cases hcanonical
          · cases hcanonical
          · rw [Metric.missingField] at hcanonical
            split at hcanonical <;> cases hcanonical
        · rw [Signer.check] at hcheck
          split at hcheck <;> cases hcheck

/-- A store takes no notice of signatures. -/
theorem Store.updateAll_map_unsigned (s : Store) (ms : List Metric) :
    s.updateAll (ms.map Metric.unsigned) = s.updateAll ms := by
  have hreadings : Holdings.readings (ms.map Metric.unsigned) = Holdings.readings ms := by
    induction ms with
    | nil => rfl
    | cons m ms ih => rw [List.map_cons, Holdings.readings_cons, Holdings.readings_cons, ih]; rfl
  rw [updateAll_eq, updateAll_eq, hreadings]

namespace Server

/-- A server that requests are posted to. -/
def post (r : Http.Request) (s : Server) : Posted × Server :=
  (.replied (s.serve r).1.status (s.serve r).1.body, (s.serve r).2)

/-- A server that a client at an address calls. -/
def peer (client : IpAddr) : Peer Server Unit where
  connect s := (.ok (), s)
  exchange _ frame s := (.answered (s.answer client frame).1.encode, (s.answer client frame).2)

variable {s : Server} {m n : Metric}

theorem becomes_of_store_take (input : Input) {store : Store} (h : (s.take input).store = store) :
    s.Becomes store (s.take input) := by
  rw [← h, store_take]
  exact s.becomes_take input

/-! ## What a server gets -/

/-- A metric comes to a server as another one: it is signed with the key of the server, and what is
read of it is verified. -/
def Gets (s : Server) (m arrived : Metric) : Prop :=
  ∃ n, m.signed s.signer = .ok n ∧ Metric.decodeUpdate n.encode = .ok arrived ∧
    s.verify arrived = .ok ()

theorem Gets.rereads {arrived : Metric} (h : s.Gets m arrived) (hfinite : m.Finite) :
    ∃ n, m.signed s.signer = .ok n ∧ n.Rereads arrived := by
  obtain ⟨n, hn, hread, -⟩ := h
  exact ⟨n, hn, Metric.rereads_of_decodeUpdate (Metric.finite_of_signed hn hfinite) hread⟩

theorem Gets.same {arrived : Metric} (h : s.Gets m arrived) (hfinite : m.Finite) :
    arrived.id = m.id ∧ arrived.kind = m.kind ∧ arrived.delta = m.delta := by
  obtain ⟨n, hn, -, harrived⟩ := h.rereads hfinite
  have hid := congrArg Metric.id (Metric.unsigned_of_signed hn)
  have hkind := congrArg Metric.kind (Metric.unsigned_of_signed hn)
  have hdelta := congrArg Metric.delta (Metric.unsigned_of_signed hn)
  rw [harrived]
  exact ⟨hid, hkind, hdelta⟩

theorem Gets.unsigned_eq {arrived : Metric} (h : s.Gets m arrived) (hfinite : m.Finite)
    (hback : m.ReadsBack) : arrived.unsigned = m.unsigned := by
  obtain ⟨n, hn, hlevel, harrived⟩ := h.rereads hfinite
  rw [(Metric.finite_of_signed hn hfinite).level? (Metric.readsBack_of_signed hn hback),
    Option.some.injEq] at hlevel
  rw [harrived, ← hlevel, ← Metric.unsigned_of_signed hn]
  rfl

theorem Gets.hasRoom_iff {arrived : Metric} (h : s.Gets m arrived) (hfinite : m.Finite)
    (held : Holdings) : held.HasRoom arrived ↔ held.HasRoom m := by
  obtain ⟨hid, hkind, hdelta⟩ := h.same hfinite
  rw [Holdings.HasRoom, Holdings.HasRoom, Metric.increment, Metric.increment, hid, hkind, hdelta]

theorem Gets.keepable {arrived : Metric} (h : s.Gets m arrived) : arrived.Keepable := by
  obtain ⟨n, -, hread, -⟩ := h
  have hstorable := Metric.storable_of_decodeUpdate hread
  obtain ⟨r, hr⟩ := hstorable.complete
  exact hstorable.finite.keepable hr

section

variable {ms arrived : List Metric}

theorem forall_of_gets {P : Metric → Prop} (hgets : List.Forall₂ s.Gets ms arrived)
    (h : ∀ m a, s.Gets m a → P a) : ∀ a ∈ arrived, P a := by
  induction hgets with
  | nil => exact nofun
  | cons hfirst _ ih => exact List.forall_mem_cons.mpr ⟨h _ _ hfirst, ih⟩

theorem apart_of_gets (hgets : List.Forall₂ s.Gets ms arrived) (hfinite : ∀ m ∈ ms, m.Finite)
    (hapart : ms.Pairwise Metric.Apart) : arrived.Pairwise Metric.Apart := by
  have hlabels : arrived.map (fun m => (m.kind, m.id)) = ms.map fun m => (m.kind, m.id) := by
    clear hapart
    induction hgets with
    | nil => rfl
    | cons hfirst _ ih =>
        obtain ⟨hm, hms⟩ := List.forall_mem_cons.mp hfinite
        obtain ⟨hid, hkind, -⟩ := hfirst.same hm
        rw [List.map_cons, List.map_cons, ih hms, hid, hkind]
  have hiff : ∀ l : List Metric, l.Pairwise Metric.Apart ↔
      (l.map fun m => (m.kind, m.id)).Pairwise (· ≠ ·) := by
    intro l
    rw [List.pairwise_map]
    simp only [ne_eq, Prod.mk.injEq]
    rfl
  rw [hiff, hlabels, ← hiff]
  exact hapart

theorem findIdxs_of_gets (hgets : List.Forall₂ s.Gets ms arrived) (hfinite : ∀ m ∈ ms, m.Finite)
    (held : Holdings) (i : Nat) :
    arrived.findIdxs (held.HasRoom ·) i = ms.findIdxs (held.HasRoom ·) i := by
  induction hgets generalizing i with
  | nil => rfl
  | @cons m a ms arrived hfirst _ ih =>
      obtain ⟨hm, hms⟩ := List.forall_mem_cons.mp hfinite
      have hroom : decide (held.HasRoom a) = decide (held.HasRoom m) :=
        decide_eq_decide.mpr (hfirst.hasRoom_iff hm held)
      rw [List.findIdxs_cons, List.findIdxs_cons, ih hms, hroom]

/-- Metrics whose levels read back come as they are, but for their signatures, and so do those of
them for which there is room. -/
theorem map_unsigned_filter_of_gets (hgets : List.Forall₂ s.Gets ms arrived)
    (hfinite : ∀ m ∈ ms, m.Finite) (hback : ∀ m ∈ ms, m.ReadsBack) (held : Holdings) :
    (arrived.filter (held.HasRoom ·)).map Metric.unsigned =
      (ms.filter (held.HasRoom ·)).map Metric.unsigned := by
  induction hgets with
  | nil => rfl
  | @cons m a ms arrived hfirst _ ih =>
      obtain ⟨hm, hms⟩ := List.forall_mem_cons.mp hfinite
      obtain ⟨hmback, hmsback⟩ := List.forall_mem_cons.mp hback
      have hroom : decide (held.HasRoom a) = decide (held.HasRoom m) :=
        decide_eq_decide.mpr (hfirst.hasRoom_iff hm held)
      rw [List.filter_cons, List.filter_cons, hroom]
      split
      · rw [List.map_cons, List.map_cons, ih hms hmsback, hfirst.unsigned_eq hm hmback]
      · exact ih hms hmsback

end

/-! ## Requests -/

/-- A client that posts to a server at its address: both have the same key and matching seals,
and the server takes requests from anywhere. -/
structure PostedBy (s : Server) (p : Poster) (url : Http.Url) : Prop where
  key : p.signer = s.signer
  seals : Paired p.sealer s.unsealer
  origin : s.subnet = none
  destination : p.destination = .ok url
  route : Route.ofPath? (Http.Target.path url.target) = some .updates

end Server

/-- Metrics that are not too many for one request. -/
structure Agent.Poster.Fits (p : Poster) (seeds : Nat → Oaep.Seed) (ms : List Metric) : Prop where
  json : ∀ json, Metric.batchBody p.signer ms = .ok json → json.length ≤ Gzip.maxInflated
  body : ∀ body, p.body seeds ms = .ok body → body.length ≤ Server.maxBody

namespace Server

section

variable {s : Server} {p : Poster} {url : Http.Url} {seeds : Nat → Oaep.Seed} {ms : List Metric}
  {body : Bytes}

/-- A server gets metrics that are decoded from their list and verified. -/
theorem gets_of_decodeBatch (hkey : p.signer = s.signer) (hfinite : ∀ m ∈ ms, m.Finite)
    {json : Bytes} (hjson : Metric.batchBody p.signer ms = .ok json) {arrived : List Metric}
    (hread : Metric.decodeBatch json = .ok arrived) (hverified : ∀ m ∈ arrived, s.verify m = .ok ()) :
    List.Forall₂ s.Gets ms arrived := by
  obtain ⟨ns, hns, hdecode⟩ := Metric.decodeBatch_batchBody hjson hfinite
  rw [hkey] at hns
  have hmap := (hdecode arrived).mp hread
  clear hread hdecode hjson hfinite
  induction ms generalizing ns arrived with
  | nil =>
      obtain rfl : [] = ns := Except.ok.inj hns
      cases arrived with
      | nil => exact .nil
      | cons a arrived => cases hmap
  | cons m ms ih =>
      obtain ⟨n, rest, hn, hrest, rfl⟩ := Result.mapM_cons_eq_ok_iff.mp hns
      cases arrived with
      | nil => cases hmap
      | cons a arrived =>
          obtain ⟨ha, hlater⟩ := List.cons.inj hmap
          obtain ⟨hfirst, hothers⟩ := List.forall_mem_cons.mp hverified
          exact .cons ⟨n, hn, ha, hfirst⟩ (ih hothers rest hrest hlater)

theorem order_posted (h : s.PostedBy p url) (hfits : p.Fits seeds ms)
    (hbody : p.body seeds ms = .ok body) :
    ∃ json, Metric.batchBody p.signer ms = .ok json ∧ s.order (Poster.request url body) .updates =
      ((Metric.decodeBatch json).bind s.allVerified).map .updateAll := by
  obtain ⟨json, hjson⟩ := Poster.exists_batchBody hbody
  have hplain := plainBody_request h.seals hjson (hfits.json json hjson) hbody
    (hfits.body body hbody) url
  exact ⟨json, hjson, by rw [order, hplain, Result.bind_ok]⟩

/-- What is posted goes into the store as the batch that the server gets, or it is refused before,
and not for an overflow. -/
theorem obey_posted (h : s.PostedBy p url) (hfits : p.Fits seeds ms)
    (hfinite : ∀ m ∈ ms, m.Finite) (hbody : p.body seeds ms = .ok body) :
    (∃ arrived, List.Forall₂ s.Gets ms arrived ∧
      (s.order (Poster.request url body) .updates).bind s.store.obey = s.store.updateAll arrived) ∨
    ∃ f, (s.order (Poster.request url body) .updates).bind s.store.obey = .error f ∧
      ∀ id, f ≠ Holdings.overflow id := by
  obtain ⟨json, hjson, horder⟩ := order_posted h hfits hbody
  rw [horder]
  cases hread : Metric.decodeBatch json with
  | error f => exact .inr ⟨f, rfl, fun id hf => Metric.decodeBatch_ne_overflow json id (hf ▸ hread)⟩
  | ok arrived =>
      rw [Result.bind_ok, allVerified]
      cases hverified : arrived.forM s.verify with
      | error f =>
          obtain ⟨m, -, hm⟩ := Result.exists_of_forM_error hverified
          exact .inr ⟨f, rfl, fun id hf => s.verify_ne_overflow m id (hf ▸ hm)⟩
      | ok _ =>
          exact .inl ⟨arrived, gets_of_decodeBatch h.key hfinite hjson hread
            (Result.forM_eq_ok_iff.mp hverified), rfl⟩

theorem PostedBy.handled_posted (h : s.PostedBy p url) (body : Bytes) :
    s.Handled (Poster.request url body) .updates (s.order (Poster.request url body) .updates) := by
  have horigin : s.checkOrigin (Poster.request url body) = .ok () := by
    rw [checkOrigin, h.origin]
  exact .reached h.route horigin rfl rfl

theorem deliver_posted (h : s.PostedBy p url) (hbody : p.body seeds ms = .ok body) :
    p.deliver seeds post ms s =
      ((p.judge (post (Poster.request url body) s).1).map fun _ => List.range ms.length,
        (s.serve (Poster.request url body)).2) := by
  simp only [Poster.deliver, hbody, h.destination, post]

theorem judge_accept (h : s.PostedBy p url) (body : Bytes) (text : String) :
    let response := s.accept (.ofRequest (Poster.request url body)) (.message text)
    p.judge (.replied response.status response.body) = .ok () := by
  have hformat : BodyFormat.ofAccept (some "application/json") = .json := by decide
  have haccept : (Poster.request url body).header? "accept" = some "application/json" := rfl
  have hencoding : headerListsGzip (Poster.request url body) "accept-encoding" = false := rfl
  have hwish : Wish.ofRequest (Poster.request url body) = ⟨.json, false⟩ := by
    rw [Wish.ofRequest, haccept, hencoding, hformat]
  intro response
  have hresponse : response = shown ⟨.json, false⟩ 200
      ((Reply.success text).signed s.signer).encode := by
    simp only [response, hwish]
    rfl
  rw [hresponse]
  change p.checkReply ((Reply.success text).signed s.signer).encode = .ok ()
  rw [Poster.checkReply, Reply.parse?_encode, h.key]
  cases s.signer with
  | none => rfl
  | some k =>
      have hsigned : (k.signReply (Reply.success text)).hash ≠ "" := k.sign_ne_empty _
      simp only [Reply.signed, if_neg hsigned, k.verifyReply_signReply]

theorem judge_complaint (p : Poster) (w : Wish) (f : Fault) :
    ∃ g, p.judge (.replied (s.complaint w f).status (s.complaint w f).body) = .error g := by
  have hstatus : Http.Status.isSuccess f.status = false := by cases f <;> rfl
  have hresponse : (s.complaint w f).status = f.status := rfl
  rw [hresponse, Poster.judge]
  simp only [hstatus, Bool.false_eq_true, if_false]
  exact ⟨_, rfl⟩

theorem deliver_post_of_ok (h : s.PostedBy p url) (hbody : p.body seeds ms = .ok body) {t : Store}
    (ht : (s.order (Poster.request url body) .updates).bind s.store.obey = .ok t) :
    (p.deliver seeds post ms s).1 = .ok (List.range ms.length) ∧
      (p.deliver seeds post ms s).2.store = t := by
  have hhandled := h.handled_posted body
  have hhead : (Poster.request url body).method ≠ "HEAD" := show "POST" ≠ "HEAD" by decide
  have hresponse : (s.serve (Poster.request url body)).1 =
      s.accept (.ofRequest (Poster.request url body)) (.message batchSavedText) := by
    have hwrites : ∀ asked : Result (List Metric),
        (asked.map Order.updateAll).bind s.store.obey = asked.bind s.store.updateAll := by
      rintro (f | batch) <;> rfl
    rw [order, hwrites] at ht
    rw [hhandled.response, dress_eq_self rfl hhead, order, fst_settle_updateAll ht]
  rw [deliver_posted h hbody, post, hresponse, judge_accept h]
  exact ⟨rfl, hhandled.store_of_ok ht⟩

theorem deliver_post_of_error (h : s.PostedBy p url) (hbody : p.body seeds ms = .ok body)
    {f : Fault} (hf : (s.order (Poster.request url body) .updates).bind s.store.obey = .error f) :
    (∃ g, (p.deliver seeds post ms s).1 = .error g) ∧
      (p.deliver seeds post ms s).2.store = s.store := by
  have hhandled := h.handled_posted body
  have hhead : (Poster.request url body).method ≠ "HEAD" := show "POST" ≠ "HEAD" by decide
  have hresponse : (s.serve (Poster.request url body)).1 =
      s.complaint (.ofRequest (Poster.request url body)) f := by
    rw [hhandled.response, dress_eq_self rfl hhead, settle_of_error hf]
  obtain ⟨g, hg⟩ := s.judge_complaint p (.ofRequest (Poster.request url body)) f
  rw [deliver_posted h hbody, post, hresponse, hg]
  exact ⟨⟨g, rfl⟩, hhandled.store_of_error hf⟩

end

end Server

/-! ## Calls -/

namespace Agent.Caller

/-- A metric whose call is not too long, nor the replies to it. -/
structure Fits (c : Caller) (m : Metric) : Prop where
  call : ∀ n, m.signed c.signer = .ok n → ∀ seq,
    (Frame.updateRequest seq n).encode.length ≤ Stream.maxFrame
  reply : ∀ r, r = Reply.success Server.savedText ∨ r = Reply.ofFault (Holdings.overflow m.id) →
    ∀ seq, ((Frame.updateRequest seq m).reply (r.signed c.signer).encode).encode.length ≤
      Stream.maxFrame

variable {c : Caller} {s : Server} {client : IpAddr} {m n : Metric}

/-- Seven octets of a frame come before its payload. -/
theorem fits_of_payloads
    (hcall : ∀ n, m.signed c.signer = .ok n → n.encode.length + 7 ≤ Stream.maxFrame)
    (hreply : ∀ r, r = Reply.success Server.savedText ∨
      r = Reply.ofFault (Holdings.overflow m.id) →
        (r.signed c.signer).encode.length + 7 ≤ Stream.maxFrame) : c.Fits m where
  call n hn seq := by
    refine Nat.le_trans (Nat.le_of_eq ?_) (hcall n hn)
    simp only [Frame.updateRequest, Frame.request, Frame.encode, Frame.seqBytes, List.length_cons,
      List.length_append, List.cons_append, Bytes.length_ofNatLE]
    omega
  reply r hr seq := by
    refine Nat.le_trans (Nat.le_of_eq ?_) (hreply r hr)
    simp only [Frame.updateRequest, Frame.request, Frame.reply, Frame.encode, Frame.seqBytes,
      List.length_cons, List.length_append, List.cons_append, Bytes.length_ofNatLE]
    omega

theorem reply_signed (c : Caller) (seq : UInt32) (m : Metric) (r : Reply) :
    c.reply seq ((Frame.updateRequest seq m).reply (r.signed c.signer).encode).encode =
      .ok (r.signed c.signer) := by
  refine reply_eq_ok_iff.mpr ⟨_, Frame.decode_encode_reply _ _, Frame.isResponse_reply _ _, rfl,
    ?_, ?_⟩
  · rw [Frame.response, Frame.reply, Reply.parse?_encode]
  · refine checkReply_eq_ok_iff.mpr fun k hk _ => ?_
    rw [hk]
    exact k.verifyReply_signReply r

theorem call_peer (hn : m.signed c.signer = .ok n) (hfits : c.Fits m) {seq : UInt32} {r : Reply}
    (hr : r = Reply.success Server.savedText ∨ r = Reply.ofFault (Holdings.overflow m.id))
    (hanswer : (s.answer client (Frame.updateRequest seq n).encode).1 =
      (Frame.updateRequest seq n).reply (r.signed c.signer).encode) :
    c.call (Server.peer client) () m seq s =
      (.ofReply (.ok (r.signed c.signer)), seq + 1,
        (s.answer client (Frame.updateRequest seq n).encode).2) := by
  have hcall : ¬Stream.maxFrame < (Frame.updateRequest seq n).encode.length :=
    Nat.not_lt_of_le (hfits.call n hn seq)
  have hreply : ¬Stream.maxFrame <
      ((Frame.updateRequest seq n).reply (r.signed c.signer).encode).encode.length :=
    Nat.not_lt_of_le (hfits.reply r hr seq)
  simp only [call, hn, send, if_neg hcall, Server.peer, hanswer, Exchange.frame, if_neg hreply,
    Result.bind_ok, reply_signed]

theorem verdict_call (client : IpAddr) (horigin : s.subnet = none) {arrived : Metric}
    (hread : Metric.decodeUpdate n.encode = .ok arrived) (hverified : s.verify arrived = .ok ())
    (seq : UInt32) :
    s.verdict client (Frame.updateRequest seq n).encode = s.store.update arrived := by
  have hpeer : s.checkPeer client = .ok () := by rw [Server.checkPeer, horigin]
  rw [Frame.updateRequest, Server.verdict_request n (some seq) hpeer, hread, Server.outcome,
    Result.bind_ok, Server.verified, hverified]
  rfl

/-- A server takes what it gets of a metric into its store, and the caller is told so. -/
theorem call_of_ok (client : IpAddr) (hkey : c.signer = s.signer) (horigin : s.subnet = none)
    {arrived : Metric} (hgets : s.Gets m arrived) (hfits : c.Fits m) (seq : UInt32) {store : Store}
    (hstore : s.store.update arrived = .ok store) :
    ∃ t, c.call (Server.peer client) () m seq s = (.acknowledged, seq + 1, t) ∧
      s.Becomes store t := by
  obtain ⟨n, hn, hread, hverified⟩ := hgets
  rw [← hkey] at hn
  rw [← verdict_call client horigin hread hverified seq] at hstore
  obtain ⟨hanswer, hafter⟩ := Server.answer_of_ok hstore
  have hanswered : Server.answered (Frame.updateRequest seq n).encode =
      Frame.updateRequest seq n := by
    rw [Server.answered, Frame.updateRequest, Frame.decode_encode_request]
  rw [hanswered, ← hkey] at hanswer
  have hverdict : Verdict.ofReply (.ok ((Reply.success Server.savedText).signed c.signer)) =
      .acknowledged := Verdict.ofReply_eq_acknowledged_iff.mpr ⟨_, rfl, Reply.error_signed _ _⟩
  rw [call_peer hn hfits (.inl rfl) hanswer, hverdict]
  exact ⟨_, rfl, Server.becomes_of_store_take (.frame client _) hafter⟩

/-- A server whose counter overflows refuses the metric, and the caller is told so. -/
theorem call_of_error (client : IpAddr) (hkey : c.signer = s.signer) (horigin : s.subnet = none)
    {arrived : Metric} (hgets : s.Gets m arrived) (hfits : c.Fits m) (seq : UInt32)
    (hstore : s.store.update arrived = .error (Holdings.overflow m.id)) :
    ∃ f t, c.call (Server.peer client) () m seq s = (.rejected f, seq + 1, t) ∧
      s.Becomes s.store t := by
  obtain ⟨n, hn, hread, hverified⟩ := hgets
  rw [← hkey] at hn
  rw [← verdict_call client horigin hread hverified seq] at hstore
  have hanswer := Server.fst_answer_of_error (Frame.decode_encode_request _ _ _) hstore
  rw [← hkey] at hanswer
  have herror : ((Reply.ofFault (Holdings.overflow m.id)).signed c.signer).isError = true := by
    rw [Reply.isError, Reply.error_signed]
    exact decide_eq_true ((s.explained_verdict client _).message_ne_empty hstore)
  rw [call_peer hn hfits (.inr rfl) hanswer, Verdict.ofReply, if_pos herror]
  exact ⟨_, _, rfl, Server.becomes_of_store_take (.frame client _)
    (Server.answer_of_error hstore).2⟩

/-- Calls give to the store one by one what the server gets of the metrics, and what it takes is
acknowledged. -/
theorem calls_peer {ms arrived : List Metric} (client : IpAddr) (hkey : c.signer = s.signer)
    (horigin : s.subnet = none) (hs : s.store.Writable) (hgets : List.Forall₂ s.Gets ms arrived)
    (hfinite : ∀ m ∈ ms, m.Finite) (hfits : ∀ m ∈ ms, c.Fits m) (i : Nat) (seq : UInt32) :
    ∃ d seq' t, c.calls (Server.peer client) () i ms seq s = (d, seq', t) ∧
      d.places = (s.store.takeEach i arrived).1 ∧ s.Becomes (s.store.takeEach i arrived).2 t ∧
      (d.fault = none → d.places.length = ms.length) := by
  -- the server changes with every call, but its key and its origins do not, and what it holds
  -- stays writable
  induction ms generalizing s arrived i seq with
  | nil =>
      cases hgets
      exact ⟨_, _, _, rfl, rfl, s.becomes_refl, fun _ => rfl⟩
  | cons m ms ih =>
      obtain ⟨a, later, hfirst, hlater, rfl⟩ := List.forall₂_cons_left_iff.mp hgets
      rw [List.forall_mem_cons] at hfinite hfits
      rcases hs.update_cases hfirst.keepable with ⟨-, store, hstore, hwritable⟩ | ⟨-, hrefused⟩
      · obtain ⟨t, hcall, stats, rfl⟩ :=
          call_of_ok client hkey horigin hfirst hfits.1 seq hstore
        obtain ⟨d, seq', u, hcalls, hplaces, hu, hall⟩ :=
          ih (s := { s with store, stats }) hkey horigin hwritable hlater hfinite.2 hfits.2 (i + 1)
            (seq + 1)
        obtain ⟨stats', hu⟩ := hu
        refine ⟨{ d with places := i :: d.places }, seq', u, ?_, ?_, ?_, ?_⟩
        · simp only [calls, hcall, hcalls]
        · simp only [Store.takeEach, hstore, hplaces]
        · simp only [Store.takeEach, hstore]
          exact ⟨stats', hu⟩
        · intro hnone
          rw [List.length_cons, List.length_cons, hall hnone]
      · rw [(hfirst.same hfinite.1).1] at hrefused
        obtain ⟨f, t, hcall, stats, rfl⟩ :=
          call_of_error client hkey horigin hfirst hfits.1 seq hrefused
        obtain ⟨d, seq', u, hcalls, hplaces, hu, -⟩ :=
          ih (s := { s with stats }) hkey horigin hs hlater hfinite.2 hfits.2 (i + 1) (seq + 1)
        obtain ⟨stats', hu⟩ := hu
        refine ⟨{ d with fault := d.fault.or (some f) }, seq', u, ?_, ?_, ?_, ?_⟩
        · simp only [calls, hcall, hcalls]
        · simp only [Store.takeEach, hrefused, hplaces]
        · simp only [Store.takeEach, hrefused]
          exact ⟨stats', hu⟩
        · intro hnone
          simp only [Option.or_eq_none_iff, reduceCtorEq, and_false] at hnone

/-- A delivery is what comes of the calls, over whatever connection. -/
theorem deliver_eq_calls (c : Caller) (client : IpAddr) (ms : List Metric)
    (state : CallerState Unit) (s : Server) :
    (c.deliver (Server.peer client) ms (state, s)).1 =
        conclude (c.calls (Server.peer client) () 0 ms state.nextSeq s).1 ∧
      (c.deliver (Server.peer client) ms (state, s)).2.2 =
        (c.calls (Server.peer client) () 0 ms state.nextSeq s).2.2 := by
  have hconnection : connection (Server.peer client) state.connection s = (.ok (), s) := by
    cases state.connection <;> rfl
  rw [deliver, hconnection]
  exact ⟨rfl, rfl⟩

/-- A delivery yields the places of what the store takes, and fails if it takes nothing of
something. -/
theorem deliver_peer {ms arrived : List Metric} (hkey : c.signer = s.signer)
    (horigin : s.subnet = none) (hs : s.store.Writable) (hgets : List.Forall₂ s.Gets ms arrived)
    (hfinite : ∀ m ∈ ms, m.Finite) (hfits : ∀ m ∈ ms, c.Fits m) (hne : ms ≠ [])
    (client : IpAddr) (state : CallerState Unit) :
    let called := c.deliver (Server.peer client) ms (state, s)
    called.2.2.store = (s.store.takeEach 0 arrived).2 ∧
      ((s.store.takeEach 0 arrived).1 ≠ [] → called.1 = .ok (s.store.takeEach 0 arrived).1) ∧
      ((s.store.takeEach 0 arrived).1 = [] → ∃ f, called.1 = .error f) := by
  intro called
  obtain ⟨hresult, hafter⟩ := c.deliver_eq_calls client ms state s
  obtain ⟨d, seq, t, hcalls, hplaces, ⟨stats, ht⟩, hall⟩ :=
    calls_peer client hkey horigin hs hgets hfinite hfits 0 state.nextSeq
  rw [hcalls] at hresult hafter
  rw [← hplaces, hafter, hresult]
  refine ⟨by rw [ht], fun hsome => ?_, fun hnone => ?_⟩
  · obtain ⟨places, fault, healthy⟩ := d
    cases places with
    | nil => exact absurd rfl hsome
    | cons i places => rfl
  · refine conclude_eq_error_iff.mpr ⟨hnone, fun hfault => hne ?_⟩
    have hlength := hall hfault
    rw [hnone, List.length_nil] at hlength
    exact List.length_eq_zero_iff.mp hlength.symm

end Agent.Caller

/-! ## Agreement -/

namespace Agent.Caller

variable {c : Caller} {s : Server} {ms arrived : List Metric}

/-- Calls for metrics that the store takes as a batch are all acknowledged, and lead to where the
batch leads. -/
theorem deliver_peer_of_ok (hkey : c.signer = s.signer) (horigin : s.subnet = none)
    (hgets : List.Forall₂ s.Gets ms arrived) (hfinite : ∀ m ∈ ms, m.Finite)
    (hfits : ∀ m ∈ ms, c.Fits m) {t : Store} (ht : s.store.updateAll arrived = .ok t)
    (client : IpAddr) (state : CallerState Unit) :
    let called := c.deliver (Server.peer client) ms (state, s)
    called.1 = .ok (List.range ms.length) ∧ called.2.2.store = t := by
  intro called
  obtain ⟨rs, hrs, happlied⟩ := Result.bind_eq_ok_iff.mp (s.store.updateAll_eq arrived ▸ ht)
  cases ms with
  | nil =>
      -- the store may refuse every metric here, but there is none
      cases hgets
      obtain ⟨hresult, hafter⟩ := c.deliver_eq_calls client [] state s
      obtain rfl : [] = rs := Except.ok.inj hrs
      rw [hresult, hafter]
      exact ⟨rfl, Store.applyAll_nil happlied⟩
  | cons m rest =>
      have hlength : arrived.length = rest.length + 1 := hgets.length_eq.symm
      have hne : rs ≠ [] := by
        cases hgets
        obtain ⟨r, later, -, -, rfl⟩ := Holdings.readings_cons_eq_ok_iff.mp hrs
        exact List.cons_ne_nil _ _
      have hwritable : s.store.Writable := Store.writable_of_applyAll (.inl ⟨hne, t, happlied⟩)
      obtain ⟨hafter, hall, -⟩ := deliver_peer hkey horigin hwritable hgets hfinite hfits
        (List.cons_ne_nil m rest) client state
      rw [Store.takeEach_of_updateAll hrs ht 0, hlength] at hafter hall
      rw [List.range_eq_range']
      exact ⟨hall (by simp), hafter⟩

/-- Of metrics apart that overflow a counter as a batch, calls bring in those for which there is
room. -/
theorem deliver_peer_of_overflow (hkey : c.signer = s.signer) (horigin : s.subnet = none)
    (hgets : List.Forall₂ s.Gets ms arrived) (hfinite : ∀ m ∈ ms, m.Finite)
    (hfits : ∀ m ∈ ms, c.Fits m) (hapart : ms.Pairwise Metric.Apart) {id : String}
    (hoverflow : s.store.updateAll arrived = .error (Holdings.overflow id)) (client : IpAddr)
    (state : CallerState Unit) :
    let called := c.deliver (Server.peer client) ms (state, s)
    s.store.updateAll (arrived.filter (s.store.held.HasRoom ·)) = .ok called.2.2.store ∧
      ((∀ m ∈ ms, ¬s.store.held.HasRoom m) → ∃ f, called.1 = .error f) ∧
      ((∃ m ∈ ms, s.store.held.HasRoom m) →
        called.1 = .ok (ms.findIdxs (s.store.held.HasRoom ·))) := by
  intro called
  have hkeepable : ∀ a ∈ arrived, a.Keepable := Server.forall_of_gets hgets fun _ _ h => h.keepable
  obtain ⟨rs, hrs⟩ := Holdings.exists_readings_iff.mpr fun a ha => (hkeepable a ha).imp fun _ h => h.1
  have hrefused : s.store.applyAll rs = .error (Holdings.overflow id) := by
    rwa [Store.updateAll_eq, hrs, Result.bind_ok] at hoverflow
  have hwritable : s.store.Writable := Store.writable_of_applyAll (.inr ⟨id, hrefused⟩)
  obtain ⟨hplaces, htaken⟩ := hwritable.takeEach hkeepable
    (Server.apart_of_gets hgets hfinite hapart) 0
  have hne : ms ≠ [] := by
    rintro rfl
    cases hgets
    cases hoverflow.symm.trans htaken
  obtain ⟨hafter, hall, hnothing⟩ :=
    deliver_peer hkey horigin hwritable hgets hfinite hfits hne client state
  rw [hplaces, Server.findIdxs_of_gets hgets hfinite] at hall hnothing
  refine ⟨?_, fun hfull => hnothing ?_, fun hroom => hall ?_⟩
  · rw [htaken, ← hafter]
  · exact List.findIdxs_eq_nil_iff.mpr fun m hm => decide_eq_false (hfull m hm)
  · obtain ⟨m, hm, hfree⟩ := hroom
    intro hnone
    exact absurd hfree (of_decide_eq_false (List.findIdxs_eq_nil_iff.mp hnone m hm))

end Agent.Caller

/-- Delivery by request and delivery by calls to the same server, of metrics of which no two have
one kind and identifier.  If the request is accepted, all calls are acknowledged and lead to the
same store.  If it is refused because a counter overflows, it leaves the store as it was, and the
metrics are acknowledged for which there is room; what the server gets of these is taken as a batch
of it would be, and this is the metrics themselves if their levels read back.  When there are none,
the calls fail too. -/
theorem transports_agree {s : Server} {p : Poster} {url : Http.Url} {c : Caller}
    {seeds : Nat → Oaep.Seed} {ms : List Metric} (hposted : s.PostedBy p url)
    (hkey : c.signer = s.signer) (hfinite : ∀ m ∈ ms, m.Finite)
    (hapart : ms.Pairwise Metric.Apart) (hrequest : p.Fits seeds ms) (hcalls : ∀ m ∈ ms, c.Fits m)
    (client : IpAddr) (state : CallerState Unit) :
    let posted := p.deliver seeds Server.post ms s
    let called := c.deliver (Server.peer client) ms (state, s)
    (∀ places, posted.1 = .ok places →
      called.1 = .ok (List.range ms.length) ∧ called.2.2.store = posted.2.store) ∧
    ∀ body id, p.body seeds ms = .ok body →
      (s.order (Poster.request url body) .updates).bind s.store.obey =
        .error (Holdings.overflow id) →
      (∃ f, posted.1 = .error f) ∧ posted.2.store = s.store ∧
      (∃ arrived, List.Forall₂ s.Gets ms arrived ∧
        s.store.updateAll (arrived.filter (s.store.held.HasRoom ·)) = .ok called.2.2.store) ∧
      ((∀ m ∈ ms, m.ReadsBack) →
        s.store.updateAll (ms.filter (s.store.held.HasRoom ·)) = .ok called.2.2.store) ∧
      ((∀ m ∈ ms, ¬s.store.held.HasRoom m) → ∃ f, called.1 = .error f) ∧
      ((∃ m ∈ ms, s.store.held.HasRoom m) →
        called.1 = .ok (ms.findIdxs (s.store.held.HasRoom ·))) := by
  intro posted called
  refine ⟨fun places hplaces => ?_, fun body id hbody hoverflow => ?_⟩
  · obtain ⟨body, hbody⟩ : ∃ body, p.body seeds ms = .ok body := by
      simp only [posted, Poster.deliver] at hplaces
      split at hplaces
      · cases hplaces
      · exact ⟨_, by assumption⟩
    cases htaken : (s.order (Poster.request url body) .updates).bind s.store.obey with
    | error f =>
        obtain ⟨⟨g, hg⟩, -⟩ := Server.deliver_post_of_error hposted hbody htaken
        cases hplaces.symm.trans hg
    | ok t =>
        obtain ⟨-, hstore⟩ := Server.deliver_post_of_ok hposted hbody htaken
        rcases Server.obey_posted hposted hrequest hfinite hbody with
          ⟨arrived, hgets, hobey⟩ | ⟨f, hobey, -⟩
        · rw [hstore]
          exact Caller.deliver_peer_of_ok hkey hposted.origin hgets hfinite hcalls
            (hobey.symm.trans htaken) client state
        · cases hobey.symm.trans htaken
  · obtain ⟨hrejected, hkept⟩ := Server.deliver_post_of_error hposted hbody hoverflow
    rcases Server.obey_posted hposted hrequest hfinite hbody with
      ⟨arrived, hgets, hobey⟩ | ⟨f, hobey, hother⟩
    · obtain ⟨htaken, hnothing, hplaces⟩ := Caller.deliver_peer_of_overflow hkey hposted.origin hgets
        hfinite hcalls hapart (hobey.symm.trans hoverflow) client state
      refine ⟨hrejected, hkept, ⟨arrived, hgets, htaken⟩, fun hback => ?_, hnothing, hplaces⟩
      rw [← htaken, ← Store.updateAll_map_unsigned,
        ← Server.map_unsigned_filter_of_gets hgets hfinite hback, Store.updateAll_map_unsigned]
    · exact absurd (Except.error.inj (hobey.symm.trans hoverflow)) (hother id)

def brimServer : Server :=
  ⟨.memory (Holdings.empty.put "a" (.counter Int64.maxValue)), some secretSigner, none, none,
    .empty⟩

def brimPoster : Poster := ⟨"localhost:8080", some secretSigner, none⟩

def brimUrl : Http.Url := ⟨false, "localhost", some 8080, "/updates/", none, none⟩

def brimCaller : Caller := ⟨"localhost:9090", some secretSigner⟩

/-- One metric too many, and two that are not. -/
def brimMetrics : List Metric :=
  [.counter "a" 1, .counter "b" 2, .gauge "a" ⟨0x3fe0000000000000⟩]

/-- By request all three metrics are refused.  By calls only the first is, although the gauge has
the identifier of the full counter. -/
theorem transports_agree_brim :
    brimServer.PostedBy brimPoster brimUrl ∧ brimCaller.signer = brimServer.signer ∧
      (∀ m ∈ brimMetrics, m.Finite) ∧
      brimMetrics.Pairwise Metric.Apart ∧ (∀ seeds, brimPoster.Fits seeds brimMetrics) ∧
      (∀ m ∈ brimMetrics, brimCaller.Fits m) ∧
      ∀ seeds client state,
        (brimPoster.deliver seeds Server.post brimMetrics brimServer).2.store = brimServer.store ∧
          (brimCaller.deliver (Server.peer client) brimMetrics (state, brimServer)).1 =
            .ok [1, 2] ∧
          brimServer.store.updateAll [.counter "b" 2, .gauge "a" ⟨0x3fe0000000000000⟩] =
            .ok (brimCaller.deliver (Server.peer client) brimMetrics
              (state, brimServer)).2.2.store := by
  have hposted : brimServer.PostedBy brimPoster brimUrl :=
    ⟨rfl, .unsealed, rfl, by decide +kernel, by decide +kernel⟩
  have hfinite : ∀ m ∈ brimMetrics, m.Finite := by
    have hvalues : ∀ m ∈ brimMetrics, m.value.all Binary64.isFinite = true := by decide
    intro m hm x hx
    have hvalue := hvalues m hm
    rwa [hx] at hvalue
  have hapart : brimMetrics.Pairwise Metric.Apart := by
    simp [brimMetrics, Metric.Apart, Metric.counter, Metric.gauge, Reading.toMetric]
  have hrequest : ∀ seeds, brimPoster.Fits seeds brimMetrics := by
    have hlengths : ((Metric.batchBody brimPoster.signer brimMetrics).toOption.all fun json =>
        Gzip.literalLength < json.length ∧ json.length ≤ Gzip.blockLength) = true := by
      decide +kernel
    have hlength := Result.of_toOption_all hlengths
    refine fun seeds => ⟨fun json hjson => ?_, fun body hbody => ?_⟩
    · exact Nat.le_trans (hlength json hjson).2 (by decide)
    · obtain ⟨json, hjson⟩ := Poster.exists_batchBody hbody
      obtain ⟨hlong, hshort⟩ := hlength json hjson
      rw [Poster.body, hjson] at hbody
      obtain rfl : Gzip.compress json = body := Except.ok.inj hbody
      have hpacked := Gzip.length_compress_le hlong hshort
      have hroom : Gzip.blockLength + 23 ≤ Server.maxBody := by decide
      omega
  have hcalls : ∀ m ∈ brimMetrics, brimCaller.Fits m := by
    have hpayloads : ∀ m ∈ brimMetrics, ((m.signed brimCaller.signer).toOption.all fun n =>
        n.encode.length + 7 ≤ Stream.maxFrame) = true := by decide +kernel
    have hsaved : ((Reply.success Server.savedText).signed brimCaller.signer).encode.length + 7 ≤
        Stream.maxFrame := by decide +kernel
    have hoverflows : ∀ m ∈ brimMetrics, ((Reply.ofFault (Holdings.overflow m.id)).signed
        brimCaller.signer).encode.length + 7 ≤ Stream.maxFrame := by decide +kernel
    intro m hm
    refine Caller.fits_of_payloads (Result.of_toOption_all (hpayloads m hm)) ?_
    rintro r (rfl | rfl)
    · exact hsaved
    · exact hoverflows m hm
  have hreads : ((Metric.batchBody brimPoster.signer brimMetrics).toOption.all fun json =>
      ((Metric.decodeBatch json).bind brimServer.allVerified).map (·.map Metric.unsigned) =
        .ok brimMetrics) = true := by decide +kernel
  refine ⟨hposted, rfl, hfinite, hapart, hrequest, hcalls, fun seeds client state => ?_⟩
  obtain ⟨-, hrefused⟩ := transports_agree hposted rfl hfinite hapart (hrequest seeds) hcalls
    client state
  have hcomplete : ∀ m ∈ brimMetrics, ∃ r, m.reading = .ok r := by
    simp only [brimMetrics, List.forall_mem_cons, List.not_mem_nil, false_imp_iff, implies_true,
      and_true]
    exact ⟨⟨_, rfl⟩, ⟨_, rfl⟩, ⟨_, rfl⟩⟩
  obtain ⟨ns, -, hjson⟩ := Metric.exists_batchBody hcomplete brimPoster.signer
  obtain ⟨body, hbody⟩ : ∃ body, brimPoster.body seeds brimMetrics = .ok body :=
    Poster.exists_body hjson nofun
  obtain ⟨json', hjson', horder⟩ := Server.order_posted hposted (hrequest seeds) hbody
  have hread := Result.of_toOption_all hreads json' hjson'
  obtain ⟨arrived, harrived, hsame⟩ := Result.map_eq_ok_iff.mp hread
  have hoverflow : (brimServer.order (Poster.request brimUrl body) .updates).bind
      brimServer.store.obey = .error (Holdings.overflow "a") := by
    rw [horder, harrived, Result.map_ok, Result.bind_ok]
    change brimServer.store.updateAll arrived = _
    rw [← Store.updateAll_map_unsigned, hsame]
    rfl
  have hroom : brimMetrics.findIdxs (brimServer.store.held.HasRoom ·) = [1, 2] := by
    decide +kernel
  have hfilter : brimMetrics.filter (brimServer.store.held.HasRoom ·) =
      [.counter "b" 2, .gauge "a" ⟨0x3fe0000000000000⟩] := by decide +kernel
  have hsome : ∃ m ∈ brimMetrics, brimServer.store.held.HasRoom m := by
    refine ⟨.counter "b" 2, ?_, ?_⟩
    · decide
    · decide +kernel
  have hback : ∀ m ∈ brimMetrics, m.ReadsBack := by
    have hlevels : ∀ m ∈ brimMetrics, ∀ x ∈ m.value, x.ReadsBack := by decide +kernel
    exact fun m hm x hx _ => hlevels m hm x hx
  obtain ⟨-, hkept, -, htaken, -, hplaces⟩ := hrefused body "a" hbody hoverflow
  have hcalled := hplaces hsome
  have htaken := htaken hback
  rw [hroom] at hcalled
  rw [hfilter] at htaken
  exact ⟨hkept, hcalled, htaken⟩

end Telemetry
