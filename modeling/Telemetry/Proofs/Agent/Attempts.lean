/-
A delivery by calls, whatever its peer does.

Nothing is known of a peer: it may answer with any octets, too late, twice or not at all.
What a client did with it is seen from a log of their contacts (`Peer.logged`).  A delivery
makes attempts at its metrics in turn, and the log holds what was sent with each of them.  So
everything that a delivery yields can be read off its attempts (`Caller.Course`): which metrics
are acknowledged, where it stopped, whether it keeps its connection, and whether it failed
(`Caller.deliver_contract`).

Only what is sent uses up a number, so what is sent is numbered consecutively, and the next
delivery goes on from there.  Only a connection that breaks leaves metrics without an attempt,
and without a connection the first contact of a delivery is to make one.
-/
import Telemetry.Proofs.Agent.Transport
import Telemetry.Proofs.Fault

namespace Telemetry.Agent

/-! ## Contacts -/

/-- What passes between a peer and a client. -/
inductive Contact (κ : Type) where
  | connected (k : κ)
  | refused (fault : ConnectFault)
  | exchanged (k : κ) (frame : Bytes) (exchange : Exchange)

/-- The same peer, with a log of its contacts. -/
def Peer.logged {σ κ : Type} (peer : Peer σ κ) : Peer (σ × List (Contact κ)) κ where
  connect
    | (w, log) =>
      match peer.connect w with
      | (.ok k, w) => (.ok k, w, log ++ [.connected k])
      | (.error fault, w) => (.error fault, w, log ++ [.refused fault])
  exchange k frame
    | (w, log) => ((peer.exchange k frame w).1, (peer.exchange k frame w).2,
        log ++ [.exchanged k frame (peer.exchange k frame w).1])

/-! ## Attempts -/

/-- An attempt to have a metric acknowledged. -/
inductive Attempt where
  /-- The metric cannot be signed, so nothing is sent. -/
  | unsigned (fault : Fault)
  /-- A frame with a number is sent, and this comes of it. -/
  | sent (seq : UInt32) (frame : Bytes) (exchange : Exchange)

namespace Verdict

theorem ofReply_eq_acknowledged_iff {x : Result Reply} :
    ofReply x = acknowledged ↔ ∃ r, x = .ok r ∧ r.error = "" := by
  cases x with
  | ok r =>
      have herror : r.isError = true ↔ r.error ≠ "" := decide_eq_true_iff
      by_cases h : r.error = ""
      · rw [ofReply, if_neg fun he => herror.mp he h]
        exact iff_of_true rfl ⟨r, rfl, h⟩
      · rw [ofReply, if_pos (herror.mpr h)]
        refine iff_of_false nofun ?_
        rintro ⟨_, ⟨⟩, he⟩
        exact h he
  | error f => cases f <;> exact ⟨nofun, nofun⟩

theorem ofReply_eq_broken_iff {x : Result Reply} :
    (∃ f, ofReply x = broken f) ↔ ∃ subject, x = .error (.unavailable subject) := by
  constructor
  · rintro ⟨f, h⟩
    cases x with
    | ok r =>
        rw [ofReply] at h
        split at h <;> cases h
    | error fault =>
        cases fault with
        | unavailable subject => exact ⟨subject, rfl⟩
        | _ => cases h
  · rintro ⟨subject, rfl⟩
    exact ⟨_, rfl⟩

end Verdict

namespace Attempt

/-- The reply that an attempt brings, or why there is none. -/
def outcome (c : Caller) : Attempt → Result Reply
  | unsigned fault => .error fault
  | sent seq _ exchange => exchange.frame.bind (c.reply seq)

/-- The number of what was sent. -/
def number? : Attempt → Option UInt32
  | unsigned _ => none
  | sent seq _ _ => some seq

/-- What the peer sees of an attempt; a frame that is too long does not get there. -/
def contacts {κ : Type} (k : κ) : Attempt → List (Contact κ)
  | unsigned _ => []
  | sent _ frame exchange =>
    if Stream.maxFrame < frame.length then [] else [.exchanged k frame exchange]

/-- An attempt whose metric is acknowledged: the frame that was read is a response with the
number of the frame that was sent, and carries a reply without an error.  If it is signed and
there is a key, the signature is right. -/
inductive Acknowledged (c : Caller) : Attempt → Prop
  | intro {seq : UInt32} {frame raw : Bytes} {f : Frame} {r : Reply} :
      raw.length ≤ Stream.maxFrame → Frame.decode raw = .ok f → f.isResponse = true →
      f.seq = some seq → Reply.parse? f.payload = some r → r.error = "" →
      (∀ k, c.signer = some k → r.hash ≠ "" → k.verifyReply r = .ok ()) →
      Acknowledged c (sent seq frame (.answered raw))

/-- An attempt after which the connection is of no more use. -/
def Broken (c : Caller) (a : Attempt) : Prop :=
  ∃ subject, a.outcome c = .error (.unavailable subject)

end Attempt

namespace Caller

variable {σ κ : Type} (c : Caller) (peer : Peer σ κ) (k : κ)

/-- An attempt at a metric, the number of the next one, and what the peer remembers. -/
def attempt (m : Metric) (seq : UInt32) (w : σ) : Attempt × UInt32 × σ :=
  match m.signed c.signer with
  | .error fault => (.unsigned fault, seq, w)
  | .ok m =>
    let frame := (Frame.updateRequest seq m).encode
    (.sent seq frame (send peer k frame w).1, seq + 1, (send peer k frame w).2)

/-- The attempts of calls: one at each metric, up to the first that breaks the connection. -/
def attempts : List Metric → UInt32 → σ → List Attempt
  | [], _, _ => []
  | m :: rest, seq, w =>
    let made := c.attempt peer k m seq w
    match Verdict.ofReply (made.1.outcome c) with
    | .broken _ => [made.1]
    | _ => made.1 :: attempts rest made.2.1 made.2.2

theorem call_eq (m : Metric) (seq : UInt32) (w : σ) :
    c.call peer k m seq w =
      (.ofReply ((c.attempt peer k m seq w).1.outcome c), (c.attempt peer k m seq w).2) := by
  rw [call, attempt]
  cases m.signed c.signer with
  | error fault => rfl
  | ok m => rfl

theorem attempts_cons_of_broken {m : Metric} {rest : List Metric} {seq : UInt32} {w : σ}
    (h : (c.attempt peer k m seq w).1.Broken c) :
    c.attempts peer k (m :: rest) seq w = [(c.attempt peer k m seq w).1] := by
  obtain ⟨subject, hbroken⟩ := h
  simp only [attempts, hbroken, Verdict.ofReply]

theorem attempts_cons_of_not_broken {m : Metric} {rest : List Metric} {seq : UInt32} {w : σ}
    (h : ¬(c.attempt peer k m seq w).1.Broken c) :
    c.attempts peer k (m :: rest) seq w =
      (c.attempt peer k m seq w).1 ::
        c.attempts peer k rest (c.attempt peer k m seq w).2.1 (c.attempt peer k m seq w).2.2 := by
  rw [attempts]
  split
  · rename_i hbroken
    exact absurd (Verdict.ofReply_eq_broken_iff.mp ⟨_, hbroken⟩) h
  · rfl

/-- What a delivery is left with after attempts; `i` is the place of the first. -/
def summary (i : Nat) : List Attempt → Delivered
  | [] => ⟨[], none, true⟩
  | a :: rest =>
    let d := summary (i + 1) rest
    match Verdict.ofReply (a.outcome c) with
    | .acknowledged => { d with places := i :: d.places }
    | .rejected fault => { d with fault := d.fault.or (some fault) }
    | .broken fault => ⟨[], some fault, false⟩

theorem fst_calls (i : Nat) (ms : List Metric) (seq : UInt32) (w : σ) :
    (c.calls peer k i ms seq w).1 = c.summary i (c.attempts peer k ms seq w) := by
  induction ms generalizing i seq w with
  | nil => rfl
  | cons m rest ih =>
      rw [calls, call_eq, attempts]
      cases h : Verdict.ofReply ((c.attempt peer k m seq w).1.outcome c) with
      | acknowledged => simp only [ih, summary, h]
      | rejected fault => simp only [ih, summary, h]
      | broken fault => simp only [summary, h]

/-- With a log the same happens, and the log goes on with the contacts of the attempts. -/
theorem calls_logged (i : Nat) (ms : List Metric) (seq : UInt32) (w : σ)
    (past : List (Contact κ)) :
    c.calls peer.logged k i ms seq (w, past) =
      ((c.calls peer k i ms seq w).1, (c.calls peer k i ms seq w).2.1,
        (c.calls peer k i ms seq w).2.2,
        past ++ (c.attempts peer k ms seq w).flatMap (Attempt.contacts k)) := by
  -- one attempt, over any log; the log is not looked at
  have hattempt : ∀ (m : Metric) (seq : UInt32) (w : σ) (past : List (Contact κ)),
      c.attempt peer.logged k m seq (w, past) =
        ((c.attempt peer k m seq w).1, (c.attempt peer k m seq w).2.1,
          (c.attempt peer k m seq w).2.2,
          past ++ (c.attempt peer k m seq w).1.contacts k) := by
    intro m seq w past
    rw [attempt, attempt]
    cases m.signed c.signer with
    | error fault => simp only [Attempt.contacts, List.append_nil]
    | ok m =>
        simp only [send, Attempt.contacts]
        split
        · simp only [List.append_nil]
        · rfl
  induction ms generalizing i seq w past with
  | nil => simp only [calls, attempts, List.flatMap_nil, List.append_nil]
  | cons m rest ih =>
      rw [calls, calls, call_eq, call_eq, attempts, hattempt]
      cases h : Verdict.ofReply ((c.attempt peer k m seq w).1.outcome c) with
      | acknowledged => simp only [ih, List.flatMap_cons, List.append_assoc]
      | rejected fault => simp only [ih, List.flatMap_cons, List.append_assoc]
      | broken fault => simp only [List.flatMap_cons, List.flatMap_nil, List.append_nil]

/-! ## What is attempted -/

/-- An attempt at a metric: it is signed and sent.  A frame that is too long is not sent. -/
inductive Tries (c : Caller) (m : Metric) : Attempt → Prop
  | unsigned {fault : Fault} : m.signed c.signer = .error fault → Tries c m (.unsigned fault)
  | sent {n : Metric} {seq : UInt32} {frame : Bytes} {exchange : Exchange} :
      m.signed c.signer = .ok n → frame = (Frame.updateRequest seq n).encode →
      (Stream.maxFrame < frame.length → exchange = .sendFailed "frame size too big") →
      Tries c m (.sent seq frame exchange)

variable {c peer k}

theorem tries_attempt (m : Metric) (seq : UInt32) (w : σ) :
    c.Tries m (c.attempt peer k m seq w).1 := by
  rw [attempt]
  cases h : m.signed c.signer with
  | error fault => exact .unsigned h
  | ok n =>
      refine .sent h rfl fun hlong => ?_
      rw [send, if_pos hlong]

theorem tries_of_getElem? {ms : List Metric} {seq : UInt32} {w : σ} {i : Nat} {a : Attempt}
    (h : (c.attempts peer k ms seq w)[i]? = some a) : ∃ m, ms[i]? = some m ∧ c.Tries m a := by
  induction ms generalizing seq w i with
  | nil => cases h
  | cons m rest ih =>
      cases i with
      | zero =>
          have hfirst : (c.attempts peer k (m :: rest) seq w)[0]? =
              some (c.attempt peer k m seq w).1 := by
            by_cases hbroken : (c.attempt peer k m seq w).1.Broken c
            · rw [c.attempts_cons_of_broken peer k hbroken, List.getElem?_cons_zero]
            · rw [c.attempts_cons_of_not_broken peer k hbroken, List.getElem?_cons_zero]
          obtain rfl := Option.some.inj (hfirst.symm.trans h)
          exact ⟨m, rfl, tries_attempt m seq w⟩
      | succ i =>
          by_cases hbroken : (c.attempt peer k m seq w).1.Broken c
          · rw [c.attempts_cons_of_broken peer k hbroken, List.getElem?_cons_succ] at h
            cases h
          · rw [c.attempts_cons_of_not_broken peer k hbroken, List.getElem?_cons_succ] at h
            exact ih h

/-- Attempts of which none follows one that breaks the connection. -/
def Stops (c : Caller) (as : List Attempt) : Prop :=
  ∀ i a, as[i]? = some a → a.Broken c → i + 1 = as.length

theorem Stops.tail {a : Attempt} {as : List Attempt} (h : c.Stops (a :: as)) : c.Stops as := by
  intro i b hb hbroken
  have hlast := h (i + 1) b (by rwa [List.getElem?_cons_succ]) hbroken
  rw [List.length_cons] at hlast
  omega

theorem Stops.eq_nil {a : Attempt} {as : List Attempt} (h : c.Stops (a :: as))
    (ha : a.Broken c) : as = [] := by
  have hlast := h 0 a rfl ha
  rw [List.length_cons] at hlast
  exact List.length_eq_zero_iff.mp (by omega)

theorem stops_attempts (c : Caller) (peer : Peer σ κ) (k : κ) (ms : List Metric) (seq : UInt32)
    (w : σ) : c.Stops (c.attempts peer k ms seq w) := by
  intro i a h ha
  induction ms generalizing seq w i with
  | nil => cases h
  | cons m rest ih =>
      by_cases hbroken : (c.attempt peer k m seq w).1.Broken c
      · rw [c.attempts_cons_of_broken peer k hbroken] at h ⊢
        have hi := (List.getElem?_eq_some_iff.mp h).1
        rw [List.length_singleton] at hi ⊢
        omega
      · rw [c.attempts_cons_of_not_broken peer k hbroken] at h ⊢
        cases i with
        | zero =>
            rw [List.getElem?_cons_zero, Option.some.injEq] at h
            exact absurd (h ▸ ha) hbroken
        | succ i => rw [List.length_cons, ih _ _ _ h]

/-- Only when the connection breaks are there metrics without an attempt. -/
theorem length_attempts {ms : List Metric} {seq : UInt32} {w : σ}
    (h : ∀ a ∈ c.attempts peer k ms seq w, ¬a.Broken c) :
    (c.attempts peer k ms seq w).length = ms.length := by
  induction ms generalizing seq w with
  | nil => rfl
  | cons m rest ih =>
      by_cases hbroken : (c.attempt peer k m seq w).1.Broken c
      · rw [c.attempts_cons_of_broken peer k hbroken] at h
        exact absurd hbroken (h _ List.mem_cons_self)
      · rw [c.attempts_cons_of_not_broken peer k hbroken] at h ⊢
        rw [List.length_cons, List.length_cons, ih fun a ha => h a (List.mem_cons_of_mem _ ha)]

def numbers (first : UInt32) (count : Nat) : List UInt32 :=
  (List.range count).map fun j => first + UInt32.ofNat j

theorem add_ofNat_succ (first : UInt32) (j : Nat) :
    first + UInt32.ofNat (j + 1) = first + 1 + UInt32.ofNat j := by
  rw [UInt32.ofNat_add, UInt32.add_comm (UInt32.ofNat j), ← UInt32.add_assoc]
  rfl

theorem numbers_succ (first : UInt32) (count : Nat) :
    numbers first (count + 1) = first :: numbers (first + 1) count := by
  have hfirst : first + UInt32.ofNat 0 = first := UInt32.add_zero first
  rw [numbers, List.range_succ_eq_map, List.map_cons, List.map_map, hfirst]
  exact congrArg _ (List.map_congr_left fun j _ => add_ofNat_succ first j)

theorem number?_attempt (c : Caller) (peer : Peer σ κ) (k : κ) (m : Metric) (seq : UInt32) (w : σ) :
    ((c.attempt peer k m seq w).1.number? = none ∧ (c.attempt peer k m seq w).2.1 = seq) ∨
      ((c.attempt peer k m seq w).1.number? = some seq ∧
        (c.attempt peer k m seq w).2.1 = seq + 1) := by
  rw [attempt]
  cases m.signed c.signer with
  | error fault => exact .inl ⟨rfl, rfl⟩
  | ok n => exact .inr ⟨rfl, rfl⟩

theorem next_calls_of_broken {m : Metric} {rest : List Metric} {seq : UInt32} {w : σ} (i : Nat)
    (h : (c.attempt peer k m seq w).1.Broken c) :
    (c.calls peer k i (m :: rest) seq w).2.1 = (c.attempt peer k m seq w).2.1 := by
  obtain ⟨subject, hbroken⟩ := h
  simp only [calls, call_eq, hbroken, Verdict.ofReply]

theorem next_calls_of_not_broken {m : Metric} {rest : List Metric} {seq : UInt32} {w : σ} (i : Nat)
    (h : ¬(c.attempt peer k m seq w).1.Broken c) :
    (c.calls peer k i (m :: rest) seq w).2.1 =
      (c.calls peer k (i + 1) rest (c.attempt peer k m seq w).2.1
        (c.attempt peer k m seq w).2.2).2.1 := by
  rw [calls, call_eq]
  cases hverdict : Verdict.ofReply ((c.attempt peer k m seq w).1.outcome c) with
  | acknowledged | rejected fault => rfl
  | broken fault => exact absurd (Verdict.ofReply_eq_broken_iff.mp ⟨fault, hverdict⟩) h

/-- What is sent is numbered consecutively, and the next delivery goes on from there. -/
theorem number?_attempts (i : Nat) (ms : List Metric) (seq : UInt32) (w : σ) :
    ∃ count, (c.attempts peer k ms seq w).filterMap Attempt.number? = numbers seq count ∧
      (c.calls peer k i ms seq w).2.1 = seq + UInt32.ofNat count := by
  induction ms generalizing i seq w with
  | nil => exact ⟨0, rfl, (UInt32.add_zero seq).symm⟩
  | cons m rest ih =>
      have hnumber := c.number?_attempt peer k m seq w
      by_cases hbroken : (c.attempt peer k m seq w).1.Broken c
      · rw [c.attempts_cons_of_broken peer k hbroken, next_calls_of_broken i hbroken]
        rcases hnumber with ⟨hnone, hnext⟩ | ⟨hsome, hnext⟩
        · rw [List.filterMap_cons_none hnone, hnext]
          exact ⟨0, rfl, (UInt32.add_zero seq).symm⟩
        · rw [List.filterMap_cons_some hsome, hnext]
          exact ⟨1, by rw [numbers_succ]; rfl, rfl⟩
      · -- the count of the rest is with the number that this attempt leaves to it
        rw [c.attempts_cons_of_not_broken peer k hbroken, next_calls_of_not_broken i hbroken]
        obtain ⟨count, hnumbers, hlast⟩ := ih (i + 1) (c.attempt peer k m seq w).2.1
          (c.attempt peer k m seq w).2.2
        rcases hnumber with ⟨hnone, hnext⟩ | ⟨hsome, hnext⟩
        · rw [List.filterMap_cons_none hnone]
          exact ⟨count, hnumbers.trans (by rw [hnext]), hlast.trans (by rw [hnext])⟩
        · rw [List.filterMap_cons_some hsome]
          refine ⟨count + 1, ?_, ?_⟩
          · rw [hnumbers, hnext, numbers_succ]
          · rw [hlast, hnext, add_ofNat_succ]

/-! ## What is acknowledged -/

theorem checkReply_eq_ok_iff {r : Reply} :
    c.checkReply r = .ok () ↔
      ∀ k, c.signer = some k → r.hash ≠ "" → k.verifyReply r = .ok () := by
  rw [checkReply]
  cases c.signer with
  | none =>
      refine iff_of_true rfl ?_
      intro _ h
      cases h
  | some k =>
      simp only [Option.some.injEq, forall_eq']
      split
      · rename_i h
        exact ⟨fun _ hne => absurd h hne, fun _ => rfl⟩
      · rename_i h
        exact ⟨fun hk _ => hk, fun hk => hk h⟩

/-- A frame brings a reply just when it is a response with the right number, and what is signed
in it is signed rightly. -/
theorem reply_eq_ok_iff {seq : UInt32} {raw : Bytes} {r : Reply} :
    c.reply seq raw = .ok r ↔
      ∃ f, Frame.decode raw = .ok f ∧ f.isResponse = true ∧ f.seq = some seq ∧
        f.response = .ok r ∧ c.checkReply r = .ok () := by
  rw [reply]
  constructor
  · intro h
    obtain ⟨f, hf, hrest⟩ := Result.bind_eq_ok_iff.mp h
    split at hrest
    · cases hrest
    · rename_i hgood
      obtain ⟨hresponse, hseq⟩ := not_or.mp hgood
      obtain ⟨r', hr, hchecked⟩ := Result.bind_eq_ok_iff.mp hrest
      obtain ⟨_, hcheck, heq⟩ := Result.bind_eq_ok_iff.mp hchecked
      cases heq
      exact ⟨f, hf, Decidable.not_not.mp hresponse, Decidable.not_not.mp hseq, hr, hcheck⟩
  · rintro ⟨f, hf, hresponse, hseq, hr, hcheck⟩
    have hgood : ¬(¬f.isResponse = true ∨ f.seq ≠ some seq) := fun h =>
      h.elim (fun hn => hn hresponse) fun hn => hn hseq
    refine Result.bind_eq_ok_iff.mpr ⟨f, hf, ?_⟩
    rw [if_neg hgood]
    refine Result.bind_eq_ok_iff.mpr ⟨r, hr, ?_⟩
    exact Result.bind_eq_ok_iff.mpr ⟨(), hcheck, rfl⟩

end Caller

theorem Frame.response_eq_ok_iff {f : Frame} {r : Reply} :
    f.response = .ok r ↔ Reply.parse? f.payload = some r := by
  rw [Frame.response]
  cases Reply.parse? f.payload with
  | none => exact ⟨nofun, nofun⟩
  | some r' => rw [Except.ok.injEq, Option.some.injEq]

theorem Exchange.frame_eq_ok_iff {e : Exchange} {raw : Bytes} :
    e.frame = .ok raw ↔ e = .answered raw ∧ raw.length ≤ Stream.maxFrame := by
  cases e with
  | answered frame =>
      rw [Exchange.frame]
      split
      · rename_i hlong
        refine iff_of_false nofun ?_
        rintro ⟨⟨⟩, hshort⟩
        omega
      · rename_i hshort
        rw [Except.ok.injEq, Exchange.answered.injEq]
        constructor
        · rintro rfl
          exact ⟨rfl, Nat.le_of_not_lt hshort⟩
        · exact fun h => h.1
  | _ => exact ⟨nofun, nofun⟩

theorem Attempt.ofReply_outcome_iff {c : Caller} {a : Attempt} :
    Verdict.ofReply (a.outcome c) = .acknowledged ↔ a.Acknowledged c := by
  rw [Verdict.ofReply_eq_acknowledged_iff]
  constructor
  · rintro ⟨r, houtcome, herror⟩
    cases a with
    | unsigned fault => cases houtcome
    | sent seq frame exchange =>
        obtain ⟨raw, hraw, hreply⟩ := Result.bind_eq_ok_iff.mp houtcome
        obtain ⟨rfl, hlength⟩ := Exchange.frame_eq_ok_iff.mp hraw
        obtain ⟨f, hf, hresponse, hseq, hr, hcheck⟩ := Caller.reply_eq_ok_iff.mp hreply
        exact .intro hlength hf hresponse hseq (Frame.response_eq_ok_iff.mp hr) herror
          (Caller.checkReply_eq_ok_iff.mp hcheck)
  · rintro @⟨seq, frame, raw, f, r, hlength, hf, hresponse, hseq, hr, herror, hcheck⟩
    refine ⟨r, Result.bind_eq_ok_iff.mpr ⟨raw, Exchange.frame_eq_ok_iff.mpr ⟨rfl, hlength⟩, ?_⟩,
      herror⟩
    exact Caller.reply_eq_ok_iff.mpr ⟨f, hf, hresponse, hseq, Frame.response_eq_ok_iff.mpr hr,
      Caller.checkReply_eq_ok_iff.mpr hcheck⟩

namespace Caller

variable {σ κ : Type} {c : Caller} {peer : Peer σ κ} {k : κ}

theorem places_summary_cons {i : Nat} {a : Attempt} {as : List Attempt}
    (h : c.Stops (a :: as)) :
    (a.Acknowledged c ∧ (c.summary i (a :: as)).places = i :: (c.summary (i + 1) as).places) ∨
      (¬a.Acknowledged c ∧ (c.summary i (a :: as)).places = (c.summary (i + 1) as).places) := by
  cases hverdict : Verdict.ofReply (a.outcome c) with
  | acknowledged =>
      refine .inl ⟨Attempt.ofReply_outcome_iff.mp hverdict, ?_⟩
      simp only [summary, hverdict]
  | rejected fault =>
      refine .inr ⟨fun ha => ?_, ?_⟩
      · rw [Attempt.ofReply_outcome_iff.mpr ha] at hverdict
        cases hverdict
      · simp only [summary, hverdict]
  | broken fault =>
      refine .inr ⟨fun ha => ?_, ?_⟩
      · rw [Attempt.ofReply_outcome_iff.mpr ha] at hverdict
        cases hverdict
      · -- what breaks the connection is the last attempt: there are no later places to lose
        rw [h.eq_nil (Verdict.ofReply_eq_broken_iff.mp ⟨fault, hverdict⟩)]
        simp only [summary, hverdict]

theorem mem_places_summary {i j : Nat} {as : List Attempt} (h : c.Stops as) :
    j ∈ (c.summary i as).places ↔ ∃ l a, j = i + l ∧ as[l]? = some a ∧ a.Acknowledged c := by
  induction as generalizing i with
  | nil =>
      refine iff_of_false List.not_mem_nil ?_
      rintro ⟨_, _, _, ⟨⟩, _⟩
  | cons a as ih =>
      have hrest : (∃ l b, j = i + 1 + l ∧ as[l]? = some b ∧ b.Acknowledged c) ↔
          ∃ l b, j = i + (l + 1) ∧ (a :: as)[l + 1]? = some b ∧ b.Acknowledged c := by
        simp only [List.getElem?_cons_succ, Nat.add_right_comm i 1, Nat.add_assoc]
      rcases places_summary_cons (i := i) h with ⟨ha, hplaces⟩ | ⟨ha, hplaces⟩
      · rw [hplaces, List.mem_cons, ih h.tail, hrest]
        constructor
        · rintro (rfl | ⟨l, b, hj, hb, hback⟩)
          · exact ⟨0, a, rfl, rfl, ha⟩
          · exact ⟨l + 1, b, hj, hb, hback⟩
        · rintro ⟨_ | l, b, hj, hb, hback⟩
          · exact .inl hj
          · exact .inr ⟨l, b, hj, hb, hback⟩
      · rw [hplaces, ih h.tail, hrest]
        constructor
        · rintro ⟨l, b, hj, hb, hback⟩
          exact ⟨l + 1, b, hj, hb, hback⟩
        · rintro ⟨_ | l, b, hj, hb, hback⟩
          · rw [List.getElem?_cons_zero, Option.some.injEq] at hb
            exact absurd (hb ▸ hback) ha
          · exact ⟨l, b, hj, hb, hback⟩

theorem fault_summary_eq_none_iff {i : Nat} {as : List Attempt} (h : c.Stops as) :
    (c.summary i as).fault = none ↔ ∀ a ∈ as, a.Acknowledged c := by
  induction as generalizing i with
  | nil => exact ⟨fun _ _ ha => absurd ha List.not_mem_nil, fun _ => rfl⟩
  | cons a as ih =>
      rw [List.forall_mem_cons, ← Attempt.ofReply_outcome_iff, summary]
      cases hverdict : Verdict.ofReply (a.outcome c) with
      | acknowledged =>
          rw [eq_self_iff_true, true_and]
          exact ih h.tail
      | rejected fault =>
          refine iff_of_false ?_ fun hall => nomatch hall.1
          simp only [Option.or_eq_none_iff, reduceCtorEq, and_false, not_false_eq_true]
      | broken fault => exact iff_of_false nofun fun hall => nomatch hall.1

theorem healthy_summary_iff {i : Nat} {as : List Attempt} :
    (c.summary i as).healthy = true ↔ ∀ a ∈ as, ¬a.Broken c := by
  induction as generalizing i with
  | nil => exact ⟨fun _ _ ha => absurd ha List.not_mem_nil, fun _ => rfl⟩
  | cons a as ih =>
      have hbroken : a.Broken c ↔ ∃ f, Verdict.ofReply (a.outcome c) = .broken f :=
        Verdict.ofReply_eq_broken_iff.symm
      rw [List.forall_mem_cons, hbroken, summary]
      cases hverdict : Verdict.ofReply (a.outcome c) with
      | acknowledged | rejected fault =>
          simp only [ih, reduceCtorEq, exists_false, not_false_eq_true, true_and]
      | broken fault => exact iff_of_false nofun fun hall => hall.1 ⟨fault, rfl⟩

/-! ## Deliveries -/

theorem conclude_eq_error_iff {d : Delivered} :
    (∃ f, conclude d = .error f) ↔ d.places = [] ∧ d.fault ≠ none := by
  obtain ⟨places, fault, healthy⟩ := d
  cases places with
  | cons i rest => exact ⟨nofun, nofun⟩
  | nil =>
      cases fault with
      | none => exact ⟨nofun, fun h => absurd rfl h.2⟩
      | some f => exact ⟨fun _ => ⟨rfl, nofun⟩, fun _ => ⟨f, rfl⟩⟩

theorem places_of_conclude {d : Delivered} {places : List Nat} (h : conclude d = .ok places) :
    d.places = places := by
  rw [conclude] at h
  split at h
  · cases h
  · exact Except.ok.inj h

/-- What attempts at metrics make of a delivery over a connection. -/
structure Course (c : Caller) (ms : List Metric) (s : CallerState κ) (k : κ)
    (as : List Attempt) (result : Result (List Nat)) (t : CallerState κ) : Prop where
  /-- They are made at the metrics in turn. -/
  tried : ∀ (i : Nat) (a : Attempt), as[i]? = some a → ∃ m, ms[i]? = some m ∧ c.Tries m a
  /-- What is sent is numbered consecutively, from one delivery to the next. -/
  numbered : ∃ count, as.filterMap Attempt.number? = numbers s.nextSeq count ∧
    t.nextSeq = s.nextSeq + UInt32.ofNat count
  /-- None follows one that breaks the connection, and otherwise none is left out. -/
  stops : c.Stops as
  complete : (∀ a ∈ as, ¬a.Broken c) → as.length = ms.length
  /-- The connection is kept unless it breaks. -/
  kept : (∀ a ∈ as, ¬a.Broken c) → t.connection = some k
  givenUp : ∀ a ∈ as, a.Broken c → t.connection = none
  /-- What is acknowledged is reported, in its order. -/
  increasing : ∀ places, result = .ok places → places.Pairwise (· < ·)
  acknowledged : ∀ places, result = .ok places →
    ∀ i : Nat, i ∈ places ↔ ∃ a, as[i]? = some a ∧ a.Acknowledged c
  /-- The delivery fails if there were attempts and none of them is acknowledged. -/
  failed : (∃ f, result = .error f) ↔ (∀ a ∈ as, ¬a.Acknowledged c) ∧ ∃ a ∈ as, ¬a.Acknowledged c

/-- Calls over a connection take the course of their attempts. -/
theorem course_calls (ms : List Metric) (s : CallerState κ) (w : σ) :
    c.Course ms s k (c.attempts peer k ms s.nextSeq w)
      (conclude (c.calls peer k 0 ms s.nextSeq w).1)
      ⟨if (c.calls peer k 0 ms s.nextSeq w).1.healthy then some k else none,
        (c.calls peer k 0 ms s.nextSeq w).2.1⟩ := by
  have hstops := c.stops_attempts peer k ms s.nextSeq w
  have hmem : ∀ i, i ∈ (c.calls peer k 0 ms s.nextSeq w).1.places ↔
      ∃ a, (c.attempts peer k ms s.nextSeq w)[i]? = some a ∧ a.Acknowledged c := by
    intro i
    rw [fst_calls, mem_places_summary hstops]
    simp only [Nat.zero_add, exists_and_left, exists_eq_left']
  have hhealthy : (c.calls peer k 0 ms s.nextSeq w).1.healthy = true ↔
      ∀ a ∈ c.attempts peer k ms s.nextSeq w, ¬a.Broken c := by
    rw [fst_calls, healthy_summary_iff]
  refine ⟨fun i a => tries_of_getElem?, number?_attempts 0 ms s.nextSeq w, hstops, length_attempts,
    fun hall => if_pos (hhealthy.mpr hall), fun a ha hbroken =>
      if_neg fun hall => hhealthy.mp hall a ha hbroken, fun places hplaces => ?_,
    fun places hplaces i => ?_, ?_⟩
  · rw [← places_of_conclude hplaces]
    exact (calls_places k 0 ms s.nextSeq w).1
  · rw [← places_of_conclude hplaces]
    exact hmem i
  · -- a failure is an empty report with a fault, and both are said of the attempts
    rw [conclude_eq_error_iff]
    have hnone : (c.calls peer k 0 ms s.nextSeq w).1.places = [] ↔
        ∀ a ∈ c.attempts peer k ms s.nextSeq w, ¬a.Acknowledged c := by
      rw [List.eq_nil_iff_forall_not_mem]
      simp only [hmem, List.mem_iff_getElem?, not_exists, not_and, forall_exists_index]
      exact ⟨fun h a i => h i a, fun h i a => h a i⟩
    have hfault : (c.calls peer k 0 ms s.nextSeq w).1.fault ≠ none ↔
        ∃ a ∈ c.attempts peer k ms s.nextSeq w, ¬a.Acknowledged c := by
      rw [fst_calls, Ne, fault_summary_eq_none_iff hstops]
      simp only [Classical.not_forall, exists_prop]
    rw [hnone, hfault]

/-- A delivery over the connection that there is, or over a new one.  With a log it is the
same. -/
theorem deliver_cases (c : Caller) (peer : Peer σ κ) (ms : List Metric) (s : CallerState κ)
    (w : σ) (past : List (Contact κ)) :
    ∃ (result : Result (List Nat)) (t : CallerState κ) (w' : σ) (log : List (Contact κ)),
      c.deliver peer ms (s, w) = (result, t, w') ∧
      c.deliver peer.logged ms (s, w, past) = (result, t, w', past ++ log) ∧
      ((∃ fault, s.connection = none ∧ log = [.refused fault] ∧
          result = .error (c.unconnected fault) ∧ t = ⟨none, s.nextSeq⟩) ∨
        ∃ k as, c.Course ms s k as result t ∧
          (s.connection = some k ∧ log = as.flatMap (Attempt.contacts k) ∨
            s.connection = none ∧ log = .connected k :: as.flatMap (Attempt.contacts k))) := by
  cases hkept : s.connection with
  | some k =>
      refine ⟨_, _, _, _, rfl, ?_, .inr ⟨k, c.attempts peer k ms s.nextSeq w, ?_, .inl ⟨rfl, rfl⟩⟩⟩
      · simp only [deliver, connection, hkept, calls_logged]
      · simp only [connection, hkept]
        exact course_calls ms s w
  | none =>
      cases hconnect : peer.connect w with
      | mk made w' =>
          cases made with
          | error fault =>
              refine ⟨_, _, _, _, rfl, ?_, .inl ⟨fault, rfl, rfl, ?_, ?_⟩⟩
              · simp only [deliver, connection, hkept, Peer.logged, hconnect]
              · simp only [connection, hkept, hconnect]
              · simp only [connection, hkept, hconnect]
          | ok k =>
              have hopened : (peer.logged.connect (w, past)) =
                  (.ok k, w', past ++ [.connected k]) := by
                simp only [Peer.logged, hconnect]
              refine ⟨_, _, _, _, rfl, ?_, .inr ⟨k, c.attempts peer k ms s.nextSeq w', ?_,
                .inr ⟨rfl, rfl⟩⟩⟩
              · simp only [deliver, connection, hkept, hopened, hconnect, calls_logged,
                  List.append_assoc, List.singleton_append]
              · simp only [connection, hkept, hconnect]
                exact course_calls ms s w'

theorem deliver_unconnected (c : Caller) (peer : Peer σ κ) (ms : List Metric)
    {s : CallerState κ} (hs : s.connection = none) (w : σ) (past : List (Contact κ)) :
    ∃ first rest, (c.deliver peer.logged ms (s, w, past)).2.2.2 = past ++ first :: rest ∧
      ((∃ k, first = .connected k) ∨ ∃ fault, first = .refused fault) := by
  obtain ⟨result, t, w', log, -, hlogged, hcases⟩ := c.deliver_cases peer ms s w past
  rw [hlogged]
  rcases hcases with ⟨fault, -, rfl, -⟩ | ⟨k, as, -, ⟨hkept, -⟩ | ⟨-, rfl⟩⟩
  · exact ⟨_, _, rfl, .inr ⟨fault, rfl⟩⟩
  · rw [hs] at hkept
    cases hkept
  · exact ⟨_, _, rfl, .inl ⟨k, rfl⟩⟩

/-- Whatever a peer does: a delivery makes attempts at its metrics in turn and takes their course,
over the connection that it had or over a new one, and the peer sees the attempts and nothing
else.  Where no connection can be made, nothing is sent and the delivery fails.  A connection
that breaks is not kept, and the next contact after that, if there is one, is a new
connection. -/
theorem deliver_contract (c : Caller) (peer : Peer σ κ) (ms : List Metric) (s : CallerState κ)
    (w : σ) (past : List (Contact κ)) :
    ∃ (result : Result (List Nat)) (t : CallerState κ) (w' : σ) (log : List (Contact κ)),
      c.deliver peer ms (s, w) = (result, t, w') ∧
      c.deliver peer.logged ms (s, w, past) = (result, t, w', past ++ log) ∧
      ((∃ fault, s.connection = none ∧ log = [.refused fault] ∧
          result = .error (c.unconnected fault) ∧ t = ⟨none, s.nextSeq⟩) ∨
        ∃ k as, c.Course ms s k as result t ∧
          (s.connection = some k ∧ log = as.flatMap (Attempt.contacts k) ∨
            s.connection = none ∧ log = .connected k :: as.flatMap (Attempt.contacts k))) ∧
      (t.connection = none → ∀ later, ∃ first rest,
        (c.deliver peer.logged later (t, w', past ++ log)).2.2.2 = past ++ log ++ first :: rest ∧
          ((∃ k, first = .connected k) ∨ ∃ fault, first = .refused fault)) := by
  obtain ⟨result, t, w', log, hplain, hlogged, hcases⟩ := c.deliver_cases peer ms s w past
  exact ⟨result, t, w', log, hplain, hlogged, hcases, fun hnone later =>
    c.deliver_unconnected peer later hnone w' _⟩

/-- A reply that comes again is taken for no other call: the second metric is not acknowledged,
and the third is not sent. -/
example :
    let reply := (Frame.updateRequest 1 (.counter "a" 1)).reply (Reply.success "").encode
    let peer : Peer Unit Unit := ⟨fun w => (.ok (), w), fun _ _ w => (.answered reply.encode, w)⟩
    let done := (⟨"", none⟩ : Caller).deliver peer
      [.counter "a" 1, .counter "b" 1, .counter "c" 1] (.initial, ())
    done.1.toOption = some [0] ∧ done.2.1 = ⟨none, 3⟩ := by decide +kernel

end Caller

end Telemetry.Agent
