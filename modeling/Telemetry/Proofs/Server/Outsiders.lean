/-
What comes from outside the trusted subnet has no effect and learns nothing.

A request is turned away by what its header says, before its route is even asked for its
method; a frame by where it comes from, before its method is looked up.  Frames that cannot be
read, and frames that are replies themselves, are refused before that, but what is said of
them does not depend on the server either.  So an outsider leaves the store alone, and two
servers with the same settings answer it alike, whatever they hold and have counted
(`outsiders_neither_change_nor_observe`).  In a run, what outsiders send may as well be left
out (`store_takeAll_of_purged`).
-/
import Telemetry.Proofs.Server.Orders

namespace Telemetry

/-- A header that names no address of a subnet. -/
inductive Subnet.Foreign (n : Subnet) : Option String → Prop
  | missing : Foreign n none
  | blank {raw : String} : Text.trim raw = "" → Foreign n (some raw)
  | unparsable {raw : String} : IpAddr.ofText? (Text.trim raw) = none → Foreign n (some raw)
  | outside {raw : String} {a : IpAddr} :
      IpAddr.ofText? (Text.trim raw) = some a → n.contains a = false → Foreign n (some raw)

theorem Subnet.checkAddress_outside {n : Subnet} {a : IpAddr} (h : n.contains a = false) :
    n.checkAddress a = .error (.accessDenied "Access denied") := by
  rw [checkAddress, h, if_neg Bool.false_ne_true]

/-- Just the headers that name no address of a subnet are refused. -/
theorem Subnet.foreign_iff {n : Subnet} {header : Option String} :
    n.Foreign header ↔ ∃ f, n.checkHeader header = .error f := by
  constructor
  · intro h
    cases h with
    | missing => exact ⟨_, rfl⟩
    | blank hblank => exact ⟨_, by rw [checkHeader, Option.getD_some, if_pos hblank]⟩
    | @unparsable raw hnone =>
        simp only [checkHeader, Option.getD_some, hnone]
        split
        · exact ⟨_, rfl⟩
        · exact ⟨_, rfl⟩
    | @outside raw a ha hout =>
        simp only [checkHeader, Option.getD_some, ha, checkAddress_outside hout]
        split
        · exact ⟨_, rfl⟩
        · exact ⟨_, rfl⟩
  · rintro ⟨f, hf⟩
    cases header with
    | none => exact .missing
    | some raw =>
        simp only [checkHeader, Option.getD_some] at hf
        split at hf
        · rename_i hblank
          exact .blank hblank
        · split at hf
          · rename_i a ha
            cases hin : n.contains a with
            | false => exact .outside ha hin
            | true =>
                rw [checkAddress, hin, if_pos rfl] at hf
                cases hf
          · rename_i hnone
            exact .unparsable hnone

namespace Server

/-- Something comes in from outside a subnet. -/
inductive Input.Outside (n : Subnet) : Input → Prop
  | request {r : Http.Request} : n.Foreign (r.header? Subnet.header) → Outside n (.request r)
  | frame {peer : IpAddr} {raw : Bytes} : n.contains peer = false → Outside n (.frame peer raw)

/-- What a server says to what comes in. -/
def say (s : Server) : Input → Http.Response ⊕ Frame
  | .request r => .inl (s.serve r).1
  | .frame peer raw => .inr (s.answer peer raw).1

variable {s t : Server} {n : Subnet}

theorem checkOrigin_foreign (hs : s.subnet = some n) {r : Http.Request}
    (h : n.Foreign (r.header? Subnet.header)) : ∃ f, s.checkOrigin r = .error f := by
  rw [checkOrigin, hs]
  exact Subnet.foreign_iff.mp h

theorem frameMetric_outside (hs : s.subnet = some n) {peer : IpAddr}
    (h : n.contains peer = false) (f : Frame) : ∃ fault, s.frameMetric peer f = .error fault := by
  rw [frameMetric, checkPeer, hs]
  split
  · exact ⟨_, rfl⟩
  · simp only [Subnet.checkAddress_outside h]
    exact ⟨_, rfl⟩

/-- Nothing is ordered for an outsider. -/
theorem orderOf_outside (hs : s.subnet = some n) {input : Input} (h : input.Outside n) :
    s.orderOf input = none := by
  cases h with
  | @request r hforeign =>
      obtain ⟨f, hf⟩ := checkOrigin_foreign hs hforeign
      have hnone : ∀ route, s.routeOrder r route = none := fun route => by
        simp only [routeOrder, hf]
      rw [orderOf, funext hnone]
      exact Option.bind_fun_none _
  | @frame peer raw hout =>
      simp only [orderOf]
      cases Frame.decode raw with
      | error f => rfl
      | ok f =>
          obtain ⟨fault, hfault⟩ := frameMetric_outside hs hout f
          rw [Result.bind_ok, hfault]
          rfl

theorem store_take_outside (hs : s.subnet = some n) {input : Input} (h : input.Outside n) :
    (s.take input).store = s.store := by
  rw [store_take, orderOf_outside hs h]
  rfl

/-- What an outsider is told depends on the settings only. -/
theorem say_outside (hs : s.subnet = some n) {store : Store} (hst : s.Becomes store t)
    {input : Input} (h : input.Outside n) : s.say input = t.say input := by
  obtain ⟨stats, rfl⟩ := hst
  cases h with
  | @request r hforeign =>
      obtain ⟨f, hf⟩ := checkOrigin_foreign hs hforeign
      have hf' : checkOrigin { s with store, stats } r = .error f := hf
      simp only [say, serve]
      cases Route.ofPath? r.path with
      | none => rfl
      | some route =>
          simp only [respond_eq, hf, hf']
          rfl
  | @frame peer raw hout =>
      simp only [say, answer]
      cases Frame.decode raw with
      | error fault => rfl
      | ok f =>
          obtain ⟨fault, hfault⟩ := frameMetric_outside hs hout f
          have hfault' : frameMetric { s with store, stats } peer f = .error fault := hfault
          simp only [answerFrame, call_eq, hfault, hfault']
          rfl

/-! ## Runs -/

/-- What comes in, with some of what outsiders sent left out. -/
inductive Purged (n : Subnet) : List Input → List Input → Prop
  | nil : Purged n [] []
  | keep {input : Input} {inputs rest : List Input} :
      Purged n inputs rest → Purged n (input :: inputs) (input :: rest)
  | drop {input : Input} {inputs rest : List Input} :
      input.Outside n → Purged n inputs rest → Purged n (input :: inputs) rest

theorem orderOf_congr {store : Store} (hst : s.Becomes store t) (input : Input) :
    s.orderOf input = t.orderOf input := by
  obtain ⟨stats, rfl⟩ := hst
  cases input <;> rfl

theorem becomes_take_congr (hst : s.Becomes s.store t) (input : Input) :
    (s.take input).Becomes (s.take input).store (t.take input) := by
  obtain ⟨stats, h⟩ := t.becomes_take input
  obtain ⟨stats', h'⟩ := s.becomes_take input
  have horder := orderOf_congr hst input
  obtain ⟨stats'', rfl⟩ := hst
  refine ⟨stats, ?_⟩
  rw [h, h', horder]

/-- The store of a run without what outsiders sent is the store of the run. -/
theorem store_takeAll_of_purged (hs : s.subnet = some n) (hst : s.Becomes s.store t)
    {inputs rest : List Input} (h : Purged n inputs rest) :
    (s.takeAll inputs).store = (t.takeAll rest).store := by
  -- What is left out was counted all the same, so the two servers soon differ in their counts.
  induction h generalizing s t with
  | nil =>
      obtain ⟨stats, rfl⟩ := hst
      rfl
  | @keep input inputs rest hpurged ih =>
      exact ih ((s.subnet_take input).trans hs) (becomes_take_congr hst input)
  | @drop input inputs rest hout hpurged ih =>
      refine ih ((s.subnet_take input).trans hs) ?_
      obtain ⟨stats', h'⟩ := s.becomes_take input
      have hkept := store_take_outside hs hout
      obtain ⟨stats, rfl⟩ := hst
      refine ⟨stats, ?_⟩
      rw [hkept, h']

/-- Whatever a server with a trusted subnet holds and has counted, what comes in from outside
leaves its store as it was, and another server with the same settings says the same to it; and
what outsiders send in the course of a run may be left out without changing the store at its
end. -/
theorem outsiders_neither_change_nor_observe {settings : Settings} {d : Disk}
    (hs : Configured settings d s) (ht : Configured settings d t) {cidr : String}
    (hcidr : settings.trustedSubnet = some cidr) (hne : cidr ≠ "") :
    ∃ n, Subnet.parse cidr = .ok n ∧
      (∀ input, input.Outside n →
        (s.take input).store = s.store ∧ s.say input = t.say input) ∧
      ∀ inputs rest, Purged n inputs rest →
        (s.takeAll inputs).store = (s.takeAll rest).store := by
  obtain ⟨n, hsubnet, hparse⟩ := hs.subnet hcidr hne
  refine ⟨n, hparse, fun input hout => ?_, fun inputs rest h => ?_⟩
  · exact ⟨store_take_outside hsubnet hout, say_outside hsubnet (hs.becomes ht) hout⟩
  · exact store_takeAll_of_purged hsubnet s.becomes_refl h

def subnetSettings : Settings := { Settings.default with trustedSubnet := some "10.0.0.0/8" }

/-- A server in memory that these settings make, with what it holds. -/
def subnetServer (h : Holdings) : Server :=
  ⟨.memory h, none, none, some (.v4 0x0A000000 8), .empty⟩

theorem configured_subnetServer (h : Holdings) :
    Configured subnetSettings .empty (subnetServer h) :=
  .start (show ofSettings subnetSettings (.memory h) .empty = .ok (subnetServer h) from rfl)

/-- A client that does not say where it is cannot tell whether a counter is held. -/
theorem outsiders_valueRequest :
    let s := subnetServer (Holdings.empty.put "a" (.counter 1))
    let t := subnetServer .empty
    let input := Input.request ⟨"GET", "/value/counter/a", [], []⟩
    Configured subnetSettings .empty s ∧ Configured subnetSettings .empty t ∧
      subnetSettings.trustedSubnet = some "10.0.0.0/8" ∧ "10.0.0.0/8" ≠ "" ∧
      (s.take input).store = s.store ∧ s.say input = t.say input := by
  intro s t input
  have hs := configured_subnetServer (Holdings.empty.put "a" (.counter 1))
  have ht := configured_subnetServer .empty
  have hne : "10.0.0.0/8" ≠ "" := by decide
  obtain ⟨n, -, houtside, -⟩ := outsiders_neither_change_nor_observe hs ht rfl hne
  exact ⟨hs, ht, rfl, hne, houtside input (.request .missing)⟩

end Server

end Telemetry
