/-
Servers.

A server is a store with what guards it: a key that signs replies and verifies
metrics, a private key that opens sealed bodies, and a subnet that clients have
to be in.  Each of them may be missing.  All of them are made at the start, so a
bad setting is found before the first request.
-/
import Telemetry.Net.Subnet
import Telemetry.Seal.KeyFile
import Telemetry.Server.Settings
import Telemetry.Server.Statistics
import Telemetry.Signature
import Telemetry.Store.Basic

namespace Telemetry

/-- A server at work. -/
structure Server where
  store : Store
  signer : Option Signer
  unsealer : Option Unsealer
  subnet : Option Subnet
  stats : Statistics

namespace Server

/-- The value of an optional setting, made from its text. -/
def made {α : Type} (make : String → Result α) : Option String → Result (Option α)
  | some s => (make s).map some
  | none => .ok none

/-- The server of settings, with a store. -/
def ofSettings (s : Settings) (store : Store) (d : Disk) : Result Server := do
  let unsealer ← made (Unsealer.ofFile · d) (Settings.present s.cryptoKey)
  let subnet ← made Subnet.parse (Settings.present s.trustedSubnet)
  .ok ⟨store, s.key.bind fun k => Signer.ofKey? (Bytes.ofText k), unsealer, subnet, .empty⟩

/-- Refuses a metric that bears no valid signature, if there is a key. -/
def verify (s : Server) (m : Metric) : Result Unit :=
  match s.signer with
  | some signer => signer.verifyMetric m
  | none => .ok ()

def apply (s : Server) (m : Metric) : Result Server :=
  (s.store.update m).map fun store =>
    { s with store, stats := s.stats.updated m.kind 1 }

/-- Verifies a metric and applies it. -/
def save (s : Server) (m : Metric) : Result Server := (s.verify m).bind fun _ => s.apply m

/-- The metrics of a batch that count as counters: those with a delta. -/
def counterCount (batch : List Metric) : Nat := (batch.filter fun m => m.delta.isSome).length

/-- Applies a batch to the store as a whole. -/
def applyAll (s : Server) (batch : List Metric) : Result Server :=
  (s.store.updateAll batch).map fun store =>
    let counters := counterCount batch
    let stats := (s.stats.updated .counter counters).updated .gauge (batch.length - counters)
    { s with store, stats }

/-- Verifies every metric of a batch and applies the batch. -/
def saveAll (s : Server) (batch : List Metric) : Result Server :=
  (batch.forM s.verify).bind fun _ => s.applyAll batch

end Server

end Telemetry
