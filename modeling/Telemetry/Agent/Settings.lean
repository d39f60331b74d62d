/-
Settings of the agent.
-/
import Telemetry.Options.Layers

namespace Telemetry.Agent

/-- Settings of the agent. -/
structure Settings where
  version : Nat
  /-- The server that requests go to. -/
  address : String
  /-- The server that calls go to; without one, requests are made. -/
  rpcAddress : Option String
  /-- The key to sign and verify with. -/
  key : Option String
  /-- The file of the public key that seals bodies. -/
  cryptoKey : Option String
  /-- The milliseconds between two polls. -/
  pollInterval : Nat
  /-- The milliseconds between two reports. -/
  reportInterval : Nat
  /-- The milliseconds a server may take to answer. -/
  requestTimeout : Nat
deriving DecidableEq, Repr

namespace Settings

def default : Settings := ⟨1, "127.0.0.1:8080", none, none, none, 2000, 10000, 5000⟩

/-- The section of a document, with its version before it. -/
def sections : List String := ["version", "agent"]

def agentEntries : List String :=
  ["address", "rpc_address", "key", "crypto_key", "poll_interval_ms", "report_interval_ms",
   "request_timeout_ms"]

/-- The settings of the section about the agent. -/
def readAgent (s : Settings) (y : Yaml) : Option Settings := do
  let e ← y.record? agentEntries
  let address ← Yaml.getD Yaml.text? s.address "address" e
  let rpcAddress ← Yaml.getD Yaml.optionalText? s.rpcAddress "rpc_address" e
  let key ← Yaml.getD Yaml.optionalText? s.key "key" e
  let cryptoKey ← Yaml.getD Yaml.optionalText? s.cryptoKey "crypto_key" e
  let pollInterval ← Yaml.getD (Yaml.nat? UInt64.size) s.pollInterval "poll_interval_ms" e
  let reportInterval ← Yaml.getD (Yaml.nat? UInt64.size) s.reportInterval "report_interval_ms" e
  let requestTimeout ← Yaml.getD (Yaml.nat? UInt64.size) s.requestTimeout "request_timeout_ms" e
  some { s with address, rpcAddress, key, cryptoKey, pollInterval, reportInterval, requestTimeout }

/-- The settings that a document writes; the version is always written. -/
def read (y : Yaml) : Option Settings := do
  let e ← y.record? sections
  let version ← (Yaml.entry "version" e).bind (Yaml.nat? UInt32.size)
  let s : Settings := { default with version }
  (Yaml.entry "agent" e).elim (some s) (readAgent s)

/-- Refuses an interval of no length. -/
def checkInterval (name : String) (n : Nat) : Result Unit :=
  if n = 0 then .error (.badRequest (name ++ " must be greater than 0")) else .ok ()

/-- Refuses settings that cannot be used; the first fault counts. -/
def validate (s : Settings) : Result Unit := do
  if s.version ≠ 1 then
    .error (.badRequest ("unsupported config version " ++ Integer.ofNat s.version))
  else if s.address = "" then .error (.badRequest "agent.address must not be empty")
  else
    checkInterval "agent.poll_interval_ms" s.pollInterval
    checkInterval "agent.report_interval_ms" s.reportInterval
    checkInterval "agent.request_timeout_ms" s.requestTimeout

def rpc (s : Settings) : Option String := s.rpcAddress.filter (· ≠ "")

def sealKey (s : Settings) : Option String := s.cryptoKey.filter (· ≠ "")

def flags : List Flag :=
  [⟨some 'a', "address", "ADDRESS", .text⟩, ⟨some 'g', "grpc-address", "GRPC_ADDRESS", .text⟩,
   ⟨some 'k', "key", "KEY", .text⟩, ⟨none, "crypto-key", "CRYPTO_KEY", .path⟩,
   ⟨some 'p', "poll-interval", "POLL_INTERVAL", .count⟩,
   ⟨some 'r', "report-interval", "REPORT_INTERVAL", .count⟩,
   ⟨none, "request-timeout", "REQUEST_TIMEOUT", .count⟩, ⟨some 'c', "config", "CONFIG", .path⟩]

/-- Settings with the given values in place of their own. -/
def overlay (g : Given) (s : Settings) : Settings :=
  { s with
    address := (g.text? "address").getD s.address
    rpcAddress := (g.text? "grpc-address").or s.rpcAddress
    key := (g.text? "key").or s.key
    cryptoKey := (g.text? "crypto-key").or s.cryptoKey
    pollInterval := (g.count? "poll-interval").getD s.pollInterval
    reportInterval := (g.count? "report-interval").getD s.reportInterval
    requestTimeout := (g.count? "request-timeout").getD s.requestTimeout }

/-- The valid settings that a text writes. -/
def ofText (parse : String → Option Yaml) (text : String) : Result Settings :=
  (Layers.ofText parse read text).bind (Layers.valid validate)

/-- The valid settings that a file holds. -/
def ofFile (parse : String → Option Yaml) (path : String) (d : Disk) : Result Settings :=
  (Layers.ofFile parse read path d).bind (Layers.valid validate)

/-- The valid settings of all layers. -/
def resolve (parse : String → Option Yaml) (g : Given) (d : Disk) : Result Settings :=
  Layers.resolve parse read default overlay validate g d

end Settings

end Telemetry.Agent
