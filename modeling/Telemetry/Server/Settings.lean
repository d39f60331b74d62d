/-
Settings of the server.
-/
import Telemetry.Net.Subnet
import Telemetry.Options.Layers

namespace Telemetry.Server

/-- Settings of the server. -/
structure Settings where
  version : Nat
  /-- Where requests come in. -/
  listen : String
  /-- Where calls come in. -/
  rpcListen : Option String
  /-- The key to sign and verify with. -/
  key : Option String
  /-- The file of the private key that opens sealed bodies. -/
  cryptoKey : Option String
  /-- The subnet whose clients are trusted. -/
  trustedSubnet : Option String
  databaseDsn : Option String
  /-- The file of the snapshot. -/
  storeFile : String
  /-- The milliseconds between two snapshots. -/
  storeInterval : Nat
  /-- Whether the snapshot is read at the start. -/
  restore : Bool
deriving DecidableEq, Repr

namespace Settings

def default : Settings :=
  ⟨1, "127.0.0.1:8080", none, none, none, none, none, "/tmp/devops-metrics-db.json", 300000, true⟩

/-- The sections of a document, with its version before them. -/
def sections : List String := ["version", "server", "storage"]

def serverEntries : List String := ["listen", "rpc_listen", "key", "crypto_key", "trusted_subnet"]

def storageEntries : List String := ["database_dsn", "store_file", "store_interval_ms", "restore"]

/-- The settings of the section about the server. -/
def readServer (s : Settings) (y : Yaml) : Option Settings := do
  let e ← y.record? serverEntries
  let listen ← Yaml.getD Yaml.text? s.listen "listen" e
  let rpcListen ← Yaml.getD Yaml.optionalText? s.rpcListen "rpc_listen" e
  let key ← Yaml.getD Yaml.optionalText? s.key "key" e
  let cryptoKey ← Yaml.getD Yaml.optionalText? s.cryptoKey "crypto_key" e
  let trustedSubnet ← Yaml.getD Yaml.optionalText? s.trustedSubnet "trusted_subnet" e
  some { s with listen, rpcListen, key, cryptoKey, trustedSubnet }

/-- The settings of the section about storage. -/
def readStorage (s : Settings) (y : Yaml) : Option Settings := do
  let e ← y.record? storageEntries
  let databaseDsn ← Yaml.getD Yaml.optionalText? s.databaseDsn "database_dsn" e
  let storeFile ← Yaml.getD Yaml.text? s.storeFile "store_file" e
  let storeInterval ← Yaml.getD (Yaml.nat? UInt64.size) s.storeInterval "store_interval_ms" e
  let restore ← Yaml.getD Yaml.bool? s.restore "restore" e
  some { s with databaseDsn, storeFile, storeInterval, restore }

/-- The settings that a document writes; the version is always written. -/
def read (y : Yaml) : Option Settings := do
  let e ← y.record? sections
  let version ← (Yaml.entry "version" e).bind (Yaml.nat? UInt32.size)
  let s : Settings := { default with version }
  let s ← (Yaml.entry "server" e).elim (some s) (readServer s)
  (Yaml.entry "storage" e).elim (some s) (readStorage s)

/-- A text that is there and not empty. -/
def present (s : Option String) : Option String := s.filter (· ≠ "")

/-- Refuses what is no address with a port. -/
def checkAddress (name address : String) : Result Unit :=
  if (SocketAddr.ofText? address).isSome then .ok ()
  else .error (.badRequest (name ++ " is not a socket address: " ++ address))

/-- Refuses a version other than the first. -/
def checkVersion (version : Nat) : Result Unit :=
  if version = 1 then .ok ()
  else .error (.badRequest ("unsupported config version " ++ Integer.ofNat version))

/-- Applies a check to a text that is there and not empty. -/
def checkPresent (check : String → Result Unit) (s : Option String) : Result Unit :=
  match present s with
  | some s => check s
  | none => .ok ()

/-- Refuses settings that cannot be used; the first fault counts. -/
def validate (s : Settings) : Result Unit := do
  checkVersion s.version
  checkAddress "server.listen" s.listen
  checkPresent (checkAddress "server.rpc_listen") s.rpcListen
  checkPresent (fun cidr => (Subnet.parse cidr).map fun _ => ()) s.trustedSubnet
  if s.storeInterval = 0 then
    .error (.badRequest "storage.store_interval_ms must be greater than 0")
  else if s.storeFile = "" then .error (.badRequest "storage.store_file must not be empty")
  else .ok ()

def dsn (s : Settings) : Option String := present s.databaseDsn

def flags : List Flag :=
  [⟨some 'a', "address", "ADDRESS", .text⟩, ⟨some 'g', "grpc-address", "GRPC_ADDRESS", .text⟩,
   ⟨some 'k', "key", "KEY", .text⟩, ⟨none, "crypto-key", "CRYPTO_KEY", .path⟩,
   ⟨some 't', "trusted-subnet", "TRUSTED_SUBNET", .text⟩,
   ⟨some 'd', "database-dsn", "DATABASE_DSN", .text⟩,
   ⟨some 'f', "store-file", "STORE_FILE", .path⟩,
   ⟨some 'i', "store-interval", "STORE_INTERVAL", .count⟩,
   ⟨some 'r', "restore", "RESTORE", .truth⟩, ⟨some 'c', "config", "CONFIG", .path⟩]

/-- Settings with the given values in place of their own. -/
def overlay (g : Given) (s : Settings) : Settings :=
  { s with
    listen := (g.text? "address").getD s.listen
    rpcListen := (g.text? "grpc-address").or s.rpcListen
    key := (g.text? "key").or s.key
    cryptoKey := (g.text? "crypto-key").or s.cryptoKey
    trustedSubnet := (g.text? "trusted-subnet").or s.trustedSubnet
    databaseDsn := (g.text? "database-dsn").or s.databaseDsn
    storeFile := (g.text? "store-file").getD s.storeFile
    storeInterval := (g.count? "store-interval").getD s.storeInterval
    restore := (g.truth? "restore").getD s.restore }

/-- The valid settings that a text writes. -/
def ofText (parse : String → Option Yaml) (text : String) : Result Settings :=
  (Layers.ofText parse read text).bind (Layers.valid validate)

/-- The valid settings that a file holds. -/
def ofFile (parse : String → Option Yaml) (path : String) (d : Disk) : Result Settings :=
  (Layers.ofFile parse read path d).bind (Layers.valid validate)

/-- The valid settings of all layers. -/
def resolve (parse : String → Option Yaml) (g : Given) (d : Disk) : Result Settings :=
  Layers.resolve parse read default overlay validate g d

end Settings

end Telemetry.Server
