/-
The settings of the server and of the agent.

Each of them has a table of settings (`Server.Settings.Table`, `Agent.Settings.Table`), and what is
resolved is that table read off the layers, setting by setting (`layered`).

A file is read strictly (`Strict`): a document has a version and none but the sections of the
program, a section has none but its entries, neither has any of them twice, and every entry that is
there is of the kind of its setting.  Ranges are another matter (`Usable`): they are asked about
once, of what is left of all layers.
-/
import Telemetry.Agent.Settings
import Telemetry.Proofs.Options.Layers
import Telemetry.Server.Settings

namespace Telemetry

/-- The version that a document with the given sections has. -/
def Layers.version (sections : List String) (file : Option Yaml) : Nat :=
  ((file.bind (Yaml.under? sections "version")).bind (Yaml.nat? UInt32.size)).getD 1

/-! ## The server -/

namespace Server.Settings

namespace Table

def server : Part := ⟨sections, "server", serverEntries⟩

def storage : Part := ⟨sections, "storage", storageEntries⟩

def listen : Setting String :=
  .text ⟨some 'a', "address", "ADDRESS", .text⟩ server "listen" (.inl rfl) "127.0.0.1:8080"

def rpcListen : Setting (Option String) :=
  .optionalText ⟨some 'g', "grpc-address", "GRPC_ADDRESS", .text⟩ server "rpc_listen" (.inl rfl)

def key : Setting (Option String) :=
  .optionalText ⟨some 'k', "key", "KEY", .text⟩ server "key" (.inl rfl)

def cryptoKey : Setting (Option String) :=
  .optionalText ⟨none, "crypto-key", "CRYPTO_KEY", .path⟩ server "crypto_key" (.inr rfl)

def trustedSubnet : Setting (Option String) :=
  .optionalText ⟨some 't', "trusted-subnet", "TRUSTED_SUBNET", .text⟩ server "trusted_subnet"
    (.inl rfl)

def databaseDsn : Setting (Option String) :=
  .optionalText ⟨some 'd', "database-dsn", "DATABASE_DSN", .text⟩ storage "database_dsn"
    (.inl rfl)

def storeFile : Setting String :=
  .text ⟨some 'f', "store-file", "STORE_FILE", .path⟩ storage "store_file" (.inr rfl)
    "/tmp/devops-metrics-db.json"

def storeInterval : Setting Nat :=
  .count ⟨some 'i', "store-interval", "STORE_INTERVAL", .count⟩ storage "store_interval_ms" rfl
    300000

def restore : Setting Bool :=
  .truth ⟨some 'r', "restore", "RESTORE", .truth⟩ storage "restore" rfl true

end Table

/-- The settings that layers come to. -/
def layered (sources : Sources) : Settings where
  version := Layers.version sections sources.file
  listen := Table.listen.value sources
  rpcListen := Table.rpcListen.value sources
  key := Table.key.value sources
  cryptoKey := Table.cryptoKey.value sources
  trustedSubnet := Table.trustedSubnet.value sources
  databaseDsn := Table.databaseDsn.value sources
  storeFile := Table.storeFile.value sources
  storeInterval := Table.storeInterval.value sources
  restore := Table.restore.value sources

theorem layered_nothing : layered ⟨[], [], none⟩ = default := rfl

theorem distinct_flags : Flag.Distinct flags where
  words := by decide
  letters := by decide
  named := by decide

/-! ### Documents -/

structure StrictServer (part : Yaml) : Prop where
  record : part.IsRecord serverEntries
  listen : Table.listen.Fits part
  rpcListen : Table.rpcListen.Fits part
  key : Table.key.Fits part
  cryptoKey : Table.cryptoKey.Fits part
  trustedSubnet : Table.trustedSubnet.Fits part

structure StrictStorage (part : Yaml) : Prop where
  record : part.IsRecord storageEntries
  databaseDsn : Table.databaseDsn.Fits part
  storeFile : Table.storeFile.Fits part
  storeInterval : Table.storeInterval.Fits part
  restore : Table.restore.Fits part

/-- A document that is read, whatever its settings are. -/
structure Strict (y : Yaml) : Prop where
  record : y.IsRecord sections
  version : ∃ v n, y.under? sections "version" = some v ∧ v.nat? UInt32.size = some n
  server : ∀ part, y.under? sections "server" = some part → StrictServer part
  storage : ∀ part, y.under? sections "storage" = some part → StrictStorage part

/-- Settings with what a section about the server says of them. -/
def withServer (part : Option Yaml) (s : Settings) : Settings :=
  { s with
    listen := (Table.listen.inPart? part).getD s.listen
    rpcListen := (Table.rpcListen.inPart? part).getD s.rpcListen
    key := (Table.key.inPart? part).getD s.key
    cryptoKey := (Table.cryptoKey.inPart? part).getD s.cryptoKey
    trustedSubnet := (Table.trustedSubnet.inPart? part).getD s.trustedSubnet }

/-- Settings with what a section about storage says of them. -/
def withStorage (part : Option Yaml) (s : Settings) : Settings :=
  { s with
    databaseDsn := (Table.databaseDsn.inPart? part).getD s.databaseDsn
    storeFile := (Table.storeFile.inPart? part).getD s.storeFile
    storeInterval := (Table.storeInterval.inPart? part).getD s.storeInterval
    restore := (Table.restore.inPart? part).getD s.restore }

theorem readServer_eq_some_iff (s t : Settings) (part : Yaml) :
    readServer s part = some t ↔ StrictServer part ∧ t = withServer (some part) s := by
  simp only [readServer, bind, Option.bind_eq_some_iff]
  constructor
  · rintro ⟨es, he, listen, hlisten, rpcListen, hrpc, key, hkey, cryptoKey, hcrypto, subnet,
      hsubnet, ht⟩
    cases ht
    obtain ⟨hlisten', rfl⟩ := (Setting.getD_eq_some_iff (x := Table.listen) he).mp hlisten
    obtain ⟨hrpc', rfl⟩ := (Setting.getD_eq_some_iff (x := Table.rpcListen) he).mp hrpc
    obtain ⟨hkey', rfl⟩ := (Setting.getD_eq_some_iff (x := Table.key) he).mp hkey
    obtain ⟨hcrypto', rfl⟩ := (Setting.getD_eq_some_iff (x := Table.cryptoKey) he).mp hcrypto
    obtain ⟨hsubnet', rfl⟩ := (Setting.getD_eq_some_iff (x := Table.trustedSubnet) he).mp hsubnet
    exact ⟨⟨Yaml.exists_record?_iff.mp ⟨es, he⟩, hlisten', hrpc', hkey', hcrypto', hsubnet'⟩, rfl⟩
  · rintro ⟨h, rfl⟩
    obtain ⟨es, he⟩ := Yaml.exists_record?_iff.mpr h.record
    exact ⟨es, he,
      _, (Setting.getD_eq_some_iff (x := Table.listen) he).mpr ⟨h.listen, rfl⟩,
      _, (Setting.getD_eq_some_iff (x := Table.rpcListen) he).mpr ⟨h.rpcListen, rfl⟩,
      _, (Setting.getD_eq_some_iff (x := Table.key) he).mpr ⟨h.key, rfl⟩,
      _, (Setting.getD_eq_some_iff (x := Table.cryptoKey) he).mpr ⟨h.cryptoKey, rfl⟩,
      _, (Setting.getD_eq_some_iff (x := Table.trustedSubnet) he).mpr ⟨h.trustedSubnet, rfl⟩, rfl⟩

theorem readStorage_eq_some_iff (s t : Settings) (part : Yaml) :
    readStorage s part = some t ↔ StrictStorage part ∧ t = withStorage (some part) s := by
  simp only [readStorage, bind, Option.bind_eq_some_iff]
  constructor
  · rintro ⟨es, he, databaseDsn, hdsn, storeFile, hfile, storeInterval, hinterval, restore,
      hrestore, ht⟩
    cases ht
    obtain ⟨hdsn', rfl⟩ := (Setting.getD_eq_some_iff (x := Table.databaseDsn) he).mp hdsn
    obtain ⟨hfile', rfl⟩ := (Setting.getD_eq_some_iff (x := Table.storeFile) he).mp hfile
    obtain ⟨hinterval', rfl⟩ :=
      (Setting.getD_eq_some_iff (x := Table.storeInterval) he).mp hinterval
    obtain ⟨hrestore', rfl⟩ := (Setting.getD_eq_some_iff (x := Table.restore) he).mp hrestore
    exact ⟨⟨Yaml.exists_record?_iff.mp ⟨es, he⟩, hdsn', hfile', hinterval', hrestore'⟩, rfl⟩
  · rintro ⟨h, rfl⟩
    obtain ⟨es, he⟩ := Yaml.exists_record?_iff.mpr h.record
    exact ⟨es, he,
      _, (Setting.getD_eq_some_iff (x := Table.databaseDsn) he).mpr ⟨h.databaseDsn, rfl⟩,
      _, (Setting.getD_eq_some_iff (x := Table.storeFile) he).mpr ⟨h.storeFile, rfl⟩,
      _, (Setting.getD_eq_some_iff (x := Table.storeInterval) he).mpr ⟨h.storeInterval, rfl⟩,
      _, (Setting.getD_eq_some_iff (x := Table.restore) he).mpr ⟨h.restore, rfl⟩, rfl⟩

theorem layered_of_version {y v : Yaml} {n : Nat} (hv : y.under? sections "version" = some v)
    (hn : v.nat? UInt32.size = some n) :
    layered ⟨[], [], some y⟩ = withStorage (y.under? sections "storage")
      (withServer (y.under? sections "server") { default with version := n }) := by
  have hversion : Layers.version sections (some y) = n := by
    rw [Layers.version, Option.bind_some, hv, Option.bind_some, hn, Option.getD_some]
  rw [layered, hversion]
  rfl

/-- A document is read exactly if it is strict, and says of each setting what stands in its
place. -/
theorem read_eq_some_iff {s : Settings} {y : Yaml} :
    read y = some s ↔ Strict y ∧ s = layered ⟨[], [], some y⟩ := by
  simp only [read, bind, Option.bind_eq_some_iff,
    Setting.elim_eq_some_iff withServer readServer_eq_some_iff fun _ => rfl,
    Setting.elim_eq_some_iff withStorage readStorage_eq_some_iff fun _ => rfl]
  constructor
  · rintro ⟨es, he, n, ⟨v, hv, hn⟩, t, ⟨hserver, rfl⟩, hstorage, rfl⟩
    rw [← Yaml.under?_eq he] at hv
    rw [layered_of_version hv hn, Yaml.under?_eq he, Yaml.under?_eq he]
    simp only [← Yaml.under?_eq he] at hserver hstorage
    exact ⟨⟨Yaml.exists_record?_iff.mp ⟨es, he⟩, ⟨v, n, hv, hn⟩, hserver, hstorage⟩, rfl⟩
  · rintro ⟨h, rfl⟩
    obtain ⟨es, he⟩ := Yaml.exists_record?_iff.mpr h.record
    obtain ⟨-, ⟨v, n, hv, hn⟩, hserver, hstorage⟩ := h
    rw [layered_of_version hv hn]
    simp only [Yaml.under?_eq he] at hv hserver hstorage ⊢
    exact ⟨es, he, n, ⟨v, hv, hn⟩, _, ⟨hserver, rfl⟩, hstorage, rfl⟩

theorem overlay_layered {g : Given} {sources : Sources}
    (h : ∀ f ∈ flags, sources.Give g f) :
    overlay g (layered ⟨[], [], sources.file⟩) = layered sources := by
  simp only [flags, List.forall_mem_cons] at h
  obtain ⟨haddress, hrpc, hkey, hcrypto, hsubnet, hdsn, hfile, hinterval, hrestore, -⟩ := h
  simp only [layered, overlay, Settings.mk.injEq, true_and]
  exact ⟨(Setting.value_text haddress).symm, (Setting.value_optionalText hrpc).symm,
    (Setting.value_optionalText hkey).symm, (Setting.value_optionalText hcrypto).symm,
    (Setting.value_optionalText hsubnet).symm, (Setting.value_optionalText hdsn).symm,
    (Setting.value_text hfile).symm, (Setting.value_count hinterval).symm,
    (Setting.value_truth hrestore).symm⟩

/-- Settings that are in range, each of them by itself. -/
structure Usable (s : Settings) : Prop where
  version : s.version = 1
  listen : (SocketAddr.ofText? s.listen).isSome = true
  rpcListen : ∀ address, s.rpcListen = some address → address ≠ "" →
    (SocketAddr.ofText? address).isSome = true
  trustedSubnet : ∀ cidr, s.trustedSubnet = some cidr → cidr ≠ "" → ∃ n, Subnet.parse cidr = .ok n
  storeInterval : s.storeInterval ≠ 0
  storeFile : s.storeFile ≠ ""

theorem checkPresent_eq_ok_iff {check : String → Result Unit} {s : Option String} :
    checkPresent check s = .ok () ↔ ∀ t, s = some t → t ≠ "" → check t = .ok () := by
  rw [checkPresent, present]
  cases s with
  | none => exact iff_of_true rfl nofun
  | some t =>
      rw [Option.filter_some]
      by_cases h : t = ""
      · simp [h]
      · simp [h]

theorem validate_eq_ok_iff {s : Settings} : validate s = .ok () ↔ s.Usable := by
  have haddress : ∀ name address : String, checkAddress name address = .ok () ↔
      (SocketAddr.ofText? address).isSome = true := fun _ _ => Result.ite_eq_ok_iff
  have hversion : checkVersion s.version = .ok () ↔ s.version = 1 := Result.ite_eq_ok_iff
  have hsubnet : ∀ cidr, ((Subnet.parse cidr).map fun _ => ()) = .ok () ↔
      ∃ n, Subnet.parse cidr = .ok n := by
    intro cidr
    rw [Result.map_eq_ok_iff]
    simp only [and_true]
  simp only [validate, Result.seq_eq_ok_iff, checkPresent_eq_ok_iff, haddress, hversion, hsubnet]
  constructor
  · rintro ⟨hversion, hlisten, hrpc, hsubnet, hstorage⟩
    split at hstorage
    · cases hstorage
    · rename_i hinterval
      split at hstorage
      · cases hstorage
      · rename_i hfile
        exact ⟨hversion, hlisten, hrpc, hsubnet, hinterval, hfile⟩
  · intro h
    refine ⟨h.version, h.listen, h.rpcListen, h.trustedSubnet, ?_⟩
    rw [if_neg h.storeInterval, if_neg h.storeFile]

end Server.Settings

/-! ## The agent -/

namespace Agent.Settings

namespace Table

def agent : Part := ⟨sections, "agent", agentEntries⟩

def address : Setting String :=
  .text ⟨some 'a', "address", "ADDRESS", .text⟩ agent "address" (.inl rfl) "127.0.0.1:8080"

def rpcAddress : Setting (Option String) :=
  .optionalText ⟨some 'g', "grpc-address", "GRPC_ADDRESS", .text⟩ agent "rpc_address" (.inl rfl)

def key : Setting (Option String) :=
  .optionalText ⟨some 'k', "key", "KEY", .text⟩ agent "key" (.inl rfl)

def cryptoKey : Setting (Option String) :=
  .optionalText ⟨none, "crypto-key", "CRYPTO_KEY", .path⟩ agent "crypto_key" (.inr rfl)

def pollInterval : Setting Nat :=
  .count ⟨some 'p', "poll-interval", "POLL_INTERVAL", .count⟩ agent "poll_interval_ms" rfl 2000

def reportInterval : Setting Nat :=
  .count ⟨some 'r', "report-interval", "REPORT_INTERVAL", .count⟩ agent "report_interval_ms" rfl
    10000

def requestTimeout : Setting Nat :=
  .count ⟨none, "request-timeout", "REQUEST_TIMEOUT", .count⟩ agent "request_timeout_ms" rfl 5000

end Table

/-- The settings that layers come to. -/
def layered (sources : Sources) : Settings where
  version := Layers.version sections sources.file
  address := Table.address.value sources
  rpcAddress := Table.rpcAddress.value sources
  key := Table.key.value sources
  cryptoKey := Table.cryptoKey.value sources
  pollInterval := Table.pollInterval.value sources
  reportInterval := Table.reportInterval.value sources
  requestTimeout := Table.requestTimeout.value sources

theorem layered_nothing : layered ⟨[], [], none⟩ = default := rfl

theorem distinct_flags : Flag.Distinct flags where
  words := by decide
  letters := by decide
  named := by decide

/-! ### Documents -/

structure StrictAgent (part : Yaml) : Prop where
  record : part.IsRecord agentEntries
  address : Table.address.Fits part
  rpcAddress : Table.rpcAddress.Fits part
  key : Table.key.Fits part
  cryptoKey : Table.cryptoKey.Fits part
  pollInterval : Table.pollInterval.Fits part
  reportInterval : Table.reportInterval.Fits part
  requestTimeout : Table.requestTimeout.Fits part

/-- A document that is read, whatever its settings are. -/
structure Strict (y : Yaml) : Prop where
  record : y.IsRecord sections
  version : ∃ v n, y.under? sections "version" = some v ∧ v.nat? UInt32.size = some n
  agent : ∀ part, y.under? sections "agent" = some part → StrictAgent part

/-- Settings with what a section about the agent says of them. -/
def withAgent (part : Option Yaml) (s : Settings) : Settings :=
  { s with
    address := (Table.address.inPart? part).getD s.address
    rpcAddress := (Table.rpcAddress.inPart? part).getD s.rpcAddress
    key := (Table.key.inPart? part).getD s.key
    cryptoKey := (Table.cryptoKey.inPart? part).getD s.cryptoKey
    pollInterval := (Table.pollInterval.inPart? part).getD s.pollInterval
    reportInterval := (Table.reportInterval.inPart? part).getD s.reportInterval
    requestTimeout := (Table.requestTimeout.inPart? part).getD s.requestTimeout }

theorem readAgent_eq_some_iff (s t : Settings) (part : Yaml) :
    readAgent s part = some t ↔ StrictAgent part ∧ t = withAgent (some part) s := by
  simp only [readAgent, bind, Option.bind_eq_some_iff]
  constructor
  · rintro ⟨es, he, address, haddress, rpcAddress, hrpc, key, hkey, cryptoKey, hcrypto,
      pollInterval, hpoll, reportInterval, hreport, requestTimeout, htimeout, ht⟩
    cases ht
    obtain ⟨haddress', rfl⟩ := (Setting.getD_eq_some_iff (x := Table.address) he).mp haddress
    obtain ⟨hrpc', rfl⟩ := (Setting.getD_eq_some_iff (x := Table.rpcAddress) he).mp hrpc
    obtain ⟨hkey', rfl⟩ := (Setting.getD_eq_some_iff (x := Table.key) he).mp hkey
    obtain ⟨hcrypto', rfl⟩ := (Setting.getD_eq_some_iff (x := Table.cryptoKey) he).mp hcrypto
    obtain ⟨hpoll', rfl⟩ := (Setting.getD_eq_some_iff (x := Table.pollInterval) he).mp hpoll
    obtain ⟨hreport', rfl⟩ := (Setting.getD_eq_some_iff (x := Table.reportInterval) he).mp hreport
    obtain ⟨htimeout', rfl⟩ := (Setting.getD_eq_some_iff (x := Table.requestTimeout) he).mp htimeout
    exact ⟨⟨Yaml.exists_record?_iff.mp ⟨es, he⟩, haddress', hrpc', hkey', hcrypto', hpoll',
      hreport', htimeout'⟩, rfl⟩
  · rintro ⟨h, rfl⟩
    obtain ⟨es, he⟩ := Yaml.exists_record?_iff.mpr h.record
    exact ⟨es, he,
      _, (Setting.getD_eq_some_iff (x := Table.address) he).mpr ⟨h.address, rfl⟩,
      _, (Setting.getD_eq_some_iff (x := Table.rpcAddress) he).mpr ⟨h.rpcAddress, rfl⟩,
      _, (Setting.getD_eq_some_iff (x := Table.key) he).mpr ⟨h.key, rfl⟩,
      _, (Setting.getD_eq_some_iff (x := Table.cryptoKey) he).mpr ⟨h.cryptoKey, rfl⟩,
      _, (Setting.getD_eq_some_iff (x := Table.pollInterval) he).mpr ⟨h.pollInterval, rfl⟩,
      _, (Setting.getD_eq_some_iff (x := Table.reportInterval) he).mpr ⟨h.reportInterval, rfl⟩,
      _, (Setting.getD_eq_some_iff (x := Table.requestTimeout) he).mpr ⟨h.requestTimeout, rfl⟩, rfl⟩

theorem layered_of_version {y v : Yaml} {n : Nat} (hv : y.under? sections "version" = some v)
    (hn : v.nat? UInt32.size = some n) :
    layered ⟨[], [], some y⟩ =
      withAgent (y.under? sections "agent") { default with version := n } := by
  have hversion : Layers.version sections (some y) = n := by
    rw [Layers.version, Option.bind_some, hv, Option.bind_some, hn, Option.getD_some]
  rw [layered, hversion]
  rfl

/-- A document is read exactly if it is strict, and says of each setting what stands in its
place. -/
theorem read_eq_some_iff {s : Settings} {y : Yaml} :
    read y = some s ↔ Strict y ∧ s = layered ⟨[], [], some y⟩ := by
  simp only [read, bind, Option.bind_eq_some_iff,
    Setting.elim_eq_some_iff withAgent readAgent_eq_some_iff fun _ => rfl]
  constructor
  · rintro ⟨es, he, n, ⟨v, hv, hn⟩, hagent, rfl⟩
    rw [← Yaml.under?_eq he] at hv
    rw [layered_of_version hv hn, Yaml.under?_eq he]
    simp only [← Yaml.under?_eq he] at hagent
    exact ⟨⟨Yaml.exists_record?_iff.mp ⟨es, he⟩, ⟨v, n, hv, hn⟩, hagent⟩, rfl⟩
  · rintro ⟨h, rfl⟩
    obtain ⟨es, he⟩ := Yaml.exists_record?_iff.mpr h.record
    obtain ⟨-, ⟨v, n, hv, hn⟩, hagent⟩ := h
    rw [layered_of_version hv hn]
    simp only [Yaml.under?_eq he] at hv hagent ⊢
    exact ⟨es, he, n, ⟨v, hv, hn⟩, hagent, rfl⟩

theorem overlay_layered {g : Given} {sources : Sources} (h : ∀ f ∈ flags, sources.Give g f) :
    overlay g (layered ⟨[], [], sources.file⟩) = layered sources := by
  simp only [flags, List.forall_mem_cons] at h
  obtain ⟨haddress, hrpc, hkey, hcrypto, hpoll, hreport, htimeout, -⟩ := h
  simp only [layered, overlay, Settings.mk.injEq, true_and]
  exact ⟨(Setting.value_text haddress).symm, (Setting.value_optionalText hrpc).symm,
    (Setting.value_optionalText hkey).symm, (Setting.value_optionalText hcrypto).symm,
    (Setting.value_count hpoll).symm, (Setting.value_count hreport).symm,
    (Setting.value_count htimeout).symm⟩

/-- Settings that are in range, each of them by itself. -/
structure Usable (s : Settings) : Prop where
  version : s.version = 1
  address : s.address ≠ ""
  pollInterval : s.pollInterval ≠ 0
  reportInterval : s.reportInterval ≠ 0
  requestTimeout : s.requestTimeout ≠ 0

theorem validate_eq_ok_iff {s : Settings} : validate s = .ok () ↔ s.Usable := by
  have hinterval : ∀ (name : String) (n : Nat), checkInterval name n = .ok () ↔ n ≠ 0 := by
    intro name n
    rw [checkInterval]
    split
    · rename_i h
      exact iff_of_false nofun (not_not_intro h)
    · rename_i h
      exact iff_of_true rfl h
  constructor
  · intro h
    rw [validate] at h
    split at h
    · cases h
    · rename_i hversion
      split at h
      · cases h
      · rename_i haddress
        simp only [Result.seq_eq_ok_iff, hinterval] at h
        exact ⟨not_not.mp hversion, haddress, h.1, h.2.1, h.2.2⟩
  · intro h
    rw [validate, if_neg (not_not_intro h.version), if_neg h.address]
    simp only [Result.seq_eq_ok_iff, hinterval]
    exact ⟨h.pollInterval, h.reportInterval, h.requestTimeout⟩

end Agent.Settings

/-! ## The layers of a program -/

/-- Where the file is all that is given, nothing is laid over it. -/
theorem Server.Settings.overlay_eq_self {g : Given}
    (h : ∀ word, word ≠ "config" → g.value? word = none) (s : Server.Settings) :
    overlay g s = s := by
  simp [overlay, Given.text?_eq, Given.count?_eq, Given.truth?_eq, h]

theorem Agent.Settings.overlay_eq_self {g : Given}
    (h : ∀ word, word ≠ "config" → g.value? word = none) (s : Agent.Settings) :
    overlay g s = s := by
  simp [overlay, Given.text?_eq, Given.count?_eq, h]

/-- Of the server and of the agent alike, whatever library parses documents.  Arguments can be read
exactly when a line says what they give; then settings are resolved exactly when the file, if one is
named, holds a strict document and the settings of all layers, each taken from the first layer that
gives it, are valid.  A text that is given counts also where it is empty.  Whether settings are
valid is asked of each of them by itself, so what is overridden is never asked about and what is
left always is.  A file by itself is resolved as it is loaded. -/
theorem Layers.resolve_layered (parse : String → Option Yaml) (arguments : List String)
    (environment : List (String × String)) (d : Disk) :
    ((∃ g, Arguments.parse Server.Settings.flags arguments environment = .ok g) ↔
      ∃ line, Says Server.Settings.flags arguments environment line) ∧
    (∀ g line, Arguments.parse Server.Settings.flags arguments environment = .ok g →
      Says Server.Settings.flags arguments environment line → ∀ s,
        (Server.Settings.resolve parse g d = .ok s ↔
          ∃ file, Loaded parse Server.Settings.Strict d (path? line environment) file ∧
            s = Server.Settings.layered ⟨line, environment, file⟩ ∧
            Server.Settings.validate s = .ok ())) ∧
    ((∃ g, Arguments.parse Agent.Settings.flags arguments environment = .ok g) ↔
      ∃ line, Says Agent.Settings.flags arguments environment line) ∧
    (∀ g line, Arguments.parse Agent.Settings.flags arguments environment = .ok g →
      Says Agent.Settings.flags arguments environment line → ∀ s,
        (Agent.Settings.resolve parse g d = .ok s ↔
          ∃ file, Loaded parse Agent.Settings.Strict d (path? line environment) file ∧
            s = Agent.Settings.layered ⟨line, environment, file⟩ ∧
            Agent.Settings.validate s = .ok ())) ∧
    (∀ (sources : Sources) (flag : Flag) (part : Part) (name default raw : String)
      (hkind : flag.kind = .text),
      (flag.given? sources.line).or (flag.set? sources.environment) = some raw →
        (Setting.text flag part name (.inl hkind) default).value sources = raw ∧
          (Setting.optionalText flag part name (.inl hkind)).value sources = some raw) ∧
    (∀ s, Server.Settings.validate s = .ok () ↔ s.Usable) ∧
    (∀ s, Agent.Settings.validate s = .ok () ↔ s.Usable) ∧
    ∀ (g : Given) (path : String), g.text? "config" = some path →
      (∀ word, word ≠ "config" → g.value? word = none) →
      Server.Settings.resolve parse g d = Server.Settings.ofFile parse path d ∧
        Agent.Settings.resolve parse g d = Agent.Settings.ofFile parse path d := by
  have hserver := Server.Settings.distinct_flags
  have hagent := Agent.Settings.distinct_flags
  refine ⟨Arguments.exists_parse_iff hserver, fun g line h htold s => ?_,
    Arguments.exists_parse_iff hagent, fun g line h htold s => ?_,
    fun sources flag part name default raw hkind => ?_,
    fun s => Server.Settings.validate_eq_ok_iff, fun s => Agent.Settings.validate_eq_ok_iff,
    fun g path hpath honly => ⟨?_, ?_⟩⟩
  · exact resolve_of_parse hserver (by decide) Server.Settings.layered_nothing
      Server.Settings.read_eq_some_iff Server.Settings.overlay_layered h htold
  · exact resolve_of_parse hagent (by decide) Agent.Settings.layered_nothing
      Agent.Settings.read_eq_some_iff Agent.Settings.overlay_layered h htold
  · exact Setting.value_of_textual flag part name hkind default
  · exact resolve_eq_ofFile hpath (Server.Settings.overlay_eq_self honly)
  · exact resolve_eq_ofFile hpath (Agent.Settings.overlay_eq_self honly)

example : (Server.Settings.layered
    ⟨[(Server.Settings.Table.key.flag, "")], [("KEY", "k"), ("RESTORE", "false")], none⟩) =
    { Server.Settings.default with key := some "", restore := false } := by
  decide

end Telemetry
