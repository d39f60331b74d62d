/-
The way to the server: calls if there is an address for them, else requests.
-/
import Telemetry.Agent.Caller
import Telemetry.Agent.Poster
import Telemetry.Agent.Settings
import Telemetry.Seal.KeyFile

namespace Telemetry.Agent

/-- A way to the server. -/
inductive Transport where
  | requests (p : Poster)
  | calls (c : Caller)

namespace Transport

def name : Transport → String
  | requests _ => "rest"
  | calls _ => "rpc"

/-- The way that settings describe.  Calls are not sealed, so the key to seal with
is looked at only for requests. -/
def ofSettings (s : Settings) (d : Disk) : Result Transport :=
  let signer := s.key.bind fun k => Signer.ofKey? (Bytes.ofText k)
  match s.rpc with
  | some address => .ok (calls ⟨address, signer⟩)
  | none =>
    match s.sealKey with
    | none => .ok (requests ⟨s.address, signer, none⟩)
    | some path =>
      (Sealer.ofFile path d).map fun sealer => requests ⟨s.address, signer, some sealer⟩

end Transport

end Telemetry.Agent
