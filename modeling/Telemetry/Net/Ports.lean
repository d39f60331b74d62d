/-
Ports to listen on.

A host listens at its own addresses, and at each port of an address only once.
The address of no host stands for all of them, and port zero for any port that
is free.
-/
import Telemetry.Net.Address

namespace Telemetry

/-- Where a host can listen, and where it does. -/
structure Ports where
  /-- Whether an address is the host's own. -/
  isOwn : IpAddr → Bool
  taken : List SocketAddr

namespace Ports

/-- Whether an address stands for all addresses of its kind. -/
def isAny : IpAddr → Bool
  | .v4 a => a = 0
  | .v6 a => a = 0

/-- Whether an address has the short form. -/
def isShort : IpAddr → Bool
  | .v4 _ => true
  | .v6 _ => false

/-- Whether listening at one address rules out listening at another. -/
def overlap (a b : SocketAddr) : Bool :=
  a.port = b.port ∧ (a.ip = b.ip ∨ (isShort a.ip = isShort b.ip ∧ (isAny a.ip ∨ isAny b.ip)))

def isFree (p : Ports) (a : SocketAddr) : Bool :=
  p.isOwn a.ip ∧ (a.port = 0 ∨ p.taken.all fun b => ¬ overlap a b)

/-- Listens at an address, if one can. -/
def listen? (p : Ports) (a : SocketAddr) : Option Ports :=
  if p.isFree a then some { p with taken := if a.port = 0 then p.taken else a :: p.taken } else none

end Ports

end Telemetry
