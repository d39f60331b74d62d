/-
Sealing bodies of any length.

A body is cut into messages that a block can hold; every message becomes a
block, and the blocks are joined.  Opening cuts the whole into blocks again.
Neither depends on how a block is sealed, so both are stated for any cipher of
blocks.
-/
import Telemetry.Fault
import Telemetry.Seal.Oaep
import Telemetry.Text.Integer

namespace Telemetry

/-- What seals messages into blocks of `size` octets. -/
structure Sealer where
  size : Nat
  /-- Seals one message. -/
  encrypt : Oaep.Seed → Bytes → Bytes

/-- What opens blocks of `size` octets. -/
structure Unsealer where
  size : Nat
  /-- Opens one block. -/
  decrypt : Bytes → Option Bytes

namespace Sealer

def ofKey (key : Rsa.PublicKey) : Sealer := ⟨key.size, Oaep.encrypt key⟩

def ofText (text : Bytes) : Result Sealer :=
  match Rsa.publicOfText? text with
  | some key => .ok (ofKey key)
  | none => .error (.internal "invalid public key: malformed key")

/-- Seals messages one after the other, the i-th under the i-th seed. -/
def blocks (s : Sealer) (seeds : Nat → Oaep.Seed) (messages : List Bytes) : Bytes :=
  messages.zipIdx.flatMap fun (message, i) => s.encrypt (seeds i) message

/-- The sealed form of a body.  A key whose blocks cannot hold a message seals
nothing, not even an empty body. -/
def sealBody (s : Sealer) (seeds : Nat → Oaep.Seed) (body : Bytes) : Result Bytes :=
  if s.size ≤ Oaep.overhead then .error (.internal "public key too small for OAEP")
  else .ok (s.blocks seeds (Bytes.chunks (s.size - Oaep.overhead) body))

end Sealer

namespace Unsealer

def ofKey (key : Rsa.PrivateKey) : Unsealer := ⟨key.publicKey.size, Oaep.decrypt? key⟩

/-- The private key that a text holds. -/
def keyOfText (text : Bytes) : Result Rsa.PrivateKey :=
  match Rsa.privateOfText? text with
  | some key => .ok key
  | none => .error (.internal "invalid private key: malformed key")

def ofText (text : Bytes) : Result Unsealer := (keyOfText text).map ofKey

/-- The complaint about a body that is no sequence of blocks. -/
def misfit (length size : Nat) : Fault :=
  .badRequest ("sealed body length " ++ Integer.ofNat length ++ " is not a multiple of "
    ++ Integer.ofNat size)

/-- The complaint about a block that does not open. -/
def unopened : Fault := .badRequest "failed to decrypt body: decryption error"

/-- Opens one block. -/
def openBlock (u : Unsealer) (block : Bytes) : Result Bytes :=
  match u.decrypt block with
  | some message => .ok message
  | none => .error unopened

/-- The body of a sealed form. -/
def openBody (u : Unsealer) (b : Bytes) : Result Bytes :=
  if u.size = 0 ∨ b.length % u.size ≠ 0 then .error (misfit b.length u.size)
  else ((Bytes.chunks u.size b).mapM u.openBlock).map List.flatten

end Unsealer

end Telemetry
