/-
Sealing one block: optimal asymmetric encryption padding with SHA-256.

The message is padded behind the digest of a label.  A mask grown from a random
seed covers the padded message, and a mask grown from the result covers the
seed; what comes out is one number below the modulus.
-/
import Telemetry.Digest.Sha256
import Telemetry.Seal.Rsa

namespace Telemetry.Oaep

/-- The random octets that cover one block. -/
structure Seed where
  octets : Bytes
  length_eq : octets.length = Sha256.digestSize

def Seed.zero : Seed := ⟨List.replicate 32 0, by simp [Sha256.digestSize]⟩

instance : Inhabited Seed := ⟨.zero⟩

/-- The label that is bound to every block. -/
def label : Bytes := Bytes.ofText "metrics"

/-- How much shorter than its block a message has to be. -/
def overhead : Nat := 2 * Sha256.digestSize + 2

/-- Octets grown from a seed: the digests of the seed with a counter. -/
def mask (seed : Bytes) (length : Nat) : Bytes :=
  ((List.range (length / Sha256.digestSize + 1)).flatMap fun i =>
    Sha256.digest (seed ++ Bytes.ofNatBE 4 i)).take length

/-- Octets under a mask. -/
def cover (a b : Bytes) : Bytes := List.zipWith (· ^^^ ·) a b

/-- The padded message of a block of `size` octets. -/
def padded (size : Nat) (message : Bytes) : Bytes :=
  Sha256.digest label ++ List.replicate (size - overhead - message.length) 0 ++ 1 :: message

/-- The covered block of a message. -/
def encode (size : Nat) (seed : Seed) (message : Bytes) : Bytes :=
  let data := padded size message
  let hidden := cover data (mask seed.octets data.length)
  0 :: cover seed.octets (mask hidden Sha256.digestSize) ++ hidden

/-- The message behind a padding of zeros and a one. -/
def unpadded? (data : Bytes) : Option Bytes :=
  if data.take Sha256.digestSize = Sha256.digest label then
    match (data.drop Sha256.digestSize).dropWhile (· = 0) with
    | 1 :: message => some message
    | _ => none
  else none

/-- The message of a covered block. -/
def decode? (size : Nat) (block : Bytes) : Option Bytes :=
  match block with
  | 0 :: rest =>
    if size < overhead then none
    else
      let hidden := rest.drop Sha256.digestSize
      let seed := cover (rest.take Sha256.digestSize) (mask hidden Sha256.digestSize)
      unpadded? (cover hidden (mask seed hidden.length))
  | _ => none

/-- Seals one message. -/
def encrypt (key : Rsa.PublicKey) (seed : Seed) (message : Bytes) : Bytes :=
  Bytes.ofNatBE key.size
    (Rsa.power key.modulus (Bytes.toNatBE (encode key.size seed message)) key.exponent)

def decrypt? (key : Rsa.PrivateKey) (block : Bytes) : Option Bytes :=
  let n := Bytes.toNatBE block
  let size := key.publicKey.size
  if n < key.publicKey.modulus then
    decode? size (Bytes.ofNatBE size (Rsa.power key.publicKey.modulus n key.secret))
  else none

end Telemetry.Oaep
