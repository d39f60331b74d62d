/-
HMAC over SHA-256.

The key is brought to the length of a block, a longer one by its digest.  The
message is digested twice, behind the key masked in two ways.
-/
import Telemetry.Digest.Sha256

namespace Telemetry.Hmac

def blockSize : Nat := 64

/-- The key at the length of a block. -/
def blockKey (key : Bytes) : Bytes :=
  let short := if blockSize < key.length then Sha256.digest key else key
  short ++ List.replicate (blockSize - short.length) 0

/-- The key with every octet masked. -/
def masked (mask : UInt8) (key : Bytes) : Bytes := (blockKey key).map (· ^^^ mask)

/-- The authentication code of a message under a key. -/
def code (key message : Bytes) : Bytes :=
  Sha256.digest (masked 0x5c key ++ Sha256.digest (masked 0x36 key ++ message))

@[simp] theorem length_code (key message : Bytes) :
    (code key message).length = Sha256.digestSize := by
  simp [code]

end Telemetry.Hmac
