/-
The 32-bit cyclic redundancy check, lowest bit first.
-/
import Telemetry.Bytes

namespace Telemetry.Crc32

/-- The generator polynomial with its bits reversed. -/
def generator : UInt32 := 0xEDB88320

/-- Shifts one bit through the register. -/
def shift (r : UInt32) : UInt32 := if r &&& 1 = 1 then (r >>> 1) ^^^ generator else r >>> 1

def shift4 (r : UInt32) : UInt32 := shift (shift (shift (shift r)))

/-- Feeds one octet to the register. -/
def feed (r : UInt32) (x : UInt8) : UInt32 := shift4 (shift4 (r ^^^ x.toUInt32))

def start : UInt32 := 0xFFFFFFFF

/-- The checksum that a register stands for. -/
def finish (r : UInt32) : UInt32 := ~~~ r

def checksum (b : Bytes) : UInt32 := finish (b.foldl feed start)

end Telemetry.Crc32
