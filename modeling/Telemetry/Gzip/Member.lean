/-
Gzip members.

A member is a header, a deflated stream and a trailer with the checksum and the
length of the content.  `gunzip` opens the first member and looks at nothing
behind it.  It opens no more than it may: a member is read in pieces, and once
the content that was counted has passed the limit, nothing further is looked at,
so a fault of the stream behind it goes unseen, but the content is refused.
-/
import Telemetry.Fault
import Telemetry.Gzip.Crc32
import Telemetry.Gzip.Inflate
import Telemetry.Text.Integer

namespace Telemetry.Gzip

/-- The longest name or comment a header may hold. -/
def maxFieldLength : Nat := 65535

/-- What follows a field that a zero octet ends. -/
def afterZero? (b : Bytes) : Option Bytes :=
  match b.dropWhile (· ≠ 0) with
  | [] => none
  | _ :: rest => if (b.takeWhile (· ≠ 0)).length ≤ maxFieldLength then some rest else none

/-- What follows a field that its length precedes. -/
def afterLength? : Bytes → Option Bytes
  | a :: b :: rest =>
    let n := a.toNat + 256 * b.toNat
    if n ≤ (rest.take n).length then some (rest.drop n) else none
  | _ => none

def hasFlag (flags mask : UInt8) : Bool := flags &&& mask ≠ 0

/-- Passes over a field that is there only if a flag says so. -/
def passField (present : Bool) (skip : Bytes → Option Bytes) (b : Bytes) : Option Bytes :=
  if present then skip b else some b

/-- What follows the checksum of a header, if it is right: the two low octets of
the checksum of everything before it. -/
def afterHeaderCheck? (whole b : Bytes) : Option Bytes :=
  match b with
  | low :: high :: rest =>
    let crc := Crc32.checksum (whole.take (whole.length - b.length))
    if crc.toNat % 65536 = low.toNat + 256 * high.toNat then some rest else none
  | _ => none

/-- The stream behind a header: the mark, the method, flags, six octets of no
consequence and the fields the flags announce. -/
def afterHeader? (whole : Bytes) : Option Bytes :=
  match whole with
  | 0x1f :: 0x8b :: 8 :: flags :: _ :: _ :: _ :: _ :: _ :: _ :: rest =>
    if hasFlag flags 0xE0 then none
    else
      (passField (hasFlag flags 4) afterLength? rest).bind fun b =>
      (passField (hasFlag flags 8) afterZero? b).bind fun b =>
      (passField (hasFlag flags 16) afterZero? b).bind fun b =>
      passField (hasFlag flags 2) (afterHeaderCheck? whole) b
  | _ => none

/-- Whether a trailer fits the content. -/
def checksOut (content trailer : Bytes) : Bool :=
  (trailer.take 8) = Bytes.ofNatLE 4 (Crc32.checksum content).toNat
    ++ Bytes.ofNatLE 4 content.length

/-- How much of a member is read at a time. -/
def pieceLength : Nat := 32768

/-- The stream behind a header of some length, in the pieces that it is read in. -/
def pieces (header : Nat) (stream : Bytes) : List Bytes :=
  let first := pieceLength - header % pieceLength
  stream.take first :: Bytes.chunks pieceLength (stream.drop first)

/-- The most content that a body may have. -/
def maxInflated : Nat := 32 * 1024 * 1024

def unreadable : Fault := .badRequest "failed to decompress body: corrupt gzip stream"

/-- The complaint about too much content. -/
def tooLong (limit : Nat) : Fault :=
  .badRequest ("decompressed body exceeds " ++ Integer.ofNat limit ++ " bytes")

/-- The content of a stream that was read to its end, if the trailer fits. -/
def checked (s : Inflation) : Result Bytes :=
  let content := s.out.toList
  if checksOut content s.rest then .ok content else .error unreadable

/-- The content of the first member, if it has at most `limit` octets. -/
def gunzip (limit : Nat) (b : Bytes) : Result Bytes :=
  match afterHeader? b with
  | none => .error unreadable
  | some stream =>
    let (stop, s) := Inflation.inflate limit (pieces (b.length - stream.length) stream)
    if stop = some .corrupt then .error unreadable
    else if limit < s.out.size then .error (tooLong limit)
    else if stop = none then checked s
    else .error unreadable

end Telemetry.Gzip
