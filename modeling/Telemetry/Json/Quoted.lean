/-
Quoted JSON text.

Writing escapes the quote, the backslash and the control characters, and
nothing else.  Reading undoes every escape the grammar has, joins surrogate
pairs, and refuses a surrogate that stands alone and octets that are no UTF-8.
Both work on octets: the escaped characters are all ASCII.
-/
import Telemetry.Bytes
import Telemetry.Text.Hex

namespace Telemetry.Json

/-- The escaped form of one octet of a text. -/
def escape (x : UInt8) : Bytes :=
  if x = 34 then [92, 34]
  else if x = 92 then [92, 92]
  else if x = 8 then [92, 98]
  else if x = 12 then [92, 102]
  else if x = 10 then [92, 110]
  else if x = 13 then [92, 114]
  else if x = 9 then [92, 116]
  else if x < 32 then Bytes.ofText "\\u00" ++ (Hex.pair x).map fun c => UInt8.ofNat c.toNat
  else [x]

/-- The octet that a one-letter escape stands for. -/
def simpleEscape? (x : UInt8) : Option UInt8 :=
  if x = 34 ∨ x = 92 ∨ x = 47 then some x
  else if x = 98 then some 8
  else if x = 102 then some 12
  else if x = 110 then some 10
  else if x = 114 then some 13
  else if x = 116 then some 9
  else none

/-- The number below `65536` that four hexadecimal digits write. -/
def unit? (a b c d : UInt8) : Option Nat :=
  match Hex.value? (Char.ofNat a.toNat), Hex.value? (Char.ofNat b.toNat),
        Hex.value? (Char.ofNat c.toNat), Hex.value? (Char.ofNat d.toNat) with
  | some a, some b, some c, some d => some (((a * 16 + b) * 16 + c) * 16 + d)
  | _, _, _, _ => none

def utf8 (n : Nat) : Bytes := Bytes.ofText (String.singleton (Char.ofNat n))

def joined (high low : Nat) : Nat := 0x10000 + (high - 0xD800) * 0x400 + (low - 0xDC00)

/-- Undoes the escapes; `done` holds the octets read so far, the latest first. -/
def unescapeAfter : Bytes → Bytes → Option Bytes
  | [], done => some done.reverse
  | 92 :: 117 :: a :: b :: c :: d :: rest, done =>
    match unit? a b c d with
    | none => none
    | some u =>
      if 0xDC00 ≤ u ∧ u ≤ 0xDFFF then none
      else if 0xD800 ≤ u ∧ u ≤ 0xDBFF then
        match rest with
        | 92 :: 117 :: a' :: b' :: c' :: d' :: rest =>
          match unit? a' b' c' d' with
          | none => none
          | some l =>
            if 0xDC00 ≤ l ∧ l ≤ 0xDFFF then
              unescapeAfter rest ((utf8 (joined u l)).reverse ++ done)
            else none
        | _ => none
      else unescapeAfter rest ((utf8 u).reverse ++ done)
  | 92 :: x :: rest, done =>
    match simpleEscape? x with
    | none => none
    | some y => unescapeAfter rest (y :: done)
  | x :: rest, done => if x = 92 then none else unescapeAfter rest (x :: done)

/-- The text between quotes, if it stands for characters. -/
def unquote? (raw : Bytes) : Option String := (unescapeAfter raw []).bind Bytes.text?

end Telemetry.Json
