/-
Labelled text blocks.

A block is a first boundary with a label, lines of base64 text and a last
boundary with the same label.  Text before the first boundary is passed over if
it ends with a line feed.  Every line but the last has sixty-four characters,
and an empty line may precede the last boundary.
-/
import Telemetry.Seal.Base64

namespace Telemetry.Pem

/-- A label with its content. -/
structure Block where
  label : Bytes
  content : Bytes
deriving DecidableEq, Repr

/-- How a first boundary begins. -/
def opening : Bytes := Bytes.ofText "-----BEGIN "

/-- How a last boundary begins. -/
def closing : Bytes := Bytes.ofText "-----END "

/-- How both boundaries end. -/
def dashes : Bytes := Bytes.ofText "-----"

/-- What follows the end of a line, if one stands here. -/
def afterLineEnd? : Bytes → Option Bytes
  | 13 :: 10 :: rest | 13 :: rest | 10 :: rest => some rest
  | _ => none

/-- What precedes the end of a line, if one stands at the end. -/
def beforeLineEnd? (b : Bytes) : Option Bytes :=
  match b.reverse with
  | 10 :: 13 :: rest | 13 :: rest | 10 :: rest => some rest.reverse
  | _ => none

def after? (lead b : Bytes) : Option Bytes :=
  if lead.isPrefixOf b then some (b.drop lead.length) else none

def before? (tail b : Bytes) : Option Bytes :=
  if tail.isSuffixOf b then some (b.take (b.length - tail.length)) else none

/-- What follows the opening on the first line that begins with it, when a line
begins here or not; a zero octet before it is not text. -/
def afterOpening? (lineStart : Bool) : Bytes → Option Bytes
  | [] => none
  | x :: rest =>
    if lineStart && opening.isPrefixOf (x :: rest) then after? opening (x :: rest)
    else if x = 0 then none
    else afterOpening? (x = 10) rest

/-- Whether an octet may stand in a label. -/
def inLabel (x : UInt8) : Bool := (0x21 ≤ x && x ≤ 0x7E && x ≠ 45) || x = 32

def lineLength : Nat := 64

/-- The lines of base64 text; what ends the last one may be left out. -/
def lines? (fuel : Nat) (b : Bytes) : Option (List Bytes) :=
  match fuel with
  | 0 => none
  | fuel + 1 =>
    if b = [] then some []
    else if b.length ≤ lineLength then some [(beforeLineEnd? b).getD b]
    else
      (afterLineEnd? (b.drop lineLength)).bind fun rest =>
        (lines? fuel rest).map fun more => b.take lineLength :: more

/-- The octets that lines of base64 text stand for.  There are some, and an empty
line does not follow one that is padded. -/
def content? (lines : List Bytes) : Option Bytes :=
  let text := lines.flatten
  if text = [] || (lines.getLast? = some [] && text.getLast? = some 61) then none
  else Base64.decode? text

/-- The block that a text holds. -/
def block? (b : Bytes) : Option Block := do
  let b ← afterOpening? true b
  let label := b.takeWhile inLabel
  let body ← after? dashes (b.dropWhile inLabel)
  let body ← afterLineEnd? body
  let body := (beforeLineEnd? body).getD body
  let body ← before? (closing ++ label ++ dashes) body
  let body ← beforeLineEnd? body
  let content ← content? (← lines? (body.length + 1) body)
  some ⟨label, content⟩

end Telemetry.Pem
