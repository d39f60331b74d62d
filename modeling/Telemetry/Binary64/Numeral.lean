/-
Free decimal numerals of numbers.

An optional sign, then either digits with an optional point on either side of
them and an optional exponent, or one of the words for infinity and for not a
number in any case.  There is at least one digit, and no blank.
-/
import Telemetry.Binary64.Basic
import Telemetry.Text.Integer

namespace Telemetry.Binary64

/-- The value of an exponent mark with its digits, or zero when there is none. -/
def exponentPart? : List Char → Option Int
  | [] => some 0
  | c :: rest =>
    if c = 'e' ∨ c = 'E' then Integer.signed? (String.ofList rest) else none

def digitsValue (cs : List Char) : Nat := Nat.ofDigitChars 10 cs 0

/-- Digits with an optional point and exponent; at least one digit. -/
def decimalPart? (negative : Bool) (cs : List Char) : Option Binary64 :=
  let whole := cs.takeWhile Char.isDigit
  let rest := cs.dropWhile Char.isDigit
  let (places, rest) :=
    match rest with
    | '.' :: after => (after.takeWhile Char.isDigit, after.dropWhile Char.isDigit)
    | _ => ([], rest)
  if whole = [] ∧ places = [] then none
  else
    (exponentPart? rest).map fun e =>
      (ofDecimal? negative (digitsValue (whole ++ places)) (e - places.length)).getD
        (ofMagnitude negative infinityMagnitude)

/-- The words for the numbers that no digits write, in lower case. -/
def word? (negative : Bool) (cs : List Char) : Option Binary64 :=
  let word := String.ofList (cs.map Char.toLower)
  if word = "inf" ∨ word = "infinity" then some (ofMagnitude negative infinityMagnitude)
  else if word = "nan" then some (ofMagnitude negative (infinityMagnitude + leastNormal / 2))
  else none

/-- The number a numeral writes; a decimal that is too large is infinite. -/
def ofNumeral? (s : String) : Option Binary64 :=
  let (negative, cs) :=
    match s.toList with
    | '-' :: rest => (true, rest)
    | '+' :: rest => (false, rest)
    | cs => (false, cs)
  (decimalPart? negative cs).or (word? negative cs)

end Telemetry.Binary64
