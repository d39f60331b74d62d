/-
Decimal numerals of integers.

A numeral is an optional sign and at least one ASCII digit; blanks, separators
and other digits are refused, leading zeros are not.  An unsigned numeral may
carry a plus but no minus.  Ranges are the reader's: a numeral outside its
range is refused like a malformed one.
-/
namespace Telemetry.Integer

def digits (n : Nat) : List Char := Nat.toDigits 10 n

def ofNat (n : Nat) : String := String.ofList (digits n)

/-- The numeral of an integer: a minus before the digits of a negative one. -/
def ofInt (n : Int) : String :=
  if n < 0 then String.ofList ('-' :: digits n.natAbs) else String.ofList (digits n.natAbs)

/-- The number that a non-empty run of digits writes. -/
def digits? (cs : List Char) : Option Nat :=
  if cs ≠ [] ∧ cs.all Char.isDigit then some (Nat.ofDigitChars 10 cs 0) else none

/-- An integer numeral with an optional sign. -/
def signed? (s : String) : Option Int :=
  match s.toList with
  | '-' :: rest => (digits? rest).map fun n => -(n : Int)
  | '+' :: rest => (digits? rest).map fun n => (n : Int)
  | cs => (digits? cs).map fun n => (n : Int)

/-- A numeral of a natural number with an optional plus. -/
def unsigned? (s : String) : Option Nat :=
  match s.toList with
  | '+' :: rest => digits? rest
  | cs => digits? cs

/-- The signed 64-bit value of an integer in range. -/
def toInt64? (n : Int) : Option Int64 :=
  if Int64.minValue.toInt ≤ n ∧ n ≤ Int64.maxValue.toInt then some (Int64.ofInt n) else none

/-- A numeral of a signed 64-bit value. -/
def int64? (s : String) : Option Int64 := (signed? s).bind toInt64?

/-- A numeral of a natural number below `bound`. -/
def below? (bound : Nat) (s : String) : Option Nat :=
  (unsigned? s).filter (· < bound)

theorem digits?_digits (n : Nat) : digits? (digits n) = some n := by
  have h : (digits n).all Char.isDigit = true := by
    simp only [List.all_eq_true]
    exact fun c hc => Nat.isDigit_of_mem_toDigits (by decide) (by decide) hc
  have hn : digits n ≠ [] := Nat.toDigits_ne_nil
  rw [digits?, if_pos ⟨hn, h⟩, digits, Nat.ofDigitChars_toDigits (by decide) (by decide)]

theorem toInt64?_toInt (d : Int64) : toInt64? d.toInt = some d := by
  rw [toInt64?, if_pos ⟨d.minValue_le_toInt, d.toInt_le⟩, Int64.ofInt_toInt]

end Telemetry.Integer
