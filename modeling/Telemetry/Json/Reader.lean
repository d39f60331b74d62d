/-
Reading JSON.

The reader is a push-down automaton over octets: `step` consumes one octet, the
frames hold the arrays and objects that are still open.  It runs in constant
stack for documents of any depth, and since it reads octet by octet, reading a
concatenation is reading its parts in turn (`run_append`).

A depth limit, where one is set, counts the arrays and objects open at once.

A value goes into the array or object that is open, or it is the document.  Strings, numbers and
words are collected octet by octet; a string ends with its quote, a number and a word with an
octet that they do not go on with, which is then read after them (`finish`).
-/
import Telemetry.Json.Basic

namespace Telemetry.Json.Reader

/-- What may stand next. -/
inductive Place where
  /-- A value. -/
  | value
  /-- A value, or the end of an array that has just begun. -/
  | item
  /-- A name, or the end of an object that has just begun. -/
  | field
  /-- A name. -/
  | key
  /-- The colon after a name. -/
  | colon
  /-- A comma or the end of what is open. -/
  | next
  /-- Nothing: the document is complete. -/
  | complete (document : Json)

/-- An array or object that is still open; what it holds comes latest first. -/
inductive Frame where
  | array (items : List Json)
  | object (fields : List (Bytes × Json)) (key : Bytes)

/-- The string, number or word that is being read; its octets come latest first. -/
inductive Lexeme where
  | blank
  | string (raw : Bytes)
  /-- After a backslash. -/
  | escape (raw : Bytes)
  /-- Inside the digits of a numbered escape, `owed` of them to come. -/
  | unit (owed : Nat) (raw : Bytes)
  | number (raw : Bytes)
  | word (raw : Bytes)

/-- Where the reader stands. -/
structure State where
  place : Place
  frames : List Frame
  lexeme : Lexeme

/-- Before the first octet. -/
def start : State := ⟨.value, [], .blank⟩

/-- A complete value goes into what is open, or is the document. -/
def deliver (v : Json) : List Frame → State
  | [] => ⟨.complete v, [], .blank⟩
  | .array items :: rest => ⟨.next, .array (v :: items) :: rest, .blank⟩
  | .object fields key :: rest => ⟨.next, .object ((key, v) :: fields) key :: rest, .blank⟩

/-- Whether a value may stand here. -/
def Place.takesValue : Place → Bool
  | .value | .item => true
  | _ => false

/-- Whether a name may stand here. -/
def Place.takesKey : Place → Bool
  | .field | .key => true
  | _ => false

def accept (v : Json) (place : Place) (frames : List Frame) : Option State :=
  if place.takesValue then some (deliver v frames) else none

def acceptString (raw : Bytes) (place : Place) (frames : List Frame) : Option State :=
  if place.takesKey then
    match frames with
    | .object fields _ :: rest => some ⟨.colon, .object fields raw :: rest, .blank⟩
    | _ => none
  else accept (.string raw) place frames

def acceptWord (raw : Bytes) (place : Place) (frames : List Frame) : Option State :=
  if raw = Bytes.ofText "true" then accept (.bool true) place frames
  else if raw = Bytes.ofText "false" then accept (.bool false) place frames
  else if raw = Bytes.ofText "null" then accept .null place frames
  else none

def acceptNumber (raw : Bytes) (place : Place) (frames : List Frame) : Option State :=
  (Number.ofChars? (raw.map fun x => Char.ofNat x.toNat)).bind fun n =>
    accept (.number n) place frames

/-- Whether one more array or object may be open. -/
def mayOpen (limit : Option Nat) (frames : List Frame) : Bool :=
  match limit with
  | none => true
  | some n => frames.length + 1 < n

def isBlank (x : UInt8) : Bool := x = 32 || x = 9 || x = 10 || x = 13

/-- A digit, a sign, a point or an exponent mark. -/
def inNumber (x : UInt8) : Bool :=
  (48 ≤ x && x ≤ 57) || x = 45 || x = 43 || x = 46 || x = 101 || x = 69

def inWord (x : UInt8) : Bool := 97 ≤ x && x ≤ 122

def isHexDigit (x : UInt8) : Bool :=
  (48 ≤ x && x ≤ 57) || (97 ≤ x && x ≤ 102) || (65 ≤ x && x ≤ 70)

def closeArray (place : Place) (frames : List Frame) : Option State :=
  match place, frames with
  | .item, .array items :: rest | .next, .array items :: rest =>
    some (deliver (.array items.reverse) rest)
  | _, _ => none

def closeObject (place : Place) (frames : List Frame) : Option State :=
  match place, frames with
  | .field, .object fields _ :: rest | .next, .object fields _ :: rest =>
    some (deliver (.object fields.reverse) rest)
  | _, _ => none

/-- A comma: another item, or another name. -/
def comma (place : Place) (frames : List Frame) : Option State :=
  match place, frames with
  | .next, .array _ :: _ => some ⟨.value, frames, .blank⟩
  | .next, .object _ _ :: _ => some ⟨.key, frames, .blank⟩
  | _, _ => none

def colon (place : Place) (frames : List Frame) : Option State :=
  match place with
  | .colon => some ⟨.value, frames, .blank⟩
  | _ => none

/-- One octet between lexemes. -/
def punctuate (limit : Option Nat) (place : Place) (frames : List Frame) (x : UInt8) :
    Option State :=
  if isBlank x then some ⟨place, frames, .blank⟩
  else if x = 34 then some ⟨place, frames, .string []⟩
  else if x = 45 || (48 ≤ x && x ≤ 57) then some ⟨place, frames, .number [x]⟩
  else if inWord x then some ⟨place, frames, .word [x]⟩
  else if x = 91 then
    if place.takesValue && mayOpen limit frames then some ⟨.item, .array [] :: frames, .blank⟩
    else none
  else if x = 123 then
    if place.takesValue && mayOpen limit frames then some ⟨.field, .object [] [] :: frames, .blank⟩
    else none
  else if x = 93 then closeArray place frames
  else if x = 125 then closeObject place frames
  else if x = 44 then comma place frames
  else if x = 58 then colon place frames
  else none

/-- Ends the number or word that is being read. -/
def finish (s : State) : Option State :=
  match s.lexeme with
  | .blank => some s
  | .number raw => acceptNumber raw.reverse s.place s.frames
  | .word raw => acceptWord raw.reverse s.place s.frames
  | _ => none

/-- Consumes one octet. -/
def step (limit : Option Nat) (s : State) (x : UInt8) : Option State :=
  match s.lexeme with
  | .string raw =>
    if x = 34 then acceptString raw.reverse s.place s.frames
    else if x = 92 then some { s with lexeme := .escape (x :: raw) }
    else if x < 32 then none
    else some { s with lexeme := .string (x :: raw) }
  | .escape raw =>
    if x = 117 then some { s with lexeme := .unit 4 (x :: raw) }
    else if (simpleEscape? x).isSome then some { s with lexeme := .string (x :: raw) }
    else none
  | .unit owed raw =>
    if isHexDigit x then
      if owed ≤ 1 then some { s with lexeme := .string (x :: raw) }
      else some { s with lexeme := .unit (owed - 1) (x :: raw) }
    else none
  | .number raw =>
    if inNumber x then some { s with lexeme := .number (x :: raw) }
    else (finish s).bind fun s => punctuate limit s.place s.frames x
  | .word raw =>
    if inWord x then some { s with lexeme := .word (x :: raw) }
    else (finish s).bind fun s => punctuate limit s.place s.frames x
  | .blank => punctuate limit s.place s.frames x

/-- Consumes octets from left to right. -/
def run (limit : Option Nat) : State → Bytes → Option State
  | s, [] => some s
  | s, x :: rest =>
    match step limit s x with
    | none => none
    | some s => run limit s rest

/-- The document, once it is complete. -/
def result? (s : State) : Option Json :=
  match finish s with
  | some ⟨.complete document, _, _⟩ => some document
  | _ => none

theorem run_append (limit : Option Nat) (s : State) (a b : Bytes) :
    run limit s (a ++ b) = (run limit s a).bind fun s => run limit s b := by
  induction a generalizing s with
  | nil => rfl
  | cons x rest ih =>
    simp only [List.cons_append, run]
    cases step limit s x with
    | none => rfl
    | some s => exact ih s

end Telemetry.Json.Reader

namespace Telemetry.Json

/-- The document that octets write. -/
def parse? (b : Bytes) : Option Json :=
  (Reader.run none Reader.start b).bind Reader.result?

/-- The document that octets write, with fewer than `limit` arrays and objects
open at any point. -/
def parseWithin? (limit : Nat) (b : Bytes) : Option Json :=
  (Reader.run (some limit) Reader.start b).bind Reader.result?

end Telemetry.Json
