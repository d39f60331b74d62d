/-
A place in a document.

A document is read one character after the other.  A place knows what is left
and where on its line it stands, because the column of an entry says which
mapping the entry belongs to.
-/
import Telemetry.Bytes

namespace Telemetry.Yaml

def isBlank (c : Char) : Bool := c = ' ' || c = '\t'

/-- The end of a line; the separators of lines and of paragraphs are two more. -/
def isBreak (c : Char) : Bool := c = '\n' || c = '\u2028' || c = '\u2029'

def isSpace (c : Char) : Bool := isBlank c || isBreak c

/-- Whether a word ends here. -/
def endsWord : List Char → Bool
  | [] => true
  | c :: _ => isSpace c

/-- What is left of a document, and how many lines, characters of this line and
characters at all precede it. -/
structure Source where
  rest : List Char
  line : Nat
  column : Nat
  index : Nat

namespace Source

def start (cs : List Char) : Source := ⟨cs, 0, 0, 0⟩

/-- After the next character. -/
def step (s : Source) : Source :=
  match s.rest with
  | [] => s
  | c :: rest =>
    if isBreak c then ⟨rest, s.line + 1, 0, s.index + 1⟩
    else ⟨rest, s.line, s.column + 1, s.index + 1⟩

def skip : Nat → Source → Source
  | 0, s => s
  | n + 1, s => skip n s.step

def skipWhile (p : Char → Bool) (s : Source) : Source := s.skip (s.rest.takeWhile p).length

/-- Whether the line marks the beginning of a document. -/
def isStartMark (s : Source) : Bool :=
  match s.rest with
  | '-' :: '-' :: '-' :: rest => s.column = 0 && endsWord rest
  | _ => false

/-- Whether the line marks the end of a document. -/
def isEndMark (s : Source) : Bool :=
  match s.rest with
  | '.' :: '.' :: '.' :: rest => s.column = 0 && endsWord rest
  | _ => false

/-- Whether the line marks the beginning or the end of a document. -/
def isMark (s : Source) : Bool := s.isStartMark || s.isEndMark

end Source

/-- Whether a character may stand in a document at all. -/
def isPrintable (c : Char) : Bool :=
  let n := c.toNat
  n = 9 || n = 10 || n = 13 || (0x20 ≤ n && n ≤ 0x7E) || n = 0x85
    || (0xA0 ≤ n && n ≠ 0xFFFE && n ≠ 0xFFFF)

/-- Characters with the same break after every line, however it was written. -/
def unixLines : List Char → List Char
  | '\r' :: '\n' :: rest => '\n' :: unixLines rest
  | c :: rest => (if c = '\r' || c = '\u0085' then '\n' else c) :: unixLines rest
  | [] => []

end Telemetry.Yaml
