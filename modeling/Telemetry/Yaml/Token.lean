/-
The tokens of a document.

Tokens are names, values and the beginnings and ends of mappings.  That a
scalar or a mapping in braces is a name shows only at the colon behind it, so
it is kept in mind as a possible name until then, and the tokens that announce
a name are put before it afterwards.  A name and its colon have to stand on one
line, at most `longestName` characters apart.

A mapping without braces has no token of its own in the text: it begins with
the first entry further to the right than the entries around it, and ends where
something stands further to the left.

Commas, braces, question marks and scalars have a token each; every other character at the front
is a fault.
-/
import Telemetry.Yaml.Scalar

namespace Telemetry.Yaml

/-- The parts of a document. -/
inductive Token where
  | scalar (quoted : Bool) (text : String)
  /-- What follows is the name of an entry. -/
  | name
  /-- What follows is the value of an entry. -/
  | value
  | blockOpen
  | blockClose
  | braceOpen
  | braceClose
  | comma
  | documentStart
  | documentEnd
deriving DecidableEq

/-- How far apart a name and its colon may be. -/
def longestName : Nat := 1024

/-- A place where a name may begin. -/
structure PossibleName where
  line : Nat
  column : Nat
  index : Nat
  /-- Whether nothing but a name may stand here. -/
  required : Bool
  /-- How many tokens precede it. -/
  before : Nat

/-- Whether a possible name is too far back for a colon to follow. -/
def PossibleName.isStale (p : PossibleName) (s : Source) : Bool :=
  p.line < s.line || p.index + longestName < s.index

/-- Tokens that were found, and what has to be known to find the next one. -/
structure Scan where
  source : Source
  /-- The tokens so far, the latest first. -/
  tokens : List Token
  /-- The possible name between the innermost braces. -/
  possible : Option PossibleName
  /-- The possible names outside of the innermost braces, the nearest first. -/
  outer : List (Option PossibleName)
  /-- The columns of the open mappings without braces, the innermost first. -/
  columns : List Nat
  /-- Whether a name may begin here. -/
  mayName : Bool

namespace Scan

def start (cs : List Char) : Scan := ⟨.start cs, [], none, [], [], true⟩

/-- Whether something stands between braces. -/
def inBraces (s : Scan) : Bool := !s.outer.isEmpty

/-- After a token that some characters write. -/
def push (t : Token) (length : Nat) (s : Scan) : Scan :=
  { s with tokens := t :: s.tokens, source := s.source.skip length }

/-- Gives up the possible name, unless it was required. -/
def forget? (s : Scan) : Option Scan :=
  if s.possible.any (·.required) then none else some { s with possible := none }

/-- Gives up the possible names that are too far back, unless one was required. -/
def forgetStale? (s : Scan) : Option Scan :=
  let isStale (p : PossibleName) := p.isStale s.source
  if (s.possible :: s.outer).any fun p => p.any fun p => p.required && isStale p then none
  else
    let keep (p : Option PossibleName) := p.filter fun p => !isStale p
    some { s with possible := keep s.possible, outer := s.outer.map keep }

/-- Keeps in mind that a name may begin here. -/
def note? (s : Scan) : Option Scan :=
  if s.mayName then
    s.forget?.map fun s =>
      let here := s.source
      let required := !s.inBraces && s.columns.head? = some here.column
      let p : PossibleName := ⟨here.line, here.column, here.index, required, s.tokens.length⟩
      { s with possible := some p }
  else some s

/-- Closes the mappings further to the right than a column, or all without one. -/
def closeBlocks (column : Option Nat) (s : Scan) : Scan :=
  if s.inBraces then s
  else
    let isClosed (c : Nat) := column.all (· < c)
    let closed := s.columns.takeWhile isClosed
    { s with tokens := List.replicate closed.length .blockClose ++ s.tokens,
             columns := s.columns.dropWhile isClosed }

/-- Whether an entry at a column begins a mapping. -/
def opensBlock (column : Nat) (s : Scan) : Bool := !s.inBraces && s.columns.all (· < column)

/-- Puts tokens before those that come after the first `before` ones; an entry
at the column may begin a mapping there. -/
def announce (before column : Nat) (announced : List Token) (s : Scan) : Scan :=
  let later := s.tokens.length - before
  let opens := s.opensBlock column
  let announced := if opens then .blockOpen :: announced else announced
  { s with tokens := s.tokens.take later ++ (announced.reverse ++ s.tokens.drop later),
           columns := if opens then column :: s.columns else s.columns }

/-- At the next character that is no blank, break or comment.  No tab may stand
where a name may begin, and a mark of byte order counts for nothing at the
beginning of a line. -/
def toNext (fuel : Nat) (s : Scan) : Scan :=
  match fuel with
  | 0 => s
  | fuel + 1 =>
    let source := if s.source.column = 0 && s.source.rest.head? = some '\uFEFF'
      then s.source.step else s.source
    let source := source.skipWhile fun c => c = ' ' || (c = '\t' && (s.inBraces || !s.mayName))
    let source := if source.rest.head? = some '#'
      then source.skipWhile fun c => !isBreak c else source
    if source.rest.head?.any isBreak then
      toNext fuel { s with source := source.step, mayName := s.mayName || !s.inBraces }
    else { s with source }

/-- The mark at the beginning or the end of a document. -/
def mark? (t : Token) (s : Scan) : Option Scan :=
  if s.inBraces then none
  else (s.closeBlocks none).forget?.map fun s => { s.push t 3 with mayName := false }

def openBrace? (s : Scan) : Option Scan :=
  s.note?.map fun s =>
    { s.push .braceOpen 1 with possible := none, outer := s.possible :: s.outer, mayName := true }

def closeBrace? (s : Scan) : Option Scan :=
  match s.outer with
  | [] => none
  | possible :: outer => some { s.push .braceClose 1 with possible, outer, mayName := false }

def comma? (s : Scan) : Option Scan :=
  if s.inBraces then some { s.push .comma 1 with possible := none, mayName := true } else none

/-- A question mark before a name. -/
def question? (s : Scan) : Option Scan :=
  if s.inBraces || s.mayName then
    s.forget?.map fun s =>
      let s := s.announce s.tokens.length s.source.column [.name]
      { s with source := s.source.step, mayName := !s.inBraces }
  else none

/-- A colon: behind a possible name it makes it one; otherwise the name has been
announced, or is left out. -/
def colon? (s : Scan) : Option Scan :=
  match s.possible with
  | some p =>
    let s := s.announce p.before p.column [.name]
    some { s.push .value 1 with possible := none, mayName := false }
  | none =>
    if s.inBraces then some { s.push .value 1 with mayName := false }
    else if s.mayName then
      some ((s.announce s.tokens.length s.source.column []).push .value 1)
    else none

def quotedScalar? (s : Scan) : Option Scan := do
  let s ← s.note?
  let (text, source) ← quoted? s.source
  some { s with tokens := .scalar true text :: s.tokens, source, mayName := false }

def plainScalar? (s : Scan) : Option Scan := do
  let s ← s.note?
  let least := match s.columns with
    | [] => 0
    | column :: _ => column + 1
  let (text, broken, source) ← plain? s.inBraces least s.source
  some { s with tokens := .scalar false text :: s.tokens, source, mayName := broken }

/-- The token at the front. -/
def token? (s : Scan) : Option Scan :=
  if s.source.isStartMark then s.mark? .documentStart
  else if s.source.isEndMark then s.mark? .documentEnd
  else
    match s.source.rest with
    | '\x7b' :: _ => s.openBrace?
    | '\x7d' :: _ => s.closeBrace?
    | ',' :: _ => s.comma?
    | '"' :: _ | '\'' :: _ => s.quotedScalar?
    | c :: rest =>
      let stands := s.inBraces || endsWord rest
      if c = '?' && stands then s.question?
      else if c = ':' && stands then s.colon?
      else if startsPlain s.inBraces (c :: rest) then s.plainScalar?
      else none
    | [] => none

def run? : Nat → Scan → Option (List Token)
  | 0, _ => none
  | fuel + 1, s => do
    let s ← (s.toNext (s.source.rest.length + 1)).forgetStale?
    let s := s.closeBlocks (some s.source.column)
    if s.source.rest = [] then
      if s.inBraces then none else (s.closeBlocks none).forget?.map fun s => s.tokens.reverse
    else run? fuel (← s.token?)

end Scan

def tokens? (cs : List Char) : Option (List Token) := Scan.run? (cs.length + 1) (.start cs)

end Telemetry.Yaml
