/-
Scalars as they are written.

A plain scalar ends before a comment and before a colon that a blank follows,
inside braces also before punctuation.  A quoted one ends at its quote.  Where
a scalar goes on on another line, the break counts as a blank, and breaks after
the first one are kept.  No scalar goes on behind a mark that ends a document.
-/
import Telemetry.Text.Hex
import Telemetry.Yaml.Source

namespace Telemetry.Yaml

/-- What a scalar says with blanks and breaks between its words. -/
def folded (gap : List Char) : List Char :=
  match gap.filter isBreak with
  | [] => gap
  | ['\n'] => [' ']
  | '\n' :: more => more
  | kept => kept

/-- Blanks and breaks at the front, and what follows them. -/
def gap (s : Source) : List Char × Source :=
  let cs := s.rest.takeWhile isSpace
  (cs, s.skip cs.length)

/-! ## Plain scalars -/

/-- Punctuation inside braces. -/
def isFlowMark (c : Char) : Bool := [',', '[', ']', '\x7b', '\x7d'].contains c

/-- The characters that no plain scalar begins with. -/
def isIndicator (c : Char) : Bool :=
  isFlowMark c || ['#', '&', '*', '!', '|', '>', '\'', '"', '%', '@', '\x60'].contains c

/-- Whether a plain scalar may begin here. -/
def startsPlain (flow : Bool) : List Char → Bool
  | [] => false
  | c :: rest =>
    if c = '-' then !endsWord rest
    else if c = '?' || c = ':' then !flow && !endsWord rest
    else !isSpace c && !isIndicator c

/-- The characters of a word of a plain scalar.  Inside braces a colon must not
stand right before punctuation. -/
def plainWord? (flow : Bool) : List Char → Option (List Char)
  | [] => some []
  | c :: rest =>
    if flow && c = ':' && rest.head?.any (fun x => x = '?' || isFlowMark x) then none
    else if isSpace c || (c = ':' && endsWord rest) || (flow && isFlowMark c) then some []
    else (plainWord? flow rest).map (c :: ·)

/-- Whether a tab stands to the left of a column on a later line of a gap. -/
def hasEarlyTab (least : Nat) : Bool → Nat → List Char → Bool
  | _, _, [] => false
  | fresh, column, c :: rest =>
    if isBreak c then hasEarlyTab least true 0 rest
    else (fresh && c = '\t' && column < least) || hasEarlyTab least fresh (column + 1) rest

/-- The rest of a plain scalar whose later lines begin at `least` or further to
the right, whether a line ends behind it, and what follows; `done` holds the
characters so far, the latest first, and `before` the gap behind them. -/
def plainWords? (flow : Bool) (least : Nat) :
    Nat → List Char → List Char → Source → Option (List Char × Bool × Source)
  | 0, _, _, _ => none
  | fuel + 1, done, before, s =>
    if s.isMark || s.rest.head? = some '#' then some (done, before.any isBreak, s)
    else do
      let word ← plainWord? flow s.rest
      if word = [] then some (done, before.any isBreak, s)
      else
        let done := word.reverse ++ ((folded before).reverse ++ done)
        let s := s.skip word.length
        let (between, next) := gap s
        if between = [] then some (done, false, s)
        else if hasEarlyTab least false 0 between then none
        else if !flow && next.column < least then some (done, between.any isBreak, next)
        else plainWords? flow least fuel done between next

def plain? (flow : Bool) (least : Nat) (s : Source) : Option (String × Bool × Source) :=
  (plainWords? flow least (s.rest.length + 1) [] [] s).map fun (done, broken, s) =>
    (String.ofList done.reverse, broken, s)

/-! ## Quoted scalars -/

/-- The character that a one-letter escape stands for. -/
def escaped? : Char → Option Char
  | '0' => some '\x00'
  | 'a' => some '\x07'
  | 'b' => some '\x08'
  | 't' | '\t' => some '\t'
  | 'n' => some '\n'
  | 'v' => some '\x0b'
  | 'f' => some '\x0c'
  | 'r' => some '\r'
  | 'e' => some '\x1b'
  | ' ' => some ' '
  | '"' => some '"'
  | '/' => some '/'
  | '\\' => some '\\'
  | 'N' => some '\u0085'
  | '_' => some '\u00a0'
  | 'L' => some '\u2028'
  | 'P' => some '\u2029'
  | _ => none

/-- How many digits a numbered escape has. -/
def escapeDigits? : Char → Option Nat
  | 'x' => some 2
  | 'u' => some 4
  | 'U' => some 8
  | _ => none

/-- The character of a number, unless the number is none of a character. -/
def char? (n : Nat) : Option Char :=
  if n < 0xD800 ∨ (0xDFFF < n ∧ n < 0x110000) then some (Char.ofNat n) else none

/-- The character of an escape, after the backslash, and how many characters
write it. -/
def escape? : List Char → Option (Char × Nat)
  | [] => none
  | c :: rest =>
    match escaped? c, escapeDigits? c with
    | some e, _ => some (e, 1)
    | none, some n =>
      ((rest.take n).mapM Hex.value?).bind fun ds =>
        if ds.length = n then
          (char? (ds.foldl (fun n d => n * 16 + d) 0)).map fun c => (c, n + 1)
        else none
    | none, none => none

/-- A scalar in double quotes, after the first one; `done` holds the characters
so far, the latest first. -/
def doubleQuoted? : Nat → List Char → Source → Option (List Char × Source)
  | 0, _, _ => none
  | fuel + 1, done, s =>
    match s.rest with
    | [] => none
    | '"' :: _ => some (done.reverse, s.step)
    | '\\' :: rest =>
      if rest.head?.any isBreak then
        let (between, next) := gap (s.skip 2)
        if next.isMark then none
        else doubleQuoted? fuel ((between.filter isBreak).reverse ++ done) next
      else (escape? rest).bind fun (c, n) => doubleQuoted? fuel (c :: done) (s.skip (n + 1))
    | c :: _ =>
      if isSpace c then
        let (between, next) := gap s
        if next.isMark then none else doubleQuoted? fuel ((folded between).reverse ++ done) next
      else doubleQuoted? fuel (c :: done) s.step

def singleQuoted? : Nat → List Char → Source → Option (List Char × Source)
  | 0, _, _ => none
  | fuel + 1, done, s =>
    match s.rest with
    | [] => none
    | '\'' :: '\'' :: _ => singleQuoted? fuel ('\'' :: done) (s.skip 2)
    | '\'' :: _ => some (done.reverse, s.step)
    | c :: _ =>
      if isSpace c then
        let (between, next) := gap s
        if next.isMark then none else singleQuoted? fuel ((folded between).reverse ++ done) next
      else singleQuoted? fuel (c :: done) s.step

def quoted? (s : Source) : Option (String × Source) :=
  let read := match s.rest with
    | '"' :: rest => doubleQuoted? (rest.length + 1) [] s.step
    | '\'' :: rest => singleQuoted? (rest.length + 1) [] s.step
    | _ => none
  read.map fun (cs, s) => (String.ofList cs, s)

end Telemetry.Yaml
