/-
Canonical codes.

A code is given by the length of every symbol's word.  Its tree is built from
the longest words upwards: on each level the symbols of that length come first,
then the pairs of what lies one level deeper.  A code is usable when its words
fill the tree exactly, or when it has at most one word, of a single bit.
-/
import Telemetry.Gzip.Bits

namespace Telemetry.Gzip

/-- A binary tree of words; `vacant` is where no word leads. -/
inductive CodeTree where
  | vacant
  | symbol (value : Nat)
  | branch (zero one : CodeTree)
deriving DecidableEq, Repr

namespace CodeTree

/-- The longest word there is. -/
def maxLength : Nat := 15

def pairs : List CodeTree → List CodeTree
  | a :: b :: rest => branch a b :: pairs rest
  | [a] => [branch a vacant]
  | [] => []

/-- The symbols whose words have a length. -/
def symbolsOf (lengths : List Nat) (length : Nat) : List CodeTree :=
  lengths.zipIdx.filterMap fun (l, i) => if l = length then some (symbol i) else none

/-- The trees at a depth of `maxLength - up`. -/
def level (lengths : List Nat) : Nat → List CodeTree
  | 0 => symbolsOf lengths maxLength
  | up + 1 => symbolsOf lengths (maxLength - (up + 1)) ++ pairs (level lengths up)

/-- How much of the tree the words fill, in units of the longest word. -/
def filled (lengths : List Nat) : Nat :=
  lengths.foldl (fun n l => if l = 0 then n else n + 1 <<< (maxLength - l)) 0

/-- Whether the words of a code fill its tree exactly. -/
def isComplete (lengths : List Nat) : Bool := filled lengths = 1 <<< maxLength

/-- Whether a code has at most one word, of a single bit. -/
def isSingle (lengths : List Nat) : Bool :=
  let used := lengths.filter (· ≠ 0)
  used = [] || used = [1]

/-- The tree of a code, if the code is usable. -/
def ofLengths (lengths : List Nat) : Except Stop CodeTree :=
  if isComplete lengths || isSingle lengths then
    .ok ((pairs (level lengths (maxLength - 1))).headD (branch vacant vacant))
  else .error .corrupt

/-- The symbol whose word comes next. -/
def read : CodeTree → Bits → Except Stop (Nat × Bits)
  | vacant, _ => .error .corrupt
  | symbol value, s => .ok (value, s)
  | branch zero one, s =>
    match s.next with
    | .error e => .error e
    | .ok (true, s) => one.read s
    | .ok (false, s) => zero.read s

end CodeTree

end Telemetry.Gzip
