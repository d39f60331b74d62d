/-
Codes for symbols that are used so often.

The lengths of words are those of a tree that joins the two rarest again and
again.  No word may be longer than a limit: words that are get the limit, and
shorter ones make room for them.  The words themselves follow from the lengths.

Lengths are counted from the greatest one down to one, so that what comes later
in a list of counts takes twice as much room.
-/
import Telemetry.Gzip.Bits

namespace Telemetry.Gzip.CodeLengths

/-- A tree by the uses of its symbols and the depths they lie at. -/
structure Joined where
  uses : Nat
  depths : List Nat

def Joined.join (a b : Joined) : Joined :=
  ⟨a.uses + b.uses, (a.depths ++ b.depths).map (· + 1)⟩

/-- Takes the rarer of the first of two queues; of two that are used equally often,
the one that is a single symbol. -/
def takeRarest : List Joined → List Joined → Option (Joined × List Joined × List Joined)
  | [], [] => none
  | leaf :: leaves, [] => some (leaf, leaves, [])
  | [], tree :: trees => some (tree, [], trees)
  | leaf :: leaves, tree :: trees =>
    if tree.uses < leaf.uses then some (tree, leaf :: leaves, trees)
    else some (leaf, leaves, tree :: trees)

/-- Joins the two rarest until one tree is left. -/
def joinAll : Nat → List Joined → List Joined → Option Joined
  | 0, _, _ => none
  | fuel + 1, leaves, trees =>
    match takeRarest leaves trees with
    | none => none
    | some (a, leaves, trees) =>
      match takeRarest leaves trees with
      | none => some a
      | some (b, leaves, trees) => joinAll fuel leaves (trees ++ [a.join b])

/-- The depths of symbols, given their uses from the rarest on. -/
def depths (uses : List Nat) : List Nat :=
  match uses with
  | [] => []
  | [_] => [1]
  | _ => ((joinAll uses.length (uses.map fun n => ⟨n, [0]⟩) []).map Joined.depths).getD []

/-- How many words there are of each length from a limit down; depths beyond it are cut. -/
def countsUpTo (limit : Nat) (depths : List Nat) : List Nat :=
  depths.foldl (fun counts d => counts.modify (limit - min d limit) (· + 1))
    (List.replicate limit 0)

/-- How much room words take, in words of the greatest length. -/
def room : List Nat → Nat
  | [] => 0
  | n :: shorter => n + 2 * room shorter

/-- Puts two words of one bit more in the place of the longest word of some counts, in front
of which there are `n` of that length. -/
def makeRoom : Nat → List Nat → List Nat
  | n, [] => [n]
  | n, 0 :: shorter => n :: makeRoom 0 shorter
  | n, (m + 1) :: shorter => (n + 2) :: m :: shorter

/-- One word fewer of the greatest length, and room made for it. -/
def shorten : List Nat → List Nat
  | [] => []
  | n :: shorter => makeRoom (n - 1) shorter

def shortenBy : Nat → List Nat → List Nat
  | 0, counts => counts
  | n + 1, counts => shortenBy n (shorten counts)

/-- How many words there are of each length once they have room. -/
def limitedCounts (limit : Nat) (depths : List Nat) : List Nat :=
  let counts := countsUpTo limit depths
  shortenBy (room counts - 1 <<< limit) counts

/-- Every length as often as there are words of it, the shortest first. -/
def spread : Nat → List Nat → List Nat
  | _, [] => []
  | length, n :: shorter => spread (length - 1) shorter ++ List.replicate n length

/-- The symbols that are used, with their uses, from the rarest on. -/
def rarestFirst (uses : List Nat) : List (Nat × Nat) :=
  (uses.zipIdx.filter fun (n, _) => n ≠ 0).mergeSort fun a b => a.1 ≤ b.1

/-- The lengths of so many words, of which the others have none. -/
def assign (size : Nat) (lengths : List (Nat × Nat)) : List Nat :=
  (lengths.foldl (fun (out : Array Nat) (symbol, length) => out.setIfInBounds symbol length)
    (Array.replicate size 0)).toList

/-- The length of the word of every symbol, given their uses; what is not used has
no word. -/
def ofUses (limit : Nat) (uses : List Nat) : List Nat :=
  let used := rarestFirst uses
  let lengths := spread limit (limitedCounts limit (depths (used.map Prod.fst)))
  assign uses.length ((used.reverse.map Prod.snd).zip lengths)

/-- The `n` low bits of a number, the highest first. -/
def word : Nat → Nat → List Bool
  | 0, _ => []
  | n + 1, x => x.testBit n :: word n x

/-- The first word of a length, as a number. -/
def firstWord (lengths : List Nat) : Nat → Nat
  | 0 => 0
  | n + 1 => 2 * (firstWord lengths n + lengths.countP fun l => l = n ∧ l ≠ 0)

/-- The words of symbols, each the next one of its length. -/
def wordsFrom : Array Nat → List Nat → List (List Bool)
  | _, [] => []
  | next, length :: rest =>
    word length ((next[length]?).getD 0) :: wordsFrom (next.modify length (· + 1)) rest

/-- The word of every symbol: those of one length follow each other. -/
def words (lengths : List Nat) : Array (List Bool) :=
  (wordsFrom ((List.range 16).map (firstWord lengths)).toArray lengths).toArray

end Telemetry.Gzip.CodeLengths
