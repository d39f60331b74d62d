/-
Repetitions.

Content is written as literals and as copies of what precedes them.  Where a
copy may come from is found by a key of the next three octets: the places with
the same key form a chain, the latest first, of which only so many are looked
at.  A short copy is held back by one octet, in case a longer one begins there.
-/
import Telemetry.Gzip.Inflate

namespace Telemetry.Gzip.Repeats

/-- A copy that could be made. -/
structure Copy where
  length : Nat
  distance : Nat
deriving DecidableEq, Repr

/-- The shortest copy there is. -/
def minLength : Nat := 3

def maxLength : Nat := 258

/-- The length from which on a copy is not held back. -/
def goodLength : Nat := 128

/-- The distance from which on the shortest copy is not worth it. -/
def farDistance : Nat := 8192

def octet (data : Array UInt8) (i : Nat) : UInt8 := (data[i]?).getD 0

def keyCount : Nat := 32768

/-- The key of three octets. -/
def key (a b c : UInt8) : Nat :=
  (((a.toUInt32 <<< 10) ^^^ (b.toUInt32 <<< 5) ^^^ c.toUInt32) % 32768).toNat

/-- Links the places from `i` on, at which content begins; `latest` holds the latest
place of every key, and `chain` the links before. -/
def link : Bytes → Nat → Array Nat → Array Nat → Array Nat
  | a :: b :: c :: rest, i, latest, chain =>
    let k := key a b c
    let previous := (latest[k]?).getD 0
    link (b :: c :: rest) (i + 1) (latest.setIfInBounds k i) (chain.push previous)
  | _, _, _, chain => chain

/-- For every place the latest one before it with the same key, or zero. -/
def links (b : Bytes) : Array Nat := link b 0 (Array.replicate keyCount 0) #[]

/-- How many octets from two places on agree, up to a limit. -/
def agreement (data : Array UInt8) : Nat → Nat → Nat → Nat
  | 0, _, _ => 0
  | limit + 1, i, j =>
    if octet data i = octet data j then agreement data limit (i + 1) (j + 1) + 1 else 0

/-- Whether two octets from two places on agree. -/
def agreeTwice (data : Array UInt8) (i j : Nat) : Bool := agreement data 2 i j = 2

/-- What a few steps along a chain lead to. -/
inductive Candidate where
  /-- The chain is at its end. -/
  | ended
  /-- Nothing so far; the chain goes on from a place. -/
  | missed (place : Nat)
  /-- A place where a copy would be longer than the one known. -/
  | found (place : Nat)

/-- Follows a chain for some steps, to a place from which on the last octet of the
known copy and the one behind it agree. -/
def candidate (data : Array UInt8) (chain : Array Nat) (here known : Nat) : Nat → Nat → Candidate
  | 0, place => .missed place
  | steps + 1, place =>
    match (chain[place]?).getD 0 with
    | 0 => .ended
    | next =>
      if agreeTwice data (next + known - 1) (here + known - 1) then .found next
      else candidate data chain here known steps next

/-- Looks along a chain for copies that are longer than a known length, in rounds
of three steps each. -/
def search (data : Array UInt8) (chain : Array Nat) (here limit : Nat) :
    Nat → Nat → Nat → Option Copy → Option Copy
  | 0, _, _, best => best
  | rounds + 1, place, known, best =>
    match candidate data chain here known 3 place with
    | .ended => best
    | .missed next => search data chain here limit rounds next known best
    | .found next =>
      let length := agreement data limit next here
      if known < length then
        let best := some ⟨length, here - next⟩
        if length = limit then best else search data chain here limit rounds next length best
      else search data chain here limit rounds next known best

/-- How many rounds a search takes; a good copy is worth fewer. -/
def rounds (known : Nat) : Nat := if 32 ≤ known then 11 else 43

/-- The longest copy at a place that is longer than a known length and worth it. -/
def longer (data : Array UInt8) (chain : Array Nat) (here known : Nat) : Option Copy :=
  let limit := min maxLength (data.size - here)
  if limit ≤ known then none
  else
    (search data chain here limit (rounds known) here known none).filter fun c =>
      ¬ (c.length = minLength ∧ farDistance ≤ c.distance)

/-- The items of content from a place on, in front of which a copy may be held
back; `done` holds the items before it, the latest first. -/
def itemsFrom (data : Array UInt8) (chain : Array Nat) :
    Nat → Nat → Option (UInt8 × Copy) → List Item → List Item
  | 0, _, _, done => done.reverse
  | fuel + 1, here, held, done =>
    if data.size ≤ here then done.reverse
    else
      let x := octet data here
      match held with
      | some (literal, copy) =>
        match longer data chain here copy.length with
        | some c =>
          if goodLength ≤ c.length then
            itemsFrom data chain fuel (here + c.length) none
              (.copy c.length c.distance :: .literal literal :: done)
          else itemsFrom data chain fuel (here + 1) (some (x, c)) (.literal literal :: done)
        | none =>
          itemsFrom data chain fuel (here + (copy.length - 1)) none
            (.copy copy.length copy.distance :: done)
      | none =>
        match longer data chain here (minLength - 1) with
        | some c =>
          if goodLength ≤ c.length then
            itemsFrom data chain fuel (here + c.length) none (.copy c.length c.distance :: done)
          else itemsFrom data chain fuel (here + 1) (some (x, c)) done
        | none => itemsFrom data chain fuel (here + 1) none (.literal x :: done)

/-- The items of content. -/
def items (b : Bytes) : List Item :=
  let data := b.toArray
  itemsFrom data (links b) (data.size + 1) 0 none []

end Telemetry.Gzip.Repeats
