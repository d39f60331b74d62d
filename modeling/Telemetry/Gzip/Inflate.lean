/-
Inflating.

A stream is a sequence of blocks: stored octets, or literals and copies of
earlier octets under two codes, which are fixed or written before the block.
`Cursor.read` reads one item of a block and `Item.write` carries it out, so that
the content that was read before a stream turns out to be cut short or corrupt
is known.

A stream comes in pieces, and content is counted by windows and by pieces: once
a window is full and more content follows, or a piece is at its end, content
beyond a limit ends the reading.
-/
import Telemetry.Gzip.CodeTree

namespace Telemetry.Gzip

/-- What the next item of a stream is. -/
inductive Mode where
  /-- The beginning of a block. -/
  | header
  /-- One of the stored octets that are left. -/
  | stored (left : Nat)
  /-- A literal or a copy. -/
  | coded (literals distances : CodeTree)
  /-- Nothing: the last block has ended. -/
  | done

/-- A place in a stream. -/
structure Cursor where
  bits : Bits
  /-- Whether the current block is the last one. -/
  final : Bool
  mode : Mode

/-- What an item adds to the content. -/
inductive Item where
  | nothing
  | literal (x : UInt8)
  | copy (length distance : Nat)
deriving DecidableEq, Repr

namespace Cursor

def start (b : Bytes) : Cursor := ⟨.ofBytes b, false, .header⟩

/-- What follows the end of a block. -/
def blockEnd (final : Bool) : Mode := if final then .done else .header

/-- The word lengths of the fixed code of literals and lengths. -/
def fixedLiterals : List Nat :=
  List.replicate 144 8 ++ List.replicate 112 9 ++ List.replicate 24 7 ++ List.replicate 8 8

/-- The word lengths of the fixed code of distances. -/
def fixedDistances : List Nat := List.replicate 32 5

/-- The order in which the word lengths of the code of word lengths are written. -/
def lengthOrder : List Nat := [16, 17, 18, 0, 8, 7, 9, 6, 10, 5, 11, 4, 12, 3, 13, 2, 14, 1, 15]

/-- Reads `n` numbers of three bits. -/
def shortNumbers : Nat → Bits → Except Stop (List Nat × Bits)
  | 0, s => .ok ([], s)
  | n + 1, s => do
    let (x, s) ← s.number 3
    let (xs, s) ← shortNumbers n s
    .ok (x :: xs, s)

/-- The word lengths of the code of word lengths, by symbol. -/
def lengthLengths (written : List Nat) : List Nat :=
  (List.range 19).map fun symbol =>
    ((lengthOrder.zip written).find? fun entry => entry.1 = symbol).elim 0 Prod.snd

/-- Reads word lengths up to `count` of them; `done` holds those read, the latest
first.  A symbol from sixteen on repeats the latest length or zero. -/
def wordLengths (tree : CodeTree) (count : Nat) : Nat → List Nat → Bits →
    Except Stop (List Nat × Bits)
  | 0, done, s => if done.length = count then .ok (done.reverse, s) else .error .corrupt
  | fuel + 1, done, s =>
    if done.length = count then .ok (done.reverse, s)
    else if count < done.length then .error .corrupt
    else do
      let (symbol, s) ← tree.read s
      if symbol < 16 then wordLengths tree count fuel (symbol :: done) s
      else if symbol = 16 then
        match done with
        | [] => .error .corrupt
        | latest :: _ =>
          let (n, s) ← s.number 2
          wordLengths tree count fuel (List.replicate (3 + n) latest ++ done) s
      else if symbol = 17 then
        let (n, s) ← s.number 3
        wordLengths tree count fuel (List.replicate (3 + n) 0 ++ done) s
      else
        let (n, s) ← s.number 7
        wordLengths tree count fuel (List.replicate (11 + n) 0 ++ done) s

/-- Reads the two codes that are written before a block. -/
def writtenCodes (s : Bits) : Except Stop (CodeTree × CodeTree × Bits) := do
  let (literals, s) ← s.number 5
  let (distances, s) ← s.number 5
  let (written, s) ← s.number 4
  if 29 < literals ∨ 29 < distances then .error .corrupt
  else
    let (short, s) ← shortNumbers (written + 4) s
    let short := lengthLengths short
    let tree ← if CodeTree.isComplete short then CodeTree.ofLengths short else .error .corrupt
    let count := literals + 257 + (distances + 1)
    let (lengths, s) ← wordLengths tree count count [] s
    let literalTree ← CodeTree.ofLengths (lengths.take (literals + 257))
    let distanceTree ← CodeTree.ofLengths (lengths.drop (literals + 257))
    .ok (literalTree, distanceTree, s)

/-- The two fixed codes. -/
def fixedCodes : Except Stop (CodeTree × CodeTree) := do
  let literals ← CodeTree.ofLengths fixedLiterals
  let distances ← CodeTree.ofLengths fixedDistances
  .ok (literals, distances)

/-- Reads the length of a stored block, which is written twice. -/
def storedLength (s : Bits) : Except Stop (Nat × Bits) := do
  let (length, s) ← s.align.number 16
  let (check, s) ← s.number 16
  if length + check = 65535 then .ok (length, s) else .error .corrupt

/-- Reads the beginning of a block. -/
def openBlock (s : Bits) : Except Stop (Bool × Mode × Bits) := do
  let (final, s) ← s.next
  let (kind, s) ← s.number 2
  if kind = 0 then
    let (length, s) ← storedLength s
    .ok (final, .stored length, s)
  else if kind = 1 then
    let (literals, distances) ← fixedCodes
    .ok (final, .coded literals distances, s)
  else if kind = 2 then
    let (literals, distances, s) ← writtenCodes s
    .ok (final, .coded literals distances, s)
  else .error .corrupt

/-- The least length of a length symbol, and how many bits are added to it. -/
def lengthBase (symbol : Nat) : Nat × Nat :=
  let i := symbol - 257
  if i < 8 then (i + 3, 0)
  else if i = 28 then (258, 0)
  else (((4 + i % 4) <<< (i / 4 - 1)) + 3, i / 4 - 1)

/-- The least distance of a distance symbol, and how many bits are added to it. -/
def distanceBase (symbol : Nat) : Nat × Nat :=
  if symbol < 4 then (symbol + 1, 0)
  else (((2 + symbol % 2) <<< (symbol / 2 - 1)) + 1, symbol / 2 - 1)

/-- Reads the length and the distance of a copy. -/
def readCopy (distances : CodeTree) (symbol : Nat) (s : Bits) :
    Except Stop (Nat × Nat × Bits) := do
  let (base, bits) := lengthBase symbol
  let (more, s) ← s.number bits
  let (far, s) ← distances.read s
  if 29 < far then .error .corrupt
  else
    let (least, bits) := distanceBase far
    let (further, s) ← s.number bits
    .ok (base + more, least + further, s)

/-- Reads one item of a block under its codes. -/
def readCoded (literals distances : CodeTree) (final : Bool) (bits : Bits) :
    Except Stop (Item × Cursor) :=
  match literals.read bits with
  | .error e => .error e
  | .ok (symbol, bits) =>
    if symbol < 256 then
      .ok (.literal (UInt8.ofNat symbol), ⟨bits, final, .coded literals distances⟩)
    else if symbol = 256 then .ok (.nothing, ⟨bits, final, blockEnd final⟩)
    else if 285 < symbol then .error .corrupt
    else
      match readCopy distances symbol bits with
      | .error e => .error e
      | .ok (length, distance, bits) =>
        .ok (.copy length distance, ⟨bits, final, .coded literals distances⟩)

/-- Reads one item. -/
def read : Cursor → Except Stop (Item × Cursor)
  | ⟨bits, final, .done⟩ => .ok (.nothing, ⟨bits, final, .done⟩)
  | ⟨bits, _, .header⟩ =>
    match openBlock bits with
    | .error e => .error e
    | .ok (final, mode, bits) => .ok (.nothing, ⟨bits, final, mode⟩)
  | ⟨bits, final, .stored 0⟩ => .ok (.nothing, ⟨bits, final, blockEnd final⟩)
  | ⟨bits, final, .stored (left + 1)⟩ =>
    match bits.bytes with
    | [] => .error .truncated
    | x :: rest => .ok (.literal x, ⟨⟨rest, 0⟩, final, .stored left⟩)
  | ⟨bits, final, .coded literals distances⟩ => readCoded literals distances final bits

/-- With more octets behind those of the stream. -/
def extend (more : Bytes) (c : Cursor) : Cursor :=
  { c with bits := ⟨c.bits.bytes ++ more, c.bits.spent⟩ }

def isDone (c : Cursor) : Bool :=
  match c.mode with
  | .done => true
  | _ => false

end Cursor

/-- The octet some way back; zeros precede the first one. -/
def octetBack (distance : Nat) (out : ByteArray) : UInt8 :=
  if _h : 0 < distance ∧ distance ≤ out.size then out.get (out.size - distance) (by omega) else 0

/-- Repeats the octet `distance` back `n` times over. -/
def repeatBack (distance : Nat) : Nat → ByteArray → ByteArray
  | 0, out => out
  | n + 1, out => repeatBack distance n (out.push (octetBack distance out))

/-- Adds an item to the content. -/
def Item.write : Item → ByteArray → ByteArray
  | nothing, out => out
  | literal x, out => out.push x
  | copy length distance, out => repeatBack distance length out

/-- A stream that is partly read, with its content so far. -/
structure Inflation where
  cursor : Cursor
  /-- The pieces of the stream behind the one that is being read. -/
  later : List Bytes
  out : ByteArray

namespace Inflation

def start (pieces : List Bytes) : Inflation := ⟨.start [], pieces, ⟨#[]⟩⟩

/-- How much content is counted at a time. -/
def window : Nat := 32768

/-- How much content lies in windows that others follow. -/
def counted (size : Nat) : Nat := (size - 1) / window * window

/-- Reads items until the last block has ended, the content that was counted is
longer than a limit, or the stream cannot be read on; the content so far is kept
in every case.  An item that its piece cuts short is read again with the next. -/
def run (limit : Nat) : Nat → Inflation → Option Stop × Inflation
  | 0, s => (some .truncated, s)
  | fuel + 1, s =>
    if s.cursor.isDone || limit < counted s.out.size then (none, s)
    else
      match s.cursor.read with
      | .error .corrupt => (some .corrupt, s)
      | .error .truncated =>
        if limit < s.out.size then (none, s)
        else
          match s.later with
          | [] => (some .truncated, s)
          | piece :: later => run limit fuel ⟨s.cursor.extend piece, later, s.out⟩
      | .ok (item, cursor) => run limit fuel ⟨cursor, s.later, item.write s.out⟩

/-- More steps than a stream can take: an item takes a bit, or ends a stored block,
and every piece but the last has octets. -/
def stepBound (pieces : List Bytes) : Nat :=
  pieces.foldl (fun n piece => n + 16 * piece.length + 16) 16

/-- Reads a stream from its beginning. -/
def inflate (limit : Nat) (pieces : List Bytes) : Option Stop × Inflation :=
  run limit (stepBound pieces) (start pieces)

/-- What follows the stream once it has been read. -/
def rest (s : Inflation) : Bytes := s.cursor.bits.rest ++ s.later.flatten

end Inflation

end Telemetry.Gzip
