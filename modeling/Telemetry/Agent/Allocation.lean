/-
Allocation accounting.

Four totals follow the blocks that are handed out and given back.  Callers name
the sizes of blocks themselves, and the totals go by what they name.  Resizing a
block counts as giving it back and handing out another; a refused call counts
for nothing.  `Heap` keeps the blocks that are live beside the totals.
-/
import Telemetry.Text.Integer

namespace Telemetry.Agent

/-- Totals over all blocks, modulo `2 ^ 64`. -/
structure Usage where
  /-- Octets in live blocks. -/
  live : UInt64
  /-- Octets ever handed out. -/
  total : UInt64
  /-- Blocks ever handed out. -/
  grants : UInt64
  /-- Blocks ever given back. -/
  frees : UInt64
deriving DecidableEq, Repr, Inhabited

namespace Usage

def zero : Usage := ⟨0, 0, 0, 0⟩

/-- A block is handed out. -/
def grant (u : Usage) (size : UInt64) : Usage :=
  { u with live := u.live + size, total := u.total + size, grants := u.grants + 1 }

/-- A block is given back. -/
def free (u : Usage) (size : UInt64) : Usage :=
  { u with live := u.live - size, frees := u.frees + 1 }

def heapObjects (u : Usage) : UInt64 := if u.frees ≤ u.grants then u.grants - u.frees else 0

end Usage

/-- A call of the allocator.  The caller names the size that a block has so far;
whether a block is granted is up to the system. -/
inductive Heap.Call where
  /-- Asks for a block, zeroed or not. -/
  | allocate (size : UInt64) (granted : Bool)
  /-- Asks to change the size of a block. -/
  | resize (block : Nat) (current size : UInt64) (granted : Bool)
  /-- Gives a block back. -/
  | release (block : Nat) (current : UInt64)
deriving DecidableEq, Repr

/-- Counts a call by the sizes that it names. -/
def Usage.count (u : Usage) : Heap.Call → Usage
  | .allocate size true => u.grant size
  | .resize _ current size true => (u.free current).grant size
  | .release _ current => u.free current
  | .allocate _ false | .resize _ _ _ false => u

/-- A request to the heap.  Whether it is granted is not the heap's choice. -/
inductive Request where
  /-- Asks for a block, zeroed or not. -/
  | allocate (size : UInt64) (granted : Bool)
  /-- Asks to change the size of a block. -/
  | resize (block : Nat) (size : UInt64) (granted : Bool)
  /-- Gives a block back. -/
  | release (block : Nat)
deriving DecidableEq, Repr

/-- The live blocks and the totals. -/
structure Heap where
  usage : Usage
  /-- The live blocks: number and size. -/
  blocks : List (Nat × UInt64)
  /-- The number of the next block. -/
  next : Nat
deriving DecidableEq, Repr, Inhabited

namespace Heap

def empty : Heap := ⟨.zero, [], 0⟩

def size? (h : Heap) (block : Nat) : Option UInt64 :=
  (h.blocks.find? (·.1 = block)).map (·.2)

/-- The live blocks without one of them. -/
def without (h : Heap) (block : Nat) : List (Nat × UInt64) := h.blocks.filter (·.1 ≠ block)

/-- Takes a call.  A block keeps its number when it is resized, and its size when that is refused. -/
def take (h : Heap) (c : Call) : Heap :=
  match c with
  | .allocate size true => ⟨h.usage.count c, (h.next, size) :: h.blocks, h.next + 1⟩
  | .resize block _ size true => ⟨h.usage.count c, (block, size) :: h.without block, h.next⟩
  | .release block _ => ⟨h.usage.count c, h.without block, h.next⟩
  | .allocate _ false | .resize _ _ _ false => ⟨h.usage.count c, h.blocks, h.next⟩

/-- The call that a request comes to; there is none about a block that is not live. -/
def call? (h : Heap) : Request → Option Call
  | .allocate size granted => some (.allocate size granted)
  | .resize block size granted =>
    (h.size? block).map fun current => .resize block current size granted
  | .release block => (h.size? block).map (.release block)

/-- Serves a request; one about a block that is not live changes nothing. -/
def serve (h : Heap) (r : Request) : Heap := (h.call? r).elim h h.take

end Heap

end Telemetry.Agent
