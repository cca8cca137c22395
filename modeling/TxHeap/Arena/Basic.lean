import TxHeap.Memory
import TxHeap.Word

/-! A first-fit allocator over a block of words. Chunks cover the bytes below `top`; each begins
with the size of the one before it and its own, whose lowest bit says that it is free. -/

namespace TxHeap

structure Arena where
  memory : Memory
  size : UInt64
  /-- The first byte no chunk covers. -/
  top : UInt64 := 0
  /-- Where the highest chunk begins, if there is one. -/
  last : UInt64 := 0
  free : Array UInt64 := #[]
  inUse : UInt64 := 0
  mallocs : UInt64 := 0
  frees : UInt64 := 0
  failures : UInt64 := 0
  coalesced : UInt64 := 0

/-- A computation on an arena. What it changed before a fault stays changed. -/
abbrev ArenaM := EStateM Fault Arena

namespace Arena

def overhead : UInt64 := 16

/-- Every payload begins at a multiple of this many bytes. -/
def alignment : UInt64 := 16

def minChunk : UInt64 := overhead + alignment

def freeBit : UInt64 := 1

inductive SizeError
  | tooSmall (size : UInt64)
  | exceedsMemory (size : UInt64)
deriving Repr, DecidableEq

def capacity (a : Arena) : UInt64 := UInt64.ofNat a.memory.size * 8

/-- An arena that manages the first `size` bytes of `memory`. -/
def ofMemory (memory : Memory) (size : UInt64) : Except SizeError Arena :=
  let size := Word.alignDown size alignment
  if size < minChunk then .error (.tooSmall size)
  else if size > UInt64.ofNat memory.size * 8 then .error (.exceedsMemory size)
  else .ok { memory, size }

def sizeWord (m : Memory) (off : UInt64) : Except Fault UInt64 := m.read? (Word.index off + 1)

def chunkSize (m : Memory) (off : UInt64) : Except Fault UInt64 :=
  return (← sizeWord m off) &&& ~~~freeBit

def isFree (m : Memory) (off : UInt64) : Except Fault Bool :=
  return (← sizeWord m off) &&& freeBit != 0

def inspect {α : Type} (f : Memory → Except Fault α) : ArenaM α := fun a =>
  match f a.memory with
  | .ok r => .ok r a
  | .error e => .error e a

def store (i : Nat) (v : UInt64) : ArenaM Unit := fun a =>
  if i < a.memory.size then .ok () { a with memory := a.memory.write i v }
  else .error .outOfBounds a

def setBack (off size : UInt64) : ArenaM Unit := store (Word.index off) size

def setSize (off size : UInt64) (free : Bool) : ArenaM Unit :=
  store (Word.index off + 1) (if free then size ||| freeBit else size)

def clearPayload (off size : UInt64) : ArenaM Unit := fun a =>
  let lo := Word.index (off + overhead)
  let hi := Word.index (off + size)
  if lo ≤ hi ∧ hi ≤ a.memory.size then .ok () { a with memory := a.memory.clear lo hi }
  else .error .outOfBounds a

/-- The first listed chunk with room for `need` bytes: its place in the list, its offset and its
size. -/
def firstFit (m : Memory) (need : UInt64) (i : Nat) :
    List UInt64 → Except Fault (Option (Nat × UInt64 × UInt64))
  | [] => .ok none
  | off :: rest => do
    let size ← chunkSize m off
    if size < need then firstFit m need (i + 1) rest else return some (i, off, size)

def sortOffsets (offs : Array UInt64) : Array UInt64 :=
  (offs.toList.mergeSort (fun a b => decide (a ≤ b))).toArray

/-- Cuts the chunk at `off` down to `need` bytes; the rest becomes a free chunk. -/
def split (off size need : UInt64) : ArenaM Unit := do
  let rest := off + need
  setBack rest need
  setSize rest (size - need) true
  let next := off + size
  if next < (← get).top then setBack next (size - need)
  else modify fun a => { a with last := rest }
  modify fun a => { a with free := sortOffsets (a.free.push rest) }

def chunkFor (n : UInt64) : UInt64 :=
  let need := Word.alignUp n alignment + overhead
  if need < minChunk then minChunk else need

def fail : ArenaM UInt64 := do
  modify fun a => { a with failures := a.failures + 1 }
  return 0

def allocated (off size : UInt64) : ArenaM UInt64 := do
  modify fun a => { a with mallocs := a.mallocs + 1, inUse := a.inUse + size }
  return off + overhead

/-- Takes the free chunk at place `i` of the list for a chunk of `need` bytes. -/
def takeFree (need : UInt64) (i : Nat) (off size : UInt64) : ArenaM UInt64 := do
  modify fun a => { a with free := a.free.eraseIdxIfInBounds i }
  let large := size - need ≥ minChunk
  if large then split off size need
  let size := if large then need else size
  setSize off size false
  clearPayload off size
  allocated off size

def takeTop (need : UInt64) : ArenaM UInt64 := do
  let off := (← get).top
  let last := (← get).last
  let back ← if off > 0 then inspect (chunkSize · last) else pure 0
  setBack off back
  setSize off need false
  clearPayload off need
  modify fun a => { a with last := off, top := a.top + need }
  allocated off need

/-- The payload offset of a chunk of at least `n` bytes, or 0 if there is no room. -/
def malloc (n : UInt64) : ArenaM UInt64 := do
  if n > (← get).size then fail
  else
    let need := chunkFor n
    let offs := (← get).free.toList
    match ← inspect (firstFit · need 0 offs) with
    | some (i, off, size) => takeFree need i off size
    | none =>
      if (← get).top + need > (← get).size then fail else takeTop need

def release (p : UInt64) : ArenaM Unit := do
  let off := p - overhead
  let size ← inspect (chunkSize · off)
  setSize off size true
  modify fun a =>
    { a with free := a.free.push off, frees := a.frees + 1, inUse := a.inUse - size }

def usable (m : Memory) (p : UInt64) : Except Fault UInt64 :=
  return (← chunkSize m (p - overhead)) - overhead

/-- Changes the managed size, unless it would pass the memory or cut into a chunk. -/
def resize (n : UInt64) (a : Arena) : Bool × Arena :=
  let n := Word.alignDown n alignment
  if n > a.capacity ∨ n < a.top then (false, a) else (true, { a with size := n })

def reset (a : Arena) : Arena := { memory := a.memory, size := a.size }

end Arena

end TxHeap
