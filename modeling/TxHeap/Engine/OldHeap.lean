import TxHeap.Engine.State

/-! Objects and where their words are: in the old heap, in a nursery or in a private copy. -/

namespace TxHeap

structure Span where
  base : Nat
  length : Nat
deriving DecidableEq, Repr

namespace Engine

def oldWords (e : Engine) (r : Ref) : Except Fault Span := do
  let room ← Arena.usable e.arena.memory r.bits
  let lo := Word.index r.bits
  let hi := Word.index (r.bits + room)
  if lo ≤ hi ∧ hi ≤ e.arena.memory.size then return ⟨lo, hi - lo⟩ else throw .outOfBounds

def oldWord (e : Engine) (s : Span) (i : Nat) : UInt64 := e.arena.memory.word (s.base + i)

def oldView (e : Engine) (s : Span) : View := ⟨s.length, e.oldWord s⟩

/-- The nursery's words in use from the young object at `r` on, if `r` is in the nursery of `k`. -/
def youngWords? (e : Engine) (k : SegmentId) (r : Ref) : Option Span :=
  let used := (e.segment k).used
  if r.segment = k ∧ r.offset < used then
    some ⟨Word.index r.offset, Word.index used - Word.index r.offset⟩
  else none

def youngWord (e : Engine) (k : SegmentId) (s : Span) (i : Nat) : UInt64 :=
  (e.segment k).nursery.word (s.base + i)

def youngView (e : Engine) (k : SegmentId) (s : Span) : View := ⟨s.length, e.youngWord k s⟩

def heapUse (e : Engine) : UInt64 := e.arena.inUse

def majorDue (e : Engine) : Bool := e.heapUse > e.majorThreshold

def roundSize? (e : Engine) (size : UInt64) : Option UInt64 :=
  if size > e.arena.capacity then none
  else
    let size := Word.alignUp size 8
    some (if size < Settings.minObject then Settings.minObject else size)

end Engine

def View.ofArray (words : Array UInt64) : View := ⟨words.size, fun i => words.getD i 0⟩

def arrayView (words : Array UInt64) (_ : Engine) : View := .ofArray words

def oldSpan (r : Ref) : EngineM Span := inspectEngine (·.oldWords r)

def sizeIn (view : Engine → View) : EngineM UInt64 := do
  let room := (view (← get)).length
  let size ← inspectEngine fun e => e.layout.size (view e)
  if size < Settings.minObject ∨ size % 8 ≠ 0 ∨ (size / 8).toNat > room then
    raise (.badSize size (room * 8))
  return size

def oldObject (r : Ref) : EngineM Span := do
  let s ← oldSpan r
  let size ← sizeIn (·.oldView s)
  return ⟨s.base, (size / 8).toNat⟩

/-- The slots among `slots` that lie in an object of `length` words, the target of a weak
reference apart. -/
def innerSlots (length : Nat) (weak : Bool) (slots : List Int) : List Nat :=
  slots.filterMap fun i =>
    if i ≤ 0 ∨ i > (length : Int) - 1 ∨ (weak ∧ i = (length : Int) - 1) then none else some i.toNat

def slotsIn (view : Engine → View) (weak : Bool) : EngineM (List Nat) :=
  inspectEngine fun e => do
    let v := view e
    return innerSlots v.length weak (← e.layout.slots v)

def getOld (s : Span) (i : Nat) : EngineM UInt64 :=
  inspectEngine fun e => if i < s.length then .ok (e.oldWord s i) else .error .outOfBounds

def setOld (s : Span) (i : Nat) (v : UInt64) : EngineM Unit :=
  if i < s.length then onArena (Arena.store (s.base + i) v) else throw (.fault .outOfBounds)

def getYoung (k : SegmentId) (s : Span) (i : Nat) : EngineM UInt64 :=
  inspectEngine fun e => if i < s.length then .ok (e.youngWord k s i) else .error .outOfBounds

def setYoung (k : SegmentId) (s : Span) (i : Nat) (v : UInt64) : EngineM Unit :=
  if i < s.length then
    updateSegment k fun g => { g with nursery := g.nursery.write (s.base + i) v }
  else throw (.fault .outOfBounds)

def header (r : Ref) : EngineM UInt64 :=
  inspectEngine (·.arena.memory.read? (Word.index r.bits))

def setHeader (r : Ref) (h : UInt64) : EngineM Unit := onArena (Arena.store (Word.index r.bits) h)

def copyFrom (s : Span) (i : Nat) : List UInt64 → EngineM Unit
  | [] => pure ()
  | v :: rest => do
    setOld s i v
    copyFrom s (i + 1) rest

def copyToOld (s : Span) (words : List UInt64) : EngineM Unit := copyFrom s 1 (words.drop 1)

def growFor (need : UInt64) : EngineM Bool := do
  let cur := (← get).arena.size
  let top := (← get).arena.top
  let capacity := (← get).arena.capacity
  let floor := top + need + Arena.overhead + Arena.alignment
  let next := if cur * 2 < floor then floor else cur * 2
  let next := if next > capacity then capacity else next
  if next ≤ cur then return false
  let grown ← onArena (modifyGet (Arena.resize next))
  if !grown then return false
  logInfo .arenaResize (-1) [("from", .uint cur), ("to", .uint (← get).arena.size)]
  return true

def mallocWithin (size : UInt64) : Nat → EngineM Ref
  | 0 => throw (.fault .endless)
  | n + 1 => do
    let p ← onArena (Arena.malloc size)
    if p ≠ 0 then return ⟨p⟩
    if ← growFor size then mallocWithin size n else return .null

/-- Allocates `size` bytes in the old heap, which grows up to its reservation; null if that is used
up. -/
def mallocOld (size : UInt64) : EngineM Ref := mallocWithin size 66

def resetNursery (k : SegmentId) : EngineM Unit :=
  updateSegment k fun s =>
    { s with nursery := s.nursery.clear 0 (Word.index s.used), used := 0, objects := #[] }

end TxHeap
