import TxHeap.Engine.Evacuation

/-! Small objects come from the segment's nursery, after a minor collection if it is full; large
ones from the old heap. -/

namespace TxHeap

def bump? (k : SegmentId) (size : UInt64) : EngineM (Option Ref) := do
  let used := ((← get).segment k).used
  let room := UInt64.ofNat ((← get).segment k).nursery.size * 8
  if used + size > room then return none
  updateSegment k fun s => { s with used := used + size, objects := s.objects.push used }
  return some (.young k used)

def roundSize (x : TxnId) (size : UInt64) : EngineCall UInt64 := do
  match (← look (·.roundSize? size)) with
  | some n => return n
  | none => abortWith x (.heapExhaustedBy size)

def allocLarge (x : TxnId) (size : UInt64) : EngineCall Ref := do
  let t ← look fun e => (e.txn x).thread
  lock .engine
  park (.thread t)
  let r ← mallocOld size
  unlock .engine
  if r = .null then abortWith x (.heapExhaustedBy size)
  else
    updateTxn x (·.noteCreated r)
    return r

def allocAfterMinor (x : TxnId) (size : UInt64) : EngineCall Ref := do
  let t ← look fun e => (e.txn x).thread
  lock .engine
  park (.thread t)
  let failure ← collectMinor x
  unlock .engine
  if let some cause := failure then abortWith x cause
  else
    match ← bump? (← look fun e => (e.txn x).segment) size with
    | some r => return r
    | none => raise (.nurseryFull size)

def alloc (x : TxnId) (size : UInt64) : EngineCall Ref := do
  check x
  poll (.thread (← look fun e => (e.txn x).thread))
  let size ← roundSize x size
  let k ← look fun e => (e.txn x).segment
  let room := UInt64.ofNat (← look fun e => (e.segment k).nursery.size) * 8
  if size > (← look (·.settings.large)) ∨ size > room then allocLarge x size
  else
    match ← bump? k size with
    | some r => return r
    | none => allocAfterMinor x size

def push (t : ThreadId) (r : Ref) : EngineCall Unit := do
  lock (.stack t)
  updateThread t fun th => { th with stack := th.stack.push r }
  unlock (.stack t)

def popTop (t : ThreadId) : EngineM Ref := do
  match ((← get).thread t).stack.back? with
  | none => raise (.stackUnderflow t)
  | some r =>
    updateThread t fun th => { th with stack := th.stack.pop }
    return r

def pop (t : ThreadId) : EngineCall Ref := withLock (.stack t) (popTop t : EngineM Ref)

/-- A new object of `size` bytes whose last word refers to `target` without keeping it alive. -/
def allocWeak (x : TxnId) (size : UInt64) (target : Ref) : EngineCall Ref := do
  check x
  let size ← roundSize x size
  let t ← look fun e => (e.txn x).thread
  push t target
  let r ← alloc x size
  let target ← pop t
  let last := (size / 8).toNat - 1
  let k ← look fun e => (e.txn x).segment
  if r.isYoung then
    let s ← youngSpan x r
    setYoung k s last target.bits
  else
    let s ← oldSpan r
    setOld s last target.bits
  updateSegment k fun s => { s with weakrefs := s.weakrefs.push r }
  return r

end TxHeap
