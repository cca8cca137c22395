import TxHeap.Arena.Chunks

/-! Sweeping merges runs of free chunks, gives one that reaches the top back to it, and rebuilds the
free list in address order. -/

namespace TxHeap.Arena

/-- The free chunks that follow one another from `next` on: their total size and number. -/
def freeRun (m : Memory) (top : UInt64) : Nat → UInt64 → UInt64 → Nat →
    Except Fault (UInt64 × Nat)
  | 0, _, _, _ => .error .endless
  | n + 1, next, total, count => do
    if next < top then
      if ← isFree m next then
        let size ← chunkSize m next
        freeRun m top n (next + size) (total + size) (count + 1)
      else return (total, count)
    else return (total, count)

structure Progress where
  back : UInt64 := 0
  last : UInt64 := 0
  free : Array UInt64 := #[]
  merged : Nat := 0

def sweepFrom : Nat → UInt64 → Progress → ArenaM Progress
  | 0, _, _ => throw .endless
  | n + 1, off, p => do
    if off < (← get).top then
      let size ← inspect (chunkSize · off)
      if !(← inspect (isFree · off)) then
        setBack off p.back
        sweepFrom n (off + size) { p with back := size, last := off }
      else
        let top := (← get).top
        let (total, count) ← inspect (freeRun · top (top.toNat + 1) (off + size) size 0)
        let merged := p.merged + count
        if off + total == top then
          modify fun a => { a with top := off }
          return { p with merged := merged + 1 }
        else
          setBack off p.back
          setSize off total true
          -- the list is rebuilt in its own place
          modify fun a => { a with free := a.free.setIfInBounds p.free.size off }
          sweepFrom n (off + total)
            { back := total, last := off, free := p.free.push off, merged }
    else return p

def sweep : ArenaM Nat := do
  let p ← sweepFrom (walkBound (← get)) 0 {}
  modify fun a =>
    { a with free := p.free, last := p.last, coalesced := a.coalesced + UInt64.ofNat p.merged }
  return p.merged

end TxHeap.Arena
