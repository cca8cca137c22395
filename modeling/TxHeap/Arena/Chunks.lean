import TxHeap.Arena.Basic

/-! Walks over the chunks of an arena in address order. A walk over a damaged chain that would not
end is a fault. -/

namespace TxHeap.Arena

/-- More steps than a walk that ends can take: it meets no offset below `top` twice. -/
def walkBound (a : Arena) : Nat := a.top.toNat + 1

/-- What a visitor answers: its value so far, whether the chunk is to be freed, whether to stop. -/
structure Visit (β : Type) where
  value : β
  free : Bool := false
  stop : Bool := false

def walkFrom {β : Type} (visit : β → UInt64 → UInt64 → Memory → Except Fault (Visit β)) :
    Nat → UInt64 → β → ArenaM β
  | 0, _, _ => throw .endless
  | n + 1, off, value => do
    if off < (← get).top then
      let size ← inspect (chunkSize · off)
      if ← inspect (isFree · off) then walkFrom visit n (off + size) value
      else
        let v ← inspect (visit value (off + overhead) (size - overhead))
        if v.free then release (off + overhead)
        if v.stop then return v.value else walkFrom visit n (off + size) v.value
    else return value

/-- Visits the payload offset and size of every allocated chunk in address order until the visitor
stops. -/
def walk {β : Type} (visit : β → UInt64 → UInt64 → Memory → Except Fault (Visit β)) (init : β) :
    ArenaM β := do
  walkFrom visit (walkBound (← get)) 0 init

inductive Damage
  | badSize (size off : UInt64)
  | badBack (off got want : UInt64)
  | topBeyondSize (top size : UInt64)
deriving Repr, DecidableEq

def verifyFrom (a : Arena) : Nat → UInt64 → UInt64 → Except Fault (Option Damage)
  | 0, _, _ => .error .endless
  | n + 1, off, back => do
    if off < a.top then
      let size ← chunkSize a.memory off
      if size < minChunk ∨ size % alignment ≠ 0 ∨ off + size > a.top then
        return some (.badSize size off)
      let got ← a.memory.read? (Word.index off)
      if got ≠ back then return some (.badBack off got back)
      verifyFrom a n (off + size) size
    else if a.top > a.size then return some (.topBeyondSize a.top a.size)
    else return none

def verify (a : Arena) : Except Fault (Option Damage) := verifyFrom a (walkBound a) 0 0

def countFrom (a : Arena) : Nat → UInt64 → Nat → Except Fault Nat
  | 0, _, _ => .error .endless
  | n + 1, off, count => do
    if off < a.top then countFrom a n (off + (← chunkSize a.memory off)) (count + 1)
    else return count

def chunkCount (a : Arena) : Except Fault Nat := countFrom a (walkBound a) 0 0

end TxHeap.Arena
