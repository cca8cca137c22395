import TxHeap.Engine.Ending

/-! Reading and writing inside a transaction. Its own objects are used in place; others are read at
its read version, and the first write takes a private copy. -/

namespace TxHeap

/-- The lowest bit of a header: the object is being written. -/
def lockBit : UInt64 := 1

def versionOf (h : UInt64) : UInt64 := h >>> 1

def headerFor (version : UInt64) : UInt64 := version <<< 1

/-- Whether a transaction with read version `rv` must not use an object with header `h`. -/
def isStale (h rv : UInt64) : Bool := h &&& lockBit != 0 || versionOf h > rv

def checkWord (r : Ref) (w : Int) (length : Nat) : EngineM Nat :=
  if w < 1 ∨ w ≥ length then raise (.badWord w r) else return w.toNat

namespace Txn

def copyOf? (tx : Txn) (r : Ref) : Option (Array UInt64) :=
  (tx.writes.find? (·.1 == r)).map (·.2)

def noteRead (tx : Txn) (r : Ref) (version : UInt64) : Txn :=
  if (tx.reads.lookup r).isSome then tx else { tx with reads := (r, version) :: tx.reads }

def setCopyWord (tx : Txn) (r : Ref) (i : Nat) (v : UInt64) : Txn :=
  { tx with writes := tx.writes.map fun (q, c) => (q, if q = r then c.setIfInBounds i v else c) }

def noteCreated (tx : Txn) (r : Ref) : Txn :=
  if tx.created.contains r then tx else { tx with created := tx.created.push r }

end Txn

def youngSpan (x : TxnId) (r : Ref) : EngineM Span := do
  let k := ((← get).txn x).segment
  match (← get).youngWords? k r with
  | some s => return s
  | none => raise (.foreignYoung r k)

/-- Reads an object as of the transaction's read version. -/
def loadShared (x : TxnId) (r : Ref) (w : Int) : EngineCall UInt64 := do
  let s ← oldSpan r
  let i ← checkWord r w s.length
  let h ← getOld s 0
  if isStale h (← look fun e => (e.txn x).readVersion) then conflictOn x r "read"
  else
    let v ← getOld s i
    updateTxn x (·.noteRead r (versionOf h))
    return v

def load (x : TxnId) (r : Ref) (w : Int) : EngineCall UInt64 := do
  check x
  if r = .null then raise (.nullRef .load)
  if r.isYoung then
    let s ← youngSpan x r
    let i ← checkWord r w s.length
    getYoung (← look fun e => (e.txn x).segment) s i
  else if let some c := (← look fun e => (e.txn x).copyOf? r) then
    let i ← checkWord r w c.size
    return c.getD i 0
  else if (← look fun e => (e.txn x).created.contains r) then
    let s ← oldSpan r
    let i ← checkWord r w s.length
    getOld s i
  else loadShared x r w

def loadRef (x : TxnId) (r : Ref) (w : Int) : EngineCall Ref := return ⟨← load x r w⟩

def privateCopy (x : TxnId) (r : Ref) : EngineCall Nat := do
  match (← look fun e => (e.txn x).copyOf? r) with
  | some c => return c.size
  | none =>
    let s ← oldSpan r
    let h ← getOld s 0
    if isStale h (← look fun e => (e.txn x).readVersion) then conflictOn x r "write"
    else
      let size ← sizeIn (·.oldView s)
      let n := (size / 8).toNat
      let words ← look (·.arena.memory.slice (s.base + 1) (s.base + n))
      updateTxn x fun tx =>
        { tx.noteRead r (versionOf h) with writes := tx.writes.push (r, (h :: words).toArray) }
      logDebug .privateCopy (← look fun e => (e.txn x).segment)
        [("ref", .uint r.bits), ("words", .int n)]
      return n

def store (x : TxnId) (r : Ref) (w : Int) (v : UInt64) : EngineCall Unit := do
  check x
  if r = .null then raise (.nullRef .store)
  if r.isYoung then
    let s ← youngSpan x r
    let i ← checkWord r w s.length
    setYoung (← look fun e => (e.txn x).segment) s i v
  else if (← look fun e => (e.txn x).created.contains r) then
    let s ← oldSpan r
    let i ← checkWord r w s.length
    setOld s i v
  else
    let n ← privateCopy x r
    let i ← checkWord r w n
    updateTxn x (·.setCopyWord r i v)

def storeRef (x : TxnId) (r : Ref) (w : Int) (v : Ref) : EngineCall Unit := store x r w v.bits

def weakSlot (x : TxnId) (r : Ref) : EngineM Int := do
  if r = .null then raise (.nullRef .weak)
  if r.isYoung then
    let s ← youngSpan x r
    let k := ((← get).txn x).segment
    let size ← sizeIn (·.youngView k s)
    return (size / 8).toNat - 1
  else if let some c := ((← get).txn x).copyOf? r then return c.size - 1
  else
    let s ← oldSpan r
    let size ← sizeIn (·.oldView s)
    return (size / 8).toNat - 1

def weakTarget (x : TxnId) (r : Ref) : EngineCall Ref := do
  check x
  loadRef x r (← weakSlot x r)

/-- Whether `r` was made as a weak reference, by this transaction or a committed one. -/
def isWeak (x : TxnId) (r : Ref) : EngineCall Bool := do
  check x
  if (← look fun e => (e.segment (e.txn x).segment).weakrefs.contains r) then return true
  lock .engine
  let known ← look (·.weakrefs.contains r)
  unlock .engine
  return known

end TxHeap
