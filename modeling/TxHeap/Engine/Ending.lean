import TxHeap.Engine.OldHeap
import TxHeap.Engine.Pause

/-! How transactions end: what a commit and an abort have in common, and aborts. -/

namespace TxHeap

/-- Refuses a transaction that is not its thread's running one. -/
def check (x : TxnId) : EngineM Unit := do
  let phase := ((← get).txn x).phase
  if !((← get).heldBy x && phase.isActive) then raise (.noTransaction phase)

def clearTables (t : ThreadId) : EngineM Unit :=
  updateThread t fun th => { th with onAbort := .empty, onCommit := .empty }

def finish (x : TxnId) (phase : Phase) : EngineM Unit := do
  let t := ((← get).txn x).thread
  updateTxn x fun tx => { tx with phase }
  updateThread t fun th => { th with last := phase, txn := none }
  leaveSegment t
  updateTxn x fun tx =>
    { tx with reads := [], writes := #[], created := #[], stackAtBegin := #[] }

def freeAll : List Ref → EngineM Unit
  | [] => pure ()
  | r :: rest => do
    onArena (Arena.release r.bits)
    freeAll rest

/-- Rolls a transaction back. Answers the callbacks to be called once the engine's mutex, held here,
is given up. -/
def discard (x : TxnId) (cause : Error) : EngineCall (List Callback) := do
  if (← look fun e => (e.txn x).phase) == .inevitable then
    raise (.inevitableAbort (← look fun e => (e.txn x).reason) (some cause))
  let t ← look fun e => (e.txn x).thread
  let k ← look fun e => (e.txn x).segment
  freeAll (← look fun e => (e.txn x).created.toList)
  resetNursery k
  updateSegment k fun s => { s with weakrefs := #[] }
  lock (.stack t)
  let stack ← look fun e => (e.txn x).stackAtBegin
  updateThread t fun th => { th with stack }
  unlock (.stack t)
  let callbacks ← look fun e => (e.thread t).onAbort.entries.map (·.2)
  clearTables t
  finish x .aborted
  updateCounters fun c => { c with aborts := c.aborts + 1 }
  logInfo .transactionAbort k
    [("cause", .text cause.codeOrText), ("callbacks", .int callbacks.length)]
  return callbacks

def callAll : List Callback → EngineCall Unit
  | [] => pure ()
  | c :: rest => do
    Action.call c
    callAll rest

def rollBack (x : TxnId) (cause : Error) : EngineCall Unit := do
  lock .engine
  let callbacks ← discard x cause
  unlock .engine
  callAll callbacks

def abortWith {α : Type} (x : TxnId) (cause : Error) : EngineCall α := do
  rollBack x cause
  throw (.abort cause)

def countConflict (x : TxnId) (r : Ref) (kind : String) : EngineM Unit := do
  let k := ((← get).txn x).segment
  updateLog (·.contention k r.bits kind)
  updateCounters fun c => { c with conflicts := c.conflicts + 1 }

def conflictOn {α : Type} (x : TxnId) (r : Ref) (kind : String) : EngineCall α := do
  countConflict x r kind
  abortWith x .conflict

def abort (x : TxnId) : EngineCall Unit := do
  check x
  if (← look fun e => (e.txn x).phase) == .inevitable then
    raise (.inevitableAbort (← look fun e => (e.txn x).reason) none)
  rollBack x .abortRequested

end TxHeap
