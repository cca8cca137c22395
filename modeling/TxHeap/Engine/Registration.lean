import TxHeap.Engine.Transaction

/-! Threads: registering them, and their shadow stacks. -/

namespace TxHeap

def register : EngineCall ThreadId :=
  withLock .engine do
    checkOpen
    park .outside
    let t ← look (·.threads.size)
    modify fun e => { e with threads := e.threads.push { registered := true } }
    return t

def unregister (t : ThreadId) : EngineCall Unit := do
  if (← look fun e => (e.thread t).txn.isSome) then raise (.unregisteredInside t)
  withLock .engine do
    park (.thread t)
    updateThread t fun th => { th with registered := false }
    lock (.stack t)
    updateThread t fun th => { th with stack := #[] }
    unlock (.stack t)

def Engine.phaseOf (e : Engine) (t : ThreadId) : Phase :=
  match (e.thread t).txn with
  | some x => (e.txn x).phase
  | none => (e.thread t).last

def Engine.stackEntry (e : Engine) (t : ThreadId) (i : Int) : Except Fault Ref :=
  if i < 0 then .error .outOfBounds
  else
    match (e.thread t).stack[i.toNat]? with
    | some r => .ok r
    | none => .error .outOfBounds

def root (t : ThreadId) (i : Int) : EngineCall Ref :=
  withLock (.stack t) (inspectEngine (·.stackEntry t i) : EngineM Ref)

def setRoot (t : ThreadId) (i : Int) (r : Ref) : EngineCall Unit := do
  lock (.stack t)
  let _ ← inspectEngine (·.stackEntry t i)
  updateThread t fun th => { th with stack := th.stack.setIfInBounds i.toNat r }
  unlock (.stack t)

def depth (t : ThreadId) : EngineCall Nat :=
  withLock (.stack t) (return (← look fun e => (e.thread t).stack.size))

end TxHeap
