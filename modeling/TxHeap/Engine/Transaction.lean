import TxHeap.Engine.Allocation
import TxHeap.Engine.Marking

/-! The life of a transaction. Commits happen one at a time: a commit waits for the inevitable
transaction, moves its young objects into the old heap, validates what it read, and publishes its
private copies under the next version. -/

namespace TxHeap

def begin (t : ThreadId) : EngineCall TxnId := do
  if (← look fun e => (e.thread t).txn.isSome) then raise (.begunInside t)
  if !(← look fun e => (e.thread t).registered) then raise (.notRegistered t)
  let stackAtBegin ← withLock (.stack t) (return (← look fun e => (e.thread t).stack))
  lock .engine
  checkOpen
  park (.thread t)
  let segment ← takeSegment t
  let x ← look (·.txns.size)
  let readVersion ← look (·.clock)
  modify fun e =>
    { e with
      txns := e.txns.push { thread := t, segment, phase := .running, readVersion, stackAtBegin } }
  updateThread t fun th => { th with txn := some x, last := .running }
  unlock .engine
  logInfo .transactionStart segment [("thread", .int t), ("rv", .uint readVersion)]
  return x

def staleRead? : List (Ref × UInt64) → EngineM (Option Ref)
  | [] => return none
  | (r, version) :: rest => do
    let h ← header r
    if h &&& lockBit ≠ 0 ∨ versionOf h ≠ version then return some r else staleRead? rest

/-- Makes a transaction one that cannot abort, once no other is. It aborts if its reads are stale by
then. Abort callbacks are dropped. -/
def becomeInevitable (x : TxnId) (reason : String) : EngineCall Unit := do
  check x
  if (← look fun e => (e.txn x).phase) == .inevitable then return
  let t ← look fun e => (e.txn x).thread
  lock .engine
  park (.thread t)
  await (.thread t) .noInevitable
  match ← staleRead? (← look fun e => (e.txn x).reads) with
  | some r =>
    countConflict x r "inevitable"
    let callbacks ← discard x .conflict
    unlock .engine
    callAll callbacks
    throw (.abort .conflict)
  | none =>
    let readVersion ← look (·.clock)
    updateTxn x fun tx => { tx with readVersion, phase := .inevitable, reason }
    modify fun e => { e with inevitable := some x }
    updateThread t fun th => { th with onAbort := .empty }
    unlock .engine
    logInfo .becomeInevitable (← look fun e => (e.txn x).segment)
      [("reason", .text reason), ("rv", .uint readVersion)]

def publish (version : UInt64) : List (Ref × Array UInt64) → EngineM Unit
  | [] => pure ()
  | (r, words) :: rest => do
    let s ← oldSpan r
    setOld s 0 (words.getD 0 0 ||| lockBit)
    copyToOld s words.toList
    setOld s 0 (headerFor version)
    publish version rest

def stamp (version : UInt64) : List Ref → EngineM Unit
  | [] => pure ()
  | r :: rest => do
    setHeader r (headerFor version)
    stamp version rest

/-- Makes a validated transaction's writes and objects visible. Answers the version it committed
with. -/
def publishAll (x : TxnId) : EngineM UInt64 := do
  let version := (← get).clock
  let writes := ((← get).txn x).writes
  let created := ((← get).txn x).created
  if writes.isEmpty && created.isEmpty then return version
  let version := version + 1
  publish version writes.toList
  stamp version created.toList
  modify fun e => { e with clock := version }
  return version

def addWeakrefs (known : List Ref) : List Ref → List Ref
  | [] => known
  | w :: rest => addWeakrefs (if known.contains w then known else w :: known) rest

structure Committed where
  segment : SegmentId
  fields : List (String × Event.Value)
  callbacks : List Callback
  majorDue : Bool

def settleCommit (x : TxnId) : EngineM Committed := do
  let t := ((← get).txn x).thread
  let k := ((← get).txn x).segment
  let version ← publishAll x
  let weakrefs := ((← get).segment k).weakrefs.toList
  modify fun e => { e with weakrefs := addWeakrefs e.weakrefs weakrefs }
  updateSegment k fun s => { s with weakrefs := #[] }
  let inevitable := ((← get).txn x).phase == .inevitable
  if inevitable then
    modify fun e => { e with inevitable := none }.wakeAll .inevitableDone
    updateCounters fun c => { c with inevitableCommits := c.inevitableCommits + 1 }
  updateCounters fun c => { c with commits := c.commits + 1 }
  let callbacks := ((← get).thread t).onCommit.entries.map (·.2)
  clearTables t
  let fields :=
    [("version", .uint version), ("reads", .int ((← get).txn x).reads.length),
      ("writes", .int ((← get).txn x).writes.size), ("created", .int ((← get).txn x).created.size),
      ("inevitable", .bool inevitable)]
  finish x .committed
  return { segment := k, fields, callbacks, majorDue := (← get).majorDue }

def validate? (x : TxnId) : EngineM (Option Ref) := do
  if ((← get).txn x).phase == .inevitable then return none
  staleRead? ((← get).txn x).reads

def refuse (x : TxnId) (cause : Error) : EngineCall (Option Error) := do
  let callbacks ← discard x cause
  unlock .engine
  callAll callbacks
  return some cause

def succeed (x : TxnId) (t : ThreadId) : EngineCall (Option Error) := do
  let done ← settleCommit x
  unlock .engine
  logInfo .transactionCommit done.segment done.fields
  callAll done.callbacks
  if done.majorDue then collectIfDue t
  return none

def commitAlone (x : TxnId) (t : ThreadId) : EngineCall (Option Error) := do
  match ← collectMinor x with
  | some cause => refuse x cause
  | none =>
    match ← validate? x with
    | some r =>
      countConflict x r "commit"
      refuse x .conflict
    | none => succeed x t

def commit (x : TxnId) : EngineCall (Option Error) := do
  check x
  let t ← look fun e => (e.txn x).thread
  lock .engine
  park (.thread t)
  if (← look fun e => (e.txn x).phase) != .inevitable then await (.thread t) .noInevitable
  commitAlone x t

def Thread.table (th : Thread) (last : Phase) : CallbackTable Key Callback :=
  if last = .committed then th.onCommit else th.onAbort

def Thread.setTable (th : Thread) (last : Phase) (table : CallbackTable Key Callback) : Thread :=
  if last = .committed then { th with onCommit := table } else { th with onAbort := table }

/-- Only a transaction that could abort takes what is to be called then. -/
def Phase.takes (now last : Phase) : Bool :=
  if last = .committed then now.isActive else now == .running

/-- Registers a function to be called when the running transaction ends in phase `last`, or removes
it. -/
def noteCallback (last : Phase) (t : ThreadId) (key : Key) (callback : Option Callback) :
    EngineM Unit := do
  match ((← get).thread t).txn with
  | none => pure ()
  | some x =>
    if ((← get).txn x).phase.takes last then
      match callback with
      | none => updateThread t fun th => th.setTable last ((th.table last).erase key)
      | some c =>
        match (((← get).thread t).table last).insert? key c with
        | none => raise (.duplicateKey key)
        | some table => updateThread t (·.setTable last table)

def onAbort : ThreadId → Key → Option Callback → EngineM Unit := noteCallback .aborted

def onCommit : ThreadId → Key → Option Callback → EngineM Unit := noteCallback .committed

end TxHeap
