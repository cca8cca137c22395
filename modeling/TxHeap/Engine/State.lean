import TxHeap.Arena.Sweep
import TxHeap.Course
import TxHeap.Engine.CallbackTable
import TxHeap.Event.Log
import TxHeap.Object.Layout
import TxHeap.Region
import TxHeap.Settings

/-! The state of an engine: the old heap, segments, threads, all transactions begun so far, and who
holds or waits for what. -/

namespace TxHeap

structure Segment where
  owner : Option ThreadId := none
  standing : Standing := .free
  nursery : Memory
  used : UInt64 := 0
  objects : Array UInt64 := #[]
  weakrefs : Array Ref := #[]

structure Thread where
  /-- The shadow stack: references that collections keep and update. -/
  stack : Array Ref := #[]
  txn : Option TxnId := none
  last : Phase := .inactive
  segment : Option SegmentId := none
  lastSegment : Option SegmentId := none
  onAbort : CallbackTable Key Callback := {}
  onCommit : CallbackTable Key Callback := {}
  registered : Bool := false
deriving Inhabited

structure Txn where
  thread : ThreadId
  segment : SegmentId
  phase : Phase
  /-- The clock value that the reads are consistent with. -/
  readVersion : UInt64
  reads : List (Ref × UInt64) := []
  /-- Private copies of old objects, in the order they were made. -/
  writes : Array (Ref × Array UInt64) := #[]
  created : Array Ref := #[]
  stackAtBegin : Array Ref := #[]
  reason : String := ""
deriving Inhabited

/-- A foreign caller. For each open bracket it is known whether it began a transaction. -/
structure Foreign where
  thread : ThreadId
  frames : List Bool := []

structure Counters where
  commits : UInt64 := 0
  inevitableCommits : UInt64 := 0
  aborts : UInt64 := 0
  conflicts : UInt64 := 0
  minors : UInt64 := 0
  majors : UInt64 := 0
  promoted : UInt64 := 0
  freed : UInt64 := 0

structure EngineTables where
  settings : Settings
  layout : Layout
  log : Option Event.Log := none
  ownsLog : Bool := false
  /-- What handing pages back fails with, if it fails. -/
  releaseFailure : Option String := none
  segments : Array Segment
  threads : Array Thread := #[]
  txns : Array Txn := #[]
  clock : UInt64 := 0
  inevitable : Option TxnId := none
  weakrefs : List Ref := []
  prebuilt : Array Ref := #[]
  majorThreshold : UInt64
  closed : Bool := false
  foreign : List (Nat × Foreign) := []
  counters : Counters := {}
  locked : List Mutex := []
  pauser : Option Caller := none
  pauseMode : PauseMode := .none
  /-- Tickets of the sleepers with what wakes them, the longest asleep first. -/
  asleep : List (Nat × Condition) := []
  tickets : Nat := 0

structure Engine extends EngineTables where
  arena : Arena

abbrev EngineM := EStateM Raise Engine

abbrev EngineCall := Action Engine

namespace Engine

def thread (e : Engine) (t : ThreadId) : Thread := e.threads.getD t {}

def txn (e : Engine) (x : TxnId) : Txn :=
  e.txns.getD x { thread := 0, segment := 0, phase := .inactive, readVersion := 0 }

def segment (e : Engine) (k : SegmentId) : Segment := e.segments.getD k { nursery := .zeros 0 }

def segmentOf (e : Engine) : Caller → Option SegmentId
  | .thread t => (e.thread t).segment
  | _ => none

def isLocked (e : Engine) (m : Mutex) : Bool := e.locked.contains m

def heldBy (e : Engine) (x : TxnId) : Bool := (e.thread (e.txn x).thread).txn == some x

def threadCount (e : Engine) : Nat := e.threads.countP (·.registered)

def segmentsInUse (e : Engine) : Nat := e.segments.countP (·.owner.isSome)

end Engine

def raise {α : Type} (v : Violation) : EngineM α := throw (.violation v)

def updateThread (t : ThreadId) (f : Thread → Thread) : EngineM Unit :=
  modify fun e => { e with threads := e.threads.modify t f }

def updateTxn (x : TxnId) (f : Txn → Txn) : EngineM Unit :=
  modify fun e => { e with txns := e.txns.modify x f }

def updateSegment (k : SegmentId) (f : Segment → Segment) : EngineM Unit :=
  modify fun e => { e with segments := e.segments.modify k f }

def updateCounters (f : Counters → Counters) : EngineM Unit :=
  modify fun e => { e with counters := f e.counters }

def updateLog (f : Event.Log → Event.Log) : EngineM Unit :=
  modify fun e => { e with log := e.log.map f }

def segmentNumber : Option SegmentId → Int
  | some k => k
  | none => -1

def logInfo (kind : Event.Kind) (segment : Int) (fields : List (String × Event.Value) := []) :
    EngineM Unit :=
  updateLog (·.info kind.name segment fields)

def logDebug (kind : Event.Kind) (segment : Int) (fields : List (String × Event.Value) := []) :
    EngineM Unit :=
  updateLog (·.debug kind.name segment fields)

def onArena {α : Type} (x : ArenaM α) : EngineM α
  | ⟨tables, arena⟩ =>
    match x arena with
    | .ok a arena => .ok a ⟨tables, arena⟩
    | .error f arena => .error (.fault f) ⟨tables, arena⟩

def inspectEngine {α : Type} (f : Engine → Except Fault α) : EngineM α := fun e =>
  match f e with
  | .ok a => .ok a e
  | .error fault => .error (.fault fault) e

end TxHeap
