import TxHeap.Engine.Audit
import TxHeap.Engine.Bracket
import TxHeap.Engine.Retry

/-! Scenarios: programs for several workers that call an engine. Each step names the worker whose
thread and transaction it uses. -/

namespace TxHeap.Scenario

/-- A reference, given as such or by the name it was bound to. -/
inductive Operand
  | ref (r : Ref)
  | bound (name : String)

inductive Hook
  | abort
  | commit
deriving DecidableEq, Repr

namespace Hook

def name : Hook → String
  | abort => "abort"
  | commit => "commit"

end Hook

mutual

inductive Op
  | stats
  | clock
  | checkHeap
  | close
  | segments
  | heap
  | threshold
  | prebuilt (size : Option UInt64) (refs : Nat) (data : List UInt64) (init : Bool)
  | peek (off : UInt64)
  | poke (off v : UInt64)
  | failRelease (message : String)
  | register
  | unregister
  | enter
  | leave (token : Token)
  | begin
  | state
  | collect
  | safePoint
  | push (r : Operand)
  | pop
  | root (i : Int)
  | setRoot (i : Int) (r : Operand)
  | stack
  | beginPause (mode : PauseMode)
  | endPause
  | ownsPause
  | takeSegment
  | leaveSegment
  | onHook (hook : Hook) (key : Key) (remove : Bool) (body : Option (List Step))
  | atomically (policy : RetryPolicy) (body : List Step)
  | txnInfo
  | commit
  | abort
  | load (r : Operand) (w : Int)
  | loadRef (r : Operand) (w : Int)
  | store (r : Operand) (w : Int) (v : UInt64)
  | add (r : Operand) (w : Int) (v : UInt64)
  | storeRef (r : Operand) (w : Int) (v : Operand)
  | alloc (size : UInt64)
  | new (refs : Nat) (data : List UInt64) (zeros : Nat)
  | weak (size : UInt64) (target : Operand)
  | newWeak (refs : Nat) (target : Operand)
  | weakTarget (r : Operand)
  | isWeak (r : Operand)
  | inevitable (reason : String)
  | attempt (body : List Step)
  | chain (i : Int) (n : Nat)
  | follow (r : Operand)
  | fail (message : String)
  | throw (message : String)

structure Step where
  op : Op
  worker : Option String
  name : Option String
  /-- The attempts in which to take the step. -/
  attempts : Option (List Int)
  /-- Take the step only if the enclosing transaction is inevitable, or only if it is not. -/
  ifInevitable : Option Bool
  catches : Bool
  returns : Bool

end

instance : Inhabited Step :=
  ⟨{ op := .stats, worker := none, name := none, attempts := none, ifInevitable := none
     catches := false, returns := false }⟩

structure ThreadReport where
  phase : Phase
  current : Bool
  pending : Nat
  depth : Nat

structure TxnReport where
  phase : Phase
  readVersion : UInt64
  segment : SegmentId
  thread : ThreadId

structure SegmentReport where
  owner : Option ThreadId
  standing : Standing
  used : UInt64
  objects : Nat
  weakrefs : List Ref

inductive Answer
  | nothing
  | int (n : Int)
  | word (n : UInt64)
  | bool (b : Bool)
  | text (s : String)
  | ref (r : Ref)
  | refs (rs : List Ref)
  | words (ws : List UInt64)
  | begun (segment : SegmentId) (readVersion : UInt64)
  | entered (thread : ThreadId) (token : Token)
  | thread (r : ThreadReport)
  | txn (r : TxnReport)
  | stats (s : Engine.Stats)
  | segments (ss : List SegmentReport)
  | heap (chunks : List (UInt64 × UInt64 × UInt64))

inductive Verdict
  | ok (a : Answer)
  | error (e : Error)
  | raised (r : Raise)

mutual

inductive Report
  | mk (verdict : Verdict) (runs : Runs) (calls : List CallReport)

inductive Runs
  | none
  | single (reports : List Report)
  | attempts (reports : List (List Report))

inductive CallReport
  | mk (hook : Hook) (key : Key) (pending : Nat) (phase : Phase) (body : Option (List Report))

end

end TxHeap.Scenario
