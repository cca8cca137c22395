import TxHeap.Scenario.Step

/-! The state scenarios run on: an engine, and what the workers remember. -/

namespace TxHeap.Scenario

structure Worker where
  thread : Option ThreadId := none
  txn : Option TxnId := none

structure Function where
  hook : Hook
  key : Key
  worker : String
  thread : ThreadId
  body : Option (List Step)

structure Memo where
  bound : List (String × Ref) := []
  workers : List (String × Worker) := []
  functions : Array Function := #[]
  frames : Nat := 0
  runs : List (Nat × List Report) := []
  calls : List (Nat × CallReport) := []

abbrev World := Engine × Memo

abbrev Program := Action World

def lookMemo {α : Type} (f : Memo → α) : Program α := look fun (_, m) => f m

def lookEngine {α : Type} (f : Engine → α) : Program α := look fun (e, _) => f e

def updateMemo (f : Memo → Memo) : Program Unit := modify fun (e, m) => (e, f m)

def engineCall {α : Type} (x : EngineCall α) : Program α := onEngine x

def setWorker (name : String) (w : Worker) : List (String × Worker) → List (String × Worker)
  | [] => [(name, w)]
  | (n, v) :: rest => if n = name then (n, w) :: rest else (n, v) :: setWorker name w rest

def workerNamed (name : String) : Program Worker :=
  lookMemo fun m => (m.workers.lookup name).getD {}

def updateWorker (name : String) (f : Worker → Worker) : Program Unit := do
  let w ← workerNamed name
  updateMemo fun m => { m with workers := setWorker name (f w) m.workers }

def threadOf (name : String) : Program ThreadId := do
  match (← workerNamed name).thread with
  | some t => return t
  | none => throw (.fault .outOfBounds)

def txnOf (name : String) : Program TxnId := do
  match (← workerNamed name).txn with
  | some x => return x
  | none => throw (.fault .outOfBounds)

def resolve : Operand → Program Ref
  | .ref r => return r
  | .bound name => lookMemo fun m => (m.bound.lookup name).getD .null

def bindRef (name : String) (r : Ref) : Program Unit :=
  updateMemo fun m => { m with bound := (name, r) :: m.bound.filter (·.1 != name) }

def newFrame : Program Nat := do
  let frame ← lookMemo (·.frames)
  updateMemo fun m => { m with frames := frame + 1 }
  return frame

/-- What the steps of `frame` have run and called, in order, which is then forgotten. -/
def takeFrame (frame : Nat) : Program (List (List Report) × List CallReport) := do
  let runs ← lookMemo fun m => (m.runs.filter (·.1 == frame)).map (·.2)
  let calls ← lookMemo fun m => (m.calls.filter (·.1 == frame)).map (·.2)
  updateMemo fun m =>
    { m with runs := m.runs.filter (·.1 != frame), calls := m.calls.filter (·.1 != frame) }
  return (runs.reverse, calls.reverse)

end TxHeap.Scenario
