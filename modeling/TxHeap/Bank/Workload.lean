import TxHeap.Bank.Transfer

/-! The whole workload: opening the bank, the workers, an audit and a check of the heap. -/

namespace TxHeap.Bank

structure Workload where
  threads : Int := 8
  accounts : Int := 64
  transfers : Int := 10000
  initial : UInt64 := 1000
  seed : UInt64 := 0

structure Outcome where
  total : UInt64
  stats : Engine.Stats
  heapError : Option HeapError

inductive Failure
  | error (e : Error)
  | raised (r : Raise)

abbrev Setup := ExceptT Failure (StateM World)

def alone {α : Type} (fuel : Nat) (x : Action World α) : Setup α := fun world =>
  match Schedule.run fuel [x] world with
  | (.ok a :: _, world) => (.ok a, world)
  | (.error r :: _, world) => (.error (.raised r), world)
  | ([], world) => (.error (.raised .unfinished), world)

def orFail {α : Type} (r : Except Error α) : Setup α :=
  match r with
  | .ok a => return a
  | .error e => throw (.error e)

def openAccounts (fuel : Nat) (initial : UInt64) : Nat → Array Ref → Setup (Array Ref)
  | 0, opened => return opened
  | n + 1, opened => do
    let r ← orFail (← alone fuel (onEngine (openAccount initial)))
    openAccounts fuel initial n (opened.push r)

def hire (fuel : Nat) (work : Ref → Nat → Action World (Option Error)) (w : Nat) :
    Nat → Setup (List (Action World (Option Error)))
  | 0 => return []
  | n + 1 => do
    let ledger ← orFail (← alone fuel (onEngine openLedger))
    let others ← hire fuel work (w + 1) n
    return work ledger w :: others

def runWorkers (fuel : Nat) (workers : List (Action World (Option Error))) : Setup Unit :=
  fun world =>
    let (outcomes, world) := Schedule.run fuel workers world
    let failure := outcomes.findSome? fun
      | .ok none => none
      | .ok (some e) => some (Failure.error e)
      | .error r => some (.raised r)
    match failure with
    | some f => (.error f, world)
    | none => (.ok (), world)

/-- The audit in a thread of its own, followed by a check of the heap. -/
def inspectBank (fuel : Nat) (accounts : Array Ref) :
    Action World (Except Error (Option HeapError)) :=
  do
    let t ← onEngine register
    match ← audit fuel accounts t with
    | some e => return .error e
    | none =>
      let heap ← onEngine checkHeap
      onEngine (unregister t)
      return .ok heap

namespace Workload

def perform (fuel : Nat) (w : Workload) : Setup Outcome := do
  if w.accounts < 0 then throw (.raised (.thrown "runtime error: makeslice: len out of range"))
  let accounts ← openAccounts fuel w.initial w.accounts.toNat #[]
  let work := fun ledger n =>
    work fuel accounts ledger w.transfers.toNat (.start w.seed (UInt64.ofNat n))
  let workers ← hire fuel work 0 w.threads.toNat
  runWorkers fuel workers
  let heapError ← orFail (← alone fuel (inspectBank fuel accounts))
  let total := (← get).2
  let stats ← alone fuel (onEngine stats)
  return { total, stats, heapError }

def expected (w : Workload) : UInt64 := UInt64.ofInt w.accounts * w.initial

end Workload

end TxHeap.Bank
