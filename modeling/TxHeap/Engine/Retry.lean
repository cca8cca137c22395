import TxHeap.Engine.Registration

/-! Running a function in a transaction, and running it again while it meets conflicts. -/

namespace TxHeap

structure RetryPolicy where
  /-- The most attempts; any number if it is not positive. -/
  maxRetries : Int := 0
  /-- The attempt from which on transactions are inevitable at once; none if not positive. -/
  inevitableAfter : Int := 0

abbrev Body (σ : Type) := TxnId → Action σ (Option Error)

variable {τ : Type}

def onEngine {α : Type} (x : EngineCall α) : Action (Engine × τ) α := fun (e, rest) =>
  (x e).beside rest

/-- Ends a transaction whose function failed. One that is inevitable commits. -/
def endFailed (x : TxnId) : EngineCall (Option Error) := do
  if (← look (·.heldBy x)) then
    if (← look fun e => (e.txn x).phase) == .inevitable then commit x
    else
      abort x
      return none
  else return none

/-- Runs `body` inside the transaction and answers its error, or the cause of an abort; if `body`
fails the transaction is ended. -/
def attemptBody (x : TxnId) (body : Action (Engine × τ) (Option Error)) :
    Action (Engine × τ) (Option Error) := do
  let result : Except Raise (Option Error) ← Action.outcome do
    match ← body with
    | none => return none
    | some error =>
      match ← onEngine (endFailed x) with
      | some refused => return some refused
      | none => return some error
  match result with
  | .ok error => return error
  | .error (.abort cause) => return some cause
  | .error r =>
    let _ ← onEngine (endFailed x)
    throw r

def attempt (t : ThreadId) (inevitable : Bool) (body : Body (Engine × τ)) :
    Action (Engine × τ) (Option Error) := do
  let x ← onEngine (begin t)
  let error ← attemptBody x do
    if inevitable then onEngine (becomeInevitable x "retry limit")
    body x
  match error with
  | some error => return some error
  | none =>
    if (← look fun w => (w.1.thread t).txn) == some x then onEngine (commit x)
    else if (← look fun w => (w.1.txn x).phase) == .aborted then return some .abortRequested
    else return none

/-- Attempts `body` until it commits or fails for good: after conflicts as the policy says, and once
more after a collection. `fuel` bounds the attempts left. -/
def atomicallyFrom (t : ThreadId) (policy : RetryPolicy) (body : Nat → Body (Engine × τ)) :
    Nat → Nat → Bool → Action (Engine × τ) (Option Error)
  | 0, _, _ => throw .unfinished
  | fuel + 1, i, collected => do
    let inevitable := policy.inevitableAfter > 0 ∧ (i : Int) ≥ policy.inevitableAfter
    match ← attempt t (decide inevitable) (body i) with
    | none => return none
    | some error =>
      if error.matchesError .conflict then
        if policy.maxRetries > 0 ∧ (i : Int) + 1 ≥ policy.maxRetries then
          return some (Error.tooManyRetries.withDetails (some [("attempts", .int (i + 1))])
            (some error))
        Action.wait .backoff
        atomicallyFrom t policy body fuel (i + 1) collected
      else if error.matchesError .heapExhausted && !collected then
        onEngine (collect t)
        atomicallyFrom t policy body fuel (i + 1) true
      else return some error

def atomically (fuel : Nat) (t : ThreadId) (policy : RetryPolicy)
    (body : Nat → Body (Engine × τ)) : Action (Engine × τ) (Option Error) :=
  atomicallyFrom t policy body fuel 0 false

end TxHeap
