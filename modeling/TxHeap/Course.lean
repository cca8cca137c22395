import TxHeap.Engine.Violation

/-! Calls that may have to wait. A course answers or raises something; on its way it can wait or
call back into the embedding program. What happens between two such points happens at once. -/

namespace TxHeap

inductive Mutex
  /-- Guards commits, collections, the old heap and the assignment of segments. -/
  | engine
  /-- Guards the table of foreign callers. -/
  | bracket
  /-- Guards the shadow stack of a thread. -/
  | stack (t : ThreadId)
deriving DecidableEq, Repr

inductive Condition
  | safePoint
  | released
  /-- A segment became free; wakes the thread that has waited longest. -/
  | freeSegment
  | inevitableDone
deriving DecidableEq, Repr

inductive Goal
  | othersStopped
  | freeSegment
  | noInevitable
deriving DecidableEq, Repr

structure Sleeper where
  who : Caller
  segment : Option SegmentId
  ticket : Nat
deriving DecidableEq, Repr

inductive Wait
  | mutex (m : Mutex)
  /-- A moment for the other threads before the next attempt. -/
  | backoff
  | pause (z : Sleeper)
  | goal (g : Goal) (z : Sleeper)
  /-- For the end of another's pause that began while waiting for `g`. -/
  | pauseInGoal (g : Goal) (z : Sleeper)
deriving DecidableEq, Repr

/-- A function of the embedding program, by its number, and the key it is called with. -/
structure Callback where
  key : Key
  function : Nat
deriving DecidableEq, Repr, Inhabited

inductive Course (σ α : Type)
  | done (value : α) (s : σ)
  | raised (r : Raise) (s : σ)
  | waiting (w : Wait) (s : σ) (resume : σ → Course σ α)
  /-- Goes on with the outcome of the function called. -/
  | calling (c : Callback) (s : σ) (resume : Except Raise Unit → σ → Course σ α)

namespace Course

variable {σ τ α β : Type}

def bind : Course σ α → (α → σ → Course σ β) → Course σ β
  | done a s, f => f a s
  | raised r s, _ => raised r s
  | waiting w s resume, f => waiting w s fun s => (resume s).bind f
  | calling c s resume, f => calling c s fun r s => (resume r s).bind f

/-- The course with its outcome, answer or not, handed on. -/
def bindOutcome : Course σ α → (Except Raise α → σ → Course σ β) → Course σ β
  | done a s, f => f (.ok a) s
  | raised r s, f => f (.error r) s
  | waiting w s resume, f => waiting w s fun s => (resume s).bindOutcome f
  | calling c s resume, f => calling c s fun r s => (resume r s).bindOutcome f

/-- Every call into the embedding program is replaced by what `run` does for it. -/
def answerCalls (run : Callback → σ → Course σ Unit) : Course σ α → Course σ α
  | done a s => done a s
  | raised r s => raised r s
  | waiting w s resume => waiting w s fun s => answerCalls run (resume s)
  | calling c s resume => (run c s).bindOutcome fun r s => answerCalls run (resume r s)

/-- The course on a state that has a second part, which it leaves alone. -/
def beside (rest : τ) : Course σ α → Course (σ × τ) α
  | done a s => done a (s, rest)
  | raised r s => raised r (s, rest)
  | waiting w s resume => waiting w (s, rest) fun (s, rest) => beside rest (resume s)
  | calling c s resume => calling c (s, rest) fun r (s, rest) => beside rest (resume r s)

@[simp] theorem bind_done (a : α) (s : σ) (f : α → σ → Course σ β) :
    (done a s).bind f = f a s := rfl

@[simp] theorem bind_raised (r : Raise) (s : σ) (f : α → σ → Course σ β) :
    (raised r s : Course σ α).bind f = raised r s := rfl

theorem bind_assoc {γ : Type} (c : Course σ α) (f : α → σ → Course σ β) (g : β → σ → Course σ γ) :
    (c.bind f).bind g = c.bind fun a s => (f a s).bind g := by
  induction c with
  | done a s => rfl
  | raised r s => rfl
  | waiting w s resume ih => simp [bind, ih]
  | calling c s resume ih => simp [bind, ih]

@[simp] theorem bind_done_right (c : Course σ α) : c.bind done = c := by
  induction c with
  | done a s => rfl
  | raised r s => rfl
  | waiting w s resume ih => simp [bind, ih]
  | calling c s resume ih => simp [bind, ih]

end Course

def Action (σ α : Type) : Type := σ → Course σ α

namespace Action

variable {σ τ α β : Type}

instance : Monad (Action σ) where
  pure a := fun s => .done a s
  bind x f := fun s => (x s).bind f

instance : LawfulMonad (Action σ) := LawfulMonad.mk' (Action σ)
  (fun x => funext fun s => (x s).bind_done_right)
  (fun _ _ => rfl)
  (fun x f g => funext fun s => (x s).bind_assoc (fun a s => f a s) (fun b s => g b s))

instance : MonadStateOf σ (Action σ) where
  get := fun s => .done s s
  set s := fun _ => .done () s
  modifyGet f := fun s => let (a, s) := f s; .done a s

instance : MonadExceptOf Raise (Action σ) where
  throw r := fun s => .raised r s
  tryCatch x h := fun s => (x s).bindOutcome fun
    | .ok a, s => .done a s
    | .error r, s => h r s

/-- What happens at once is a call that never waits. -/
instance : MonadLift (EStateM Raise σ) (Action σ) where
  monadLift x := fun s =>
    match x s with
    | .ok a s => .done a s
    | .error r s => .raised r s

/-- Runs `x` and then `last`, however `x` ends. -/
def ending (x : Action σ α) (last : EStateM Raise σ Unit) : Action σ α := fun s =>
  (x s).bindOutcome fun outcome s =>
    match last s, outcome with
    | .ok () s, .ok a => .done a s
    | .ok () s, .error r => .raised r s
    | .error r s, _ => .raised r s

def wait (w : Wait) : Action σ Unit := fun s => .waiting w s fun s => .done () s

def call (c : Callback) : Action σ Unit := fun s => .calling c s fun
  | .ok (), s => .done () s
  | .error r, s => .raised r s

def outcome (x : Action σ α) : Action σ (Except Raise α) := fun s =>
  (x s).bindOutcome fun r s => .done r s

end Action

def look {σ α : Type} (f : σ → α) : Action σ α := fun s => .done (f s) s

end TxHeap
