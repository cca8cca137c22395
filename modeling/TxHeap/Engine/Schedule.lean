import TxHeap.Engine.Retry

/-! Running several calls side by side. Each runs until it ends or waits; then whoever can goes on,
the longest waiting first. -/

namespace TxHeap

namespace Schedule

variable {τ α : Type}

structure Parked (τ α : Type) where
  number : Nat
  wait : Wait
  resume : Engine × τ → Course (Engine × τ) α

structure Board (τ α : Type) where
  world : Engine × τ
  parked : List (Parked τ α) := []
  ended : List (Nat × Except Raise α) := []

def advance (number : Nat) (parked : List (Parked τ α)) (ended : List (Nat × Except Raise α)) :
    Course (Engine × τ) α → Board τ α
  | .done a world => { world, parked, ended := ended ++ [(number, .ok a)] }
  | .raised r world => { world, parked, ended := ended ++ [(number, .error r)] }
  | .waiting wait world resume => { world, parked := parked ++ [{ number, wait, resume }], ended }
  | .calling _ world resume => advance number parked ended (resume (.ok ()) world)

def begin : Nat → List (Action (Engine × τ) α) → Board τ α → Board τ α
  | _, [], b => b
  | number, x :: rest, { world, parked, ended } =>
    begin (number + 1) rest (advance number parked ended (x world))

def pickReady (e : Engine) : List (Parked τ α) → Option (Parked τ α × List (Parked τ α))
  | [] => none
  | p :: rest =>
    if p.wait.ready e then some (p, rest)
    else (pickReady e rest).map fun (q, others) => (q, p :: others)

def wakeUp (p : Parked τ α) : Board τ α → Board τ α
  | { world := (e, rest), parked, ended } =>
    match p.wait.wake e with
    | (e, some wait) => { world := (e, rest), parked := parked ++ [{ p with wait }], ended }
    | (e, none) => advance p.number parked ended (p.resume (e, rest))

def settle : Nat → Board τ α → Board τ α
  | 0, b => b
  | n + 1, { world, parked, ended } =>
    match pickReady world.1 parked with
    | none => { world, parked, ended }
    | some (p, others) => settle n (wakeUp p { world, parked := others, ended })

/-- Runs calls beside one another. Answers their outcomes in the order in which they ended. -/
def run (fuel : Nat) (calls : List (Action (Engine × τ) α)) (world : Engine × τ) :
    List (Except Raise α) × (Engine × τ) :=
  let b := settle fuel (begin 0 calls { world })
  (b.ended.map (·.2), b.world)

end Schedule

end TxHeap
