import TxHeap.Engine.Registration

/-! The bracket around a call from foreign code. A control becomes a thread with its outermost
bracket and stops being one when that is left. Inside, an inevitable transaction runs. -/

namespace TxHeap

def setForeign (control : Nat) (f : Foreign) : List (Nat × Foreign) → List (Nat × Foreign)
  | [] => [(control, f)]
  | (c, g) :: rest => if c = control then (c, f) :: rest else (c, g) :: setForeign control f rest

def updateForeign (control : Nat) (f : Foreign) : EngineM Unit :=
  modify fun e => { e with foreign := setForeign control f e.foreign }

def noteBracket (control : Nat) (t : ThreadId) (token : Token) (started : Bool) :
    EngineCall (ThreadId × Token) := do
  let frames := ((← look (·.foreign.lookup control)).map (·.frames)).getD []
  updateForeign control { thread := t, frames := started :: frames }
  return (t, token)

def openBracket (control : Nat) (t : ThreadId) (token : Token) : EngineCall (ThreadId × Token) := do
  let started ← look fun e => (e.thread t).txn.isNone
  if started then let _ ← begin t
  if let some x := (← look fun e => (e.thread t).txn) then becomeInevitable x "callback"
  noteBracket control t token started

def enter (control : Nat) : EngineCall (ThreadId × Token) := do
  lock .bracket
  let (t, token) ← match ← look (·.foreign.lookup control) with
    | some f => pure (f.thread, Token.nested)
    | none => do
      let t ← register
      updateForeign control { thread := t }
      pure (t, Token.outermost)
  unlock .bracket
  openBracket control t token

def retire (control : Nat) (t : ThreadId) (token : Token) : EngineCall Unit := do
  if token == .outermost then
    if (← look fun e => (e.thread t).txn.isSome) then raise .bracketLeftInside
    lock .bracket
    modify fun e => { e with foreign := e.foreign.filter (·.1 != control) }
    unlock .bracket
    unregister t

/-- Closes a bracket in `t`, with the transaction that runs if it was `started` there. -/
def closeBracket (control : Nat) (t : ThreadId) (token : Token) (started : Bool) :
    EngineCall Unit := do
  if started then
    if let some x := (← look fun e => (e.thread t).txn) then
      if let some cause ← commit x then raise (.bracketCommit cause)
  retire control t token

def leave (control : Nat) (token : Token) : EngineCall Unit := do
  lock .bracket
  let foreign ← look (·.foreign.lookup control)
  unlock .bracket
  match foreign with
  | none => raise (.bracketNotEntered control)
  | some { frames := [], .. } => raise (.bracketNotEntered control)
  | some { thread := t, frames := started :: rest } =>
    updateForeign control { thread := t, frames := rest }
    if (token == .outermost) != rest.isEmpty then raise (.tokenMismatch token rest.length)
    closeBracket control t token started

end TxHeap
