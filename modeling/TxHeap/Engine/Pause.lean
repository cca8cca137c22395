import TxHeap.Engine.State

/-! Mutexes, sleeping, pauses and the assignment of segments. A thread with a segment runs until it
reaches a safe point: a poll that finds a pause asked for, or any wait. A pause is granted once no
other segment is running. A sleeper that is woken needs the engine's mutex to go on. -/

namespace TxHeap

namespace Engine

/-- Whether `who` has to stay in a pause of someone else. -/
def pausedFor (e : Engine) (who : Caller) : Bool :=
  match e.pauser with
  | some owner => owner != who
  | none => false

def wakeAll (e : Engine) (c : Condition) : Engine :=
  { e with asleep := e.asleep.filter fun (_, d) => d != c }

def dropFirst (c : Condition) : List (Nat × Condition) → List (Nat × Condition)
  | [] => []
  | (t, d) :: rest => if d = c then rest else (t, d) :: dropFirst c rest

def wakeOne (e : Engine) (c : Condition) : Engine := { e with asleep := dropFirst c e.asleep }

def setStanding (e : Engine) (k : Option SegmentId) (standing : Standing) : Engine :=
  match k with
  | some k => { e with segments := e.segments.modify k fun s => { s with standing } }
  | none => e

def acquire (e : Engine) (m : Mutex) : Engine := { e with locked := m :: e.locked }

def giveUp (e : Engine) (m : Mutex) : Engine := { e with locked := e.locked.erase m }

/-- Goes to sleep on `c` at a safe point and lets the engine's mutex go. -/
def rest (e : Engine) (who : Caller) (k : Option SegmentId) (c : Condition) : Engine × Sleeper :=
  let e := match k with
    | some _ => (e.setStanding k .atSafePoint).wakeAll .safePoint
    | none => e
  let ticket := e.tickets
  let e := { e with asleep := e.asleep ++ [(ticket, c)], tickets := ticket + 1 }
  (e.giveUp .engine, { who, segment := k, ticket })

def note (e : Engine) (kind : Event.Kind) (k : Option SegmentId)
    (fields : List (String × Event.Value)) : Engine :=
  { e with log := e.log.map (·.info kind.name (segmentNumber k) fields) }

def noteDone (e : Engine) (kind : Event.Kind) (k : Option SegmentId) : Engine :=
  e.note .waitDone k [("for", .text kind.name)]

/-- The segment `t` would get: the one it used last if that is free, else the first free one. -/
def pickSegment? (e : Engine) (t : ThreadId) : Option SegmentId :=
  let isFree := fun k => (e.segments[k]?).any (·.owner.isNone)
  match (e.thread t).lastSegment.filter isFree with
  | some k => some k
  | none => e.segments.findIdx? (·.owner.isNone)

def othersStopped (e : Engine) (who : Caller) : Bool :=
  e.segments.all fun s =>
    match s.owner with
    | some t => Caller.thread t == who || s.standing != .running
    | none => true

end Engine

namespace Goal

def condition : Goal → Condition
  | othersStopped => .safePoint
  | freeSegment => .freeSegment
  | noInevitable => .inevitableDone

def kind : Goal → Event.Kind
  | othersStopped => .waitSyncPause
  | freeSegment => .waitFreeSegment
  | noInevitable => .waitOtherInevitable

def holds (g : Goal) (who : Caller) (e : Engine) : Bool :=
  match g, who with
  | othersStopped, who => e.othersStopped who
  | freeSegment, .thread t => (e.pickSegment? t).isSome
  | freeSegment, _ => true
  | noInevitable, _ => e.inevitable.isNone

end Goal

namespace Wait

def ready (w : Wait) (e : Engine) : Bool :=
  match w with
  | mutex m => !e.isLocked m
  | backoff => true
  | pause z => awake z.ticket e
  | goal _ z => awake z.ticket e
  | pauseInGoal _ z => awake z.ticket e
where
  awake (ticket : Nat) (e : Engine) : Bool :=
    e.asleep.all (fun (t, _) => t != ticket) && !e.isLocked .engine

def stayPaused (z : Sleeper) (e : Engine) : Engine × Option Sleeper :=
  if e.pausedFor z.who then
    let (e, z) := e.rest z.who z.segment .released
    (e, some z)
  else ((e.setStanding z.segment .running).noteDone .waitSyncPause z.segment, none)

def enterPause (who : Caller) (k : Option SegmentId) (e : Engine) : Engine × Sleeper :=
  (e.note .waitSyncPause k [("mode", .text e.pauseMode.toText)]).rest who k .released

def settle (g : Goal) (z : Sleeper) (e : Engine) : Engine × Option Wait :=
  if g.holds z.who e then
    ((e.setStanding z.segment .running).noteDone g.kind z.segment, none)
  else
    let (e, z) := e.rest z.who z.segment g.condition
    (e, some (goal g z))

/-- What a waiting call does when it is woken: it goes on, or waits again. -/
def wake (w : Wait) (e : Engine) : Engine × Option Wait :=
  match w with
  | mutex m => (e.acquire m, none)
  | backoff => (e, none)
  | pause z =>
    let (e, z) := stayPaused z (e.acquire .engine)
    (e, z.map pause)
  | goal g z =>
    let e := e.acquire .engine
    if e.pausedFor z.who then
      let (e, z) := enterPause z.who z.segment e
      (e, some (pauseInGoal g z))
    else settle g z e
  | pauseInGoal g z =>
    match stayPaused z (e.acquire .engine) with
    | (e, some z) => (e, some (pauseInGoal g z))
    | (e, none) => settle g z e

end Wait

def lock (m : Mutex) : EngineCall Unit := fun e =>
  if e.isLocked m then .waiting (.mutex m) e fun e => .done () e else .done () (e.acquire m)

def unlock (m : Mutex) : EngineM Unit := modify (·.giveUp m)

/-- Runs `x` with `m` held and gives `m` up however `x` ends. -/
def withLock {α : Type} (m : Mutex) (x : EngineCall α) : EngineCall α := do
  lock m
  x.ending (unlock m)

def park (who : Caller) : EngineCall Unit := fun e =>
  if e.pausedFor who then
    let (e, z) := Wait.enterPause who (e.segmentOf who) e
    .waiting (.pause z) e fun e => .done () e
  else .done () e

/-- Waits for `g` at a safe point. The engine's mutex is held. -/
def await (who : Caller) (g : Goal) : EngineCall Unit := fun e =>
  if g.holds who e then .done () e
  else
    let k := e.segmentOf who
    let (e, z) := (e.note g.kind k []).rest who k g.condition
    .waiting (.goal g z) e fun e => .done () e

def poll (who : Caller) : EngineCall Unit := do
  if (← look (·.pauser.isSome)) then
    lock .engine
    park who
    unlock .engine

/-- Stops every other thread at a safe point. The engine's mutex is held. -/
def beginPause (who : Caller) (mode : PauseMode) : EngineCall Unit := do
  park who
  if (← look (·.pauser)) == some who then raise (.nestedPause who)
  modify fun e => { e with pauser := some who, pauseMode := mode }
  await who .othersStopped

def endPause (who : Caller) : EngineM Unit := do
  if (← get).pauser != some who then raise (.pauseNotOwned who)
  modify fun e => { e with pauser := none, pauseMode := .none }.wakeAll .released

/-- Whether `who` holds a pause that outlasts the engine's mutex. -/
def ownsUniquePause (who : Caller) (e : Engine) : Bool :=
  e.pauser == some who && e.pauseMode == .unique

/-- Gives `t` a free segment, waiting for one if need be. The engine's mutex is held. -/
def takeSegment (t : ThreadId) : EngineCall SegmentId := do
  if let some k := (← look fun e => (e.thread t).segment) then raise (.segmentHeld t k)
  await (.thread t) .freeSegment
  let k := (← look (·.pickSegment? t)).getD 0
  updateSegment k fun s => { s with owner := some t, standing := .running }
  updateThread t fun th => { th with segment := some k, lastSegment := some k }
  return k

def leaveSegment (t : ThreadId) : EngineM Unit := do
  match ((← get).thread t).segment with
  | none => raise (.segmentNotHeld t)
  | some k =>
    updateSegment k fun s => { s with owner := none, standing := .free }
    updateThread t fun th => { th with segment := none }
    modify fun e => (e.wakeOne .freeSegment).wakeAll .safePoint

end TxHeap
