import TxHeap.Engine.Evacuation

/-! Major collections: what is reachable from the roots is marked, and the rest of the old heap is
freed. Young objects and private copies are looked at where they are. -/

namespace TxHeap

structure Marks where
  bits : Array Bool

namespace Marks

def none (top : UInt64) : Marks :=
  ⟨Array.replicate (((top / Arena.alignment).toNat + 63) / 64 * 64) false⟩

def place (r : Ref) : Nat := (r.bits / Arena.alignment).toNat

def has (m : Marks) (r : Ref) : Except Fault Bool :=
  match m.bits[place r]? with
  | some b => .ok b
  | Option.none => .error .outOfBounds

def set (m : Marks) (r : Ref) : Marks := ⟨m.bits.setIfInBounds (place r) true⟩

end Marks

structure Marking where
  marks : Marks
  weak : List Ref
  youngWeak : List Ref
  queue : Queue Ref := {}

abbrev MarkingM := StateT Marking EngineM

namespace Marking

def liftFault {α : Type} (x : Except Fault α) : MarkingM α :=
  match x with
  | .ok a => return a
  | .error f => throw (.fault f)

def mark (r : Ref) : MarkingM Unit := do
  if r = .null ∨ r.isYoung then return
  if !(← liftFault ((← get).marks.has r)) then
    modify fun m => { m with marks := m.marks.set r, queue := m.queue.append r }

def markAll : List Ref → MarkingM Unit
  | [] => pure ()
  | r :: rest => do
    mark r
    markAll rest

def markSlots (view : Engine → View) (weak : Bool) : MarkingM Unit := do
  let slots ← slotsIn view weak
  let v := view (← getThe Engine)
  markAll (slots.map fun i => ⟨v.word i⟩)

def markCopies : List (Ref × Array UInt64) → MarkingM Unit
  | [] => pure ()
  | (r, words) :: rest => do
    mark r
    markSlots (arrayView words) ((← get).weak.contains r)
    markCopies rest

def markTxn (x : TxnId) : MarkingM Unit := do
  let tx := (← getThe Engine).txn x
  markAll tx.stackAtBegin.toList
  markAll (tx.reads.map (·.1))
  markAll tx.created.toList
  markCopies tx.writes.toList

/-- Marks what a thread and its transaction hold. The shadow stack stays locked if one of its
entries cannot be marked. -/
def markThread (t : ThreadId) (m : Marking) : EngineCall Marking := do
  lock (.stack t)
  let ((), m) ← (markAll (← look fun e => (e.thread t).stack.toList)).run m
  unlock (.stack t)
  match ← look fun e => (e.thread t).txn with
  | none => return m
  | some x =>
    let ((), m) ← (markTxn x).run m
    return m

def markThreads : List ThreadId → Marking → EngineCall Marking
  | [], m => return m
  | t :: rest, m => do markThreads rest (← markThread t m)

def markNursery (k : SegmentId) : List UInt64 → MarkingM Unit
  | [] => pure ()
  | off :: rest => do
    let y := Ref.young k off
    if let some s := (← getThe Engine).youngWords? k y then
      let size ← sizeIn (·.youngView k s)
      markSlots (·.youngView k ⟨s.base, (size / 8).toNat⟩) ((← get).youngWeak.contains y)
    markNursery k rest

def markNurseries : Nat → List Segment → MarkingM Unit
  | _, [] => pure ()
  | k, s :: rest => do
    if s.owner.isSome then markNursery k s.objects.toList
    markNurseries (k + 1) rest

/-- Looks at marked objects until none is left; there are fewer than `n` if there are so many
marks. -/
def markQueue : Nat → MarkingM Unit
  | 0 => throw (.fault .endless)
  | n + 1 => do
    match (← get).queue.pop? with
    | none => pure ()
    | some (r, queue) =>
      modify fun m => { m with queue }
      let s ← oldObject r
      markSlots (·.oldView s) ((← get).weak.contains r)
      markQueue n

/-- The part of marking after the threads: the nurseries and all that is reached so far. -/
def markReachable : MarkingM Unit := do
  markNurseries 0 (← getThe Engine).segments.toList
  markQueue ((← get).marks.bits.size + 1)

def survives (m : Marks) (target : Ref) : Except Fault Bool :=
  if target = .null ∨ target.isYoung then .ok true else m.has target

/-- Forgets committed weak references that died and nulls targets that died. Answers those that
are left. -/
def clearCommitted : List Ref → MarkingM (List Ref)
  | [] => return []
  | w :: rest => do
    if !(← liftFault ((← get).marks.has w)) then clearCommitted rest
    else
      let s ← oldObject w
      let last := s.length - 1
      let target : Ref := ⟨← getOld s last⟩
      if !(← liftFault (survives (← get).marks target)) then setOld s last 0
      return w :: (← clearCommitted rest)

def clearPrivate (k : SegmentId) : List Ref → MarkingM Unit
  | [] => pure ()
  | w :: rest => do
    if w.isYoung then
      let s := ((← getThe Engine).youngWords? k w).getD ⟨0, 0⟩
      let size ← sizeIn (·.youngView k s)
      let last := (size / 8).toNat - 1
      let target : Ref := ⟨← getYoung k s last⟩
      if !(← liftFault (survives (← get).marks target)) then setYoung k s last 0
    else
      let s ← oldObject w
      let last := s.length - 1
      let target : Ref := ⟨← getOld s last⟩
      if !(← liftFault (survives (← get).marks target)) then setOld s last 0
    clearPrivate k rest

def clearCopies (x : TxnId) : List (Ref × Array UInt64) → MarkingM Unit
  | [] => pure ()
  | (r, words) :: rest => do
    if (← get).weak.contains r then
      let last := words.size - 1
      let target : Ref := ⟨words.getD last 0⟩
      if !(← liftFault (survives (← get).marks target)) then updateTxn x (·.setCopyWord r last 0)
    clearCopies x rest

def clearSegments : Nat → List Segment → MarkingM Unit
  | _, [] => pure ()
  | k, s :: rest => do
    clearPrivate k s.weakrefs.toList
    if let some t := s.owner then
      if let some x := ((← getThe Engine).thread t).txn then
        clearCopies x ((← getThe Engine).txn x).writes.toList
    clearSegments (k + 1) rest

/-- Forgets dead weak references and dead targets. Answers how many were forgotten. -/
def clearWeakrefs : MarkingM Nat := do
  let before := (← getThe Engine).weakrefs
  let left ← clearCommitted before
  modifyThe Engine fun e => { e with weakrefs := left }
  clearSegments 0 (← getThe Engine).segments.toList
  return before.length - left.length

def freeUnmarked (m : Marks) : ArenaM UInt64 :=
  Arena.walk (fun freed p size _ => do
    if ← m.has ⟨p⟩ then return { value := freed }
    else return { value := freed + (size + Arena.overhead), free := true }) 0

def releaseAbove : EngineM Unit := do
  let lo := (← get).arena.top
  let hi := (← get).arena.size
  match (← get).releaseFailure with
  | some text =>
    logInfo .arenaResize (-1)
      [("release_from", .uint lo), ("release_to", .uint hi), ("error", .text text)]
  | none =>
    onArena (modify fun a => { a with memory := Region.releasePages a.memory lo hi })

end Marking

def Engine.unmarked (e : Engine) : Marking :=
  let made := (e.segments.toList.map (·.weakrefs.toList)).flatten
  { marks := .none e.arena.top
    weak := e.weakrefs ++ made.filter (!·.isYoung)
    youngWeak := made.filter (·.isYoung) }

def Engine.registered (e : Engine) : List ThreadId :=
  (List.range e.threads.size).filter fun t => (e.thread t).registered

def sweepUnmarked (m : Marking) : EngineM Unit := do
  let (dead, m) ← Marking.clearWeakrefs.run m
  let freed ← onArena (Marking.freeUnmarked m.marks)
  let merged ← onArena Arena.sweep
  Marking.releaseAbove
  let left := (← get).heapUse
  let next := (← get).settings.nextMajor left
  modify fun e => { e with majorThreshold := next }
  updateCounters fun c => { c with majors := c.majors + 1, freed := c.freed + freed }
  logInfo .majorCollectDone (-1)
    [("freed", .uint freed), ("in_use", .uint left), ("merged", .int merged),
      ("dead_weakrefs", .int dead), ("next_threshold", .uint next)]

/-- Collects the old heap. All other threads are paused and the engine's mutex is held. -/
def collectOld : EngineCall Unit := do
  logInfo .majorCollectStart (-1)
    [("in_use", .uint (← look (·.heapUse))), ("threshold", .uint (← look (·.majorThreshold)))]
  let m ← look (·.unmarked)
  let ((), m) ← (Marking.markAll (← look (·.prebuilt.toList))).run m
  let m ← Marking.markThreads (← look (·.registered)) m
  let ((), m) ← Marking.markReachable.run m
  sweepUnmarked m

def checkOpen : EngineM Unit := do
  if (← get).closed then raise .engineClosed

/-- Runs `x` while every other thread is paused. The engine's mutex is held. -/
def whilePaused {α : Type} (who : Caller) (mode : PauseMode) (x : EngineCall α) :
    EngineCall α := do
  beginPause who mode
  x.ending (endPause who)

def collect (t : ThreadId) : EngineCall Unit := do
  if (← look fun e => (e.thread t).txn.isSome) then raise .collectedInside
  withLock .engine do
    checkOpen
    whilePaused (.thread t) .unique collectOld

/-- Collects the old heap if it is too full, and still so when the pause has come into effect. -/
def collectIfDue (t : ThreadId) : EngineCall Unit :=
  withLock .engine do
    if !(← look (·.closed)) && (← look (·.majorDue)) then
      whilePaused (.thread t) .unique do
        if (← look (·.majorDue)) then collectOld

end TxHeap
