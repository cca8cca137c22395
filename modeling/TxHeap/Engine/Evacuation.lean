import TxHeap.Engine.Access
import TxHeap.Queue

/-! Minor collections. The live young objects of a transaction move into the old heap, unseen by
others until it commits. -/

namespace TxHeap

structure Evacuation where
  txn : TxnId
  segment : SegmentId
  youngWeak : List Ref := []
  oldWeak : List Ref := []
  queue : Queue Ref := {}
  promoted : UInt64 := 0
  failure : Option Error := none

abbrev EvacuationM := StateT Evacuation EngineM

namespace Evacuation

/-- The old address of the young object at `y`, which moves when it is first met; null once the
old heap is used up. -/
def promote (y : Ref) : EvacuationM Ref := do
  if (← get).failure.isSome then return .null
  let x := (← get).txn
  let k := (← get).segment
  let s ← youngSpan x y
  let h ← getYoung k s 0
  if h &&& Ref.forwardedBit != 0 then return ⟨h &&& ~~~Ref.forwardedBit⟩
  let size ← sizeIn (·.youngView k s)
  let r ← mallocOld size
  if r = .null then
    modify fun ev =>
      { ev with
        failure := some (Error.heapExhausted.withDetails
          (some [("size", .word size), ("segment", .int k)]) none) }
    return .null
  let room ← oldSpan r
  let words := ((← getThe Engine).segment k).nursery.slice s.base (s.base + (size / 8).toNat)
  copyToOld room words
  setYoung k s 0 (Ref.forwardedBit ||| r.bits)
  updateTxn x (·.noteCreated r)
  modify fun ev =>
    { ev with
      oldWeak := if ev.youngWeak.contains y then r :: ev.oldWeak else ev.oldWeak
      promoted := ev.promoted + size
      queue := ev.queue.append r }
  return r

def promoteStack (t : ThreadId) (i : Nat) : List Ref → EvacuationM Unit
  | [] => pure ()
  | r :: rest => do
    if r.isYoung then
      let r ← promote r
      updateThread t fun th => { th with stack := th.stack.setIfInBounds i r }
    promoteStack t (i + 1) rest

def promoteCopySlots (r : Ref) : List Nat → EvacuationM Unit
  | [] => pure ()
  | i :: rest => do
    let x := (← get).txn
    let copy := (((← getThe Engine).txn x).copyOf? r).getD #[]
    let v : Ref := ⟨copy.getD i 0⟩
    if v.isYoung then
      let v ← promote v
      updateTxn x (·.setCopyWord r i v.bits)
    promoteCopySlots r rest

def promoteCopies : List (Ref × Array UInt64) → EvacuationM Unit
  | [] => pure ()
  | (r, words) :: rest => do
    let weak := (← getThe Engine).weakrefs.contains r
    let slots ← slotsIn (arrayView words) weak
    promoteCopySlots r slots
    promoteCopies rest

def promoteOldSlots (s : Span) : List Nat → EvacuationM Unit
  | [] => pure ()
  | i :: rest => do
    let v : Ref := ⟨← getOld s i⟩
    if v.isYoung then
      let v ← promote v
      setOld s i v.bits
    promoteOldSlots s rest

def scan (r : Ref) : EvacuationM Unit := do
  if (← get).failure.isSome then return
  let s ← oldObject r
  let weak := (← get).oldWeak.contains r
  let slots ← slotsIn (·.oldView s) weak
  promoteOldSlots s slots

def scanAll : List Ref → EvacuationM Unit
  | [] => pure ()
  | r :: rest => do
    scan r
    scanAll rest

/-- Looks at moved objects until none is left; a nursery of `n` words holds fewer than `n + 1`. -/
def scanQueue : Nat → EvacuationM Unit
  | 0 => throw (.fault .endless)
  | n + 1 => do
    match (← get).queue.pop? with
    | none => pure ()
    | some (r, queue) =>
      modify fun ev => { ev with queue }
      scan r
      scanQueue n

def forwarded (e : Engine) (k : SegmentId) (y : Ref) : Ref :=
  match e.youngWords? k y with
  | none => .null
  | some s =>
    let h := e.youngWord k s 0
    if h &&& Ref.forwardedBit = 0 then .null else ⟨h &&& ~~~Ref.forwardedBit⟩

def moved (e : Engine) (k : SegmentId) (r : Ref) : Ref := if r.isYoung then forwarded e k r else r

def fixWeakrefs (k : SegmentId) : List Ref → Array Ref → EngineM (Array Ref)
  | [], live => return live
  | w :: rest, live => do
    let r := moved (← get) k w
    if w.isYoung ∧ r = .null then fixWeakrefs k rest live
    else
      let s ← oldObject r
      let last := s.length - 1
      let target : Ref := ⟨← getOld s last⟩
      if target.isYoung then setOld s last (moved (← get) k target).bits
      fixWeakrefs k rest (live.push r)

def fixCopies (x : TxnId) (k : SegmentId) : List (Ref × Array UInt64) → EngineM Unit
  | [] => pure ()
  | (r, words) :: rest => do
    let last := words.size - 1
    let target : Ref := ⟨words.getD last 0⟩
    if (← get).weakrefs.contains r ∧ target.isYoung then
      let target := moved (← get) k target
      updateTxn x (·.setCopyWord r last target.bits)
    fixCopies x k rest

/-- A minor collection after the shadow stack: private copies, created objects and all that they
reach. -/
def promoteReachable (x : TxnId) (k : SegmentId) : EvacuationM Unit := do
  promoteCopies ((← getThe Engine).txn x).writes.toList
  scanAll ((← getThe Engine).txn x).created.toList
  scanQueue (Word.index ((← getThe Engine).segment k).used + 1)

def evacuate (x : TxnId) (k : SegmentId) (t : ThreadId) : EngineCall Evacuation := do
  let weakrefs ← look fun e => (e.segment k).weakrefs.toList
  let start : Evacuation :=
    { txn := x, segment := k, youngWeak := weakrefs.filter (·.isYoung)
      oldWeak := weakrefs.filter (!·.isYoung) }
  lock (.stack t)
  let ((), ev) ← (promoteStack t 0 (← look fun e => (e.thread t).stack.toList)).run start
  unlock (.stack t)
  let ((), ev) ← (promoteReachable x k).run ev
  return ev

def fixTargets (x : TxnId) (k : SegmentId) : EngineM Unit := do
  let live ← fixWeakrefs k ((← get).segment k).weakrefs.toList #[]
  updateSegment k fun s => { s with weakrefs := live }
  fixCopies x k ((← get).txn x).writes.toList

def close (k : SegmentId) (ev : Evacuation) : EngineM Unit := do
  resetNursery k
  updateCounters fun c => { c with minors := c.minors + 1, promoted := c.promoted + ev.promoted }
  logInfo .minorCollectDone k
    [("promoted", .uint ev.promoted), ("exhausted", .bool ev.failure.isSome)]

end Evacuation

/-- Runs a minor collection for `x`. The engine's mutex is held. Answers an error if the old heap
cannot hold what is alive. -/
def collectMinor (x : TxnId) : EngineCall (Option Error) := do
  let k ← look fun e => (e.txn x).segment
  let t ← look fun e => (e.txn x).thread
  let used ← look fun e => (e.segment k).used
  if used = 0 then return none
  logInfo .minorCollectStart k
    [("nursery_used", .uint used), ("objects", .int (← look fun e => (e.segment k).objects.size))]
  let ev ← Evacuation.evacuate x k t
  if ev.failure.isNone then Evacuation.fixTargets x k
  Evacuation.close k ev
  return ev.failure

end TxHeap
