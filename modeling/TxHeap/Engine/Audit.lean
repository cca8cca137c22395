import TxHeap.Engine.Registration

/-! Setting an engine up and closing it, objects outside of transactions, statistics, and a check
of the whole heap. -/

namespace TxHeap

namespace Arena.SizeError

def toError : SizeError → Error
  | tooSmall size => .invalidSize size "largemalloc.New"
  | exceedsMemory size => .invalidSize size "largemalloc.New (exceeds backing memory)"

end Arena.SizeError

namespace Arena.Damage

def toText : Damage → String
  | badSize size off => s!"largemalloc: bad chunk size {size.toNat} at {off.toNat}"
  | badBack off got want =>
    s!"largemalloc: chunk at {off.toNat} records previous size {got.toNat}, want {want.toNat}"
  | topBeyondSize top size => s!"largemalloc: top {top.toNat} beyond size {size.toNat}"

end Arena.Damage

namespace Engine

def create (layout : Layout) (settings : Settings) (log : Option Event.Log) (ownsLog : Bool) :
    Except Error Engine := do
  settings.validate
  let region ← Region.reserve settings.reserve
  let arena ← (Arena.ofMemory region.memory settings.arena).mapError Arena.SizeError.toError
  let segment : Segment := { nursery := .zeros (settings.nursery / 8).toNat }
  return { settings, layout, log, ownsLog, arena,
           segments := Array.replicate settings.segments.toNat segment,
           majorThreshold := settings.major }

structure Stats where
  counters : Counters
  clock : UInt64
  heapInUse : UInt64
  heapSize : UInt64
  heapReserve : UInt64
  threads : Nat
  segmentsInUse : Nat
  weakrefs : Nat

end Engine

def stats : EngineCall Engine.Stats :=
  withLock .engine do
    let e ← get
    return { counters := e.counters, clock := e.clock, heapInUse := e.arena.inUse
             heapSize := e.arena.size, heapReserve := e.arena.capacity
             threads := e.threadCount, segmentsInUse := e.segmentsInUse
             weakrefs := e.weakrefs.length }

def close : EngineCall Unit :=
  withLock .engine do
    if !(← look (·.closed)) then
      let n ← look (·.threadCount)
      if n ≠ 0 then raise (.threadsRegistered n)
      modify fun e => { e with closed := true }
      if (← look (·.ownsLog)) then updateLog (·.close)

def setWords (s : Span) : List (Nat × UInt64) → EngineM Unit
  | [] => pure ()
  | (i, v) :: rest => do
    setOld s i v
    setWords s rest

def allocPrebuilt (size : UInt64) (words : List (Nat × UInt64)) :
    EngineCall (Except Error Ref) := do
  match (← look (·.roundSize? size)) with
  | none => return .error (.heapExhaustedBy size)
  | some size =>
    withLock .engine do
      checkOpen
      park .outside
      let r ← mallocOld size
      if r = .null then return .error (.heapExhaustedBy size)
      setWords ⟨Word.index r.bits, (size / 8).toNat⟩ words
      setHeader r 0
      modify fun e => { e with prebuilt := e.prebuilt.push r }
      return .ok r

inductive HeapError
  | arena (d : Arena.Damage)
  | header (r : Ref) (h clock : UInt64)
  | deadWeakref (w : Ref)
  | deadTarget (w target : Ref)

namespace HeapError

def toText : HeapError → String
  | arena d => d.toText
  | header r h clock =>
    s!"stm: object {r.toText} has header {Text.hexText h.toNat} beyond clock {clock.toNat}"
  | deadWeakref w => s!"stm: weakref {w.toText} is not allocated"
  | deadTarget w target => s!"stm: weakref {w.toText} targets freed memory {target.toText}"

end HeapError

def auditHeaders : EngineM (List Ref × Option HeapError) := do
  let clock := (← get).clock
  onArena <| Arena.walk (fun (seen, _) p _ m => do
    let r : Ref := ⟨p⟩
    let h ← m.read? (Word.index p)
    let bad := h &&& lockBit ≠ 0 ∨ versionOf h > clock
    return { value := (r :: seen, if bad then some (.header r h clock) else none)
             stop := decide bad }) ([], none)

def auditWeakrefs (allocated : List Ref) : List Ref → EngineM (Option HeapError)
  | [] => return none
  | w :: rest => do
    if !allocated.contains w then return some (.deadWeakref w)
    let s ← oldObject w
    let target : Ref := ⟨← getOld s (s.length - 1)⟩
    if target ≠ .null ∧ !allocated.contains target then return some (.deadTarget w target)
    auditWeakrefs allocated rest

def audit : EngineM (Option HeapError) := do
  match ← inspectEngine (·.arena.verify) with
  | some d => return some (.arena d)
  | none =>
    match ← auditHeaders with
    | (_, some bad) => return some bad
    | (allocated, none) => auditWeakrefs allocated (← get).weakrefs

/-- Pauses every thread and checks the old heap: its chunks, the locks and versions of objects, and
committed weak references. -/
def checkHeap : EngineCall (Option HeapError) :=
  withLock .engine do
    checkOpen
    whilePaused .system .whileLocked (audit : EngineM (Option HeapError))

end TxHeap
