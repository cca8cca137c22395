import TxHeap.Scenario.World

/-! What each step does, and how bodies and callbacks run. -/

namespace TxHeap.Scenario

def initialWords (refs : Nat) (data : List UInt64) : List (Nat × UInt64) :=
  (1, Layout.describe refs data.length) ::
    data.zipIdx.map fun (v, i) => (2 + refs + i, v)

def storeAll (x : TxnId) (r : Ref) : List (Nat × UInt64) → EngineCall Unit
  | [] => pure ()
  | (w, v) :: rest => do
    store x r w v
    storeAll x r rest

def newObject (x : TxnId) (refs : Nat) (data : List UInt64) (zeros : Nat) : EngineCall Ref := do
  let r ← alloc x (Layout.bytes refs (data.length + zeros))
  store x r 1 (Layout.describe refs (data.length + zeros))
  storeAll x r (data.zipIdx.map fun (v, i) => (2 + refs + i, v))
  return r

def prepend (x : TxnId) (t : ThreadId) (i : Int) (n : Nat) : Nat → EngineCall Unit
  | 0 => pure ()
  | left + 1 => do
    let r ← alloc x 32
    store x r 1 (Layout.describe 1 1)
    storeRef x r 2 (← root t i)
    store x r 3 (UInt64.ofNat (n - (left + 1)))
    setRoot t i r
    prepend x t i n left

def followList (x : TxnId) : Nat → Ref → EngineCall (List UInt64)
  | 0, _ => return []
  | n + 1, r => do
    if r = .null then return []
    let v ← load x r 3
    let next ← loadRef x r 2
    return v :: (← followList x n next)

def segmentReports (e : Engine) : List SegmentReport :=
  e.segments.toList.map fun s =>
    { owner := s.owner, standing := s.standing, used := s.used, objects := s.objects.size
      weakrefs := s.weakrefs.toList }

/-- The allocated chunks of the old heap: where the payload begins, its size and first word. -/
def heapReport : EngineM (List (UInt64 × UInt64 × UInt64)) := do
  let chunks ← onArena <| Arena.walk (fun found p size m => do
    return { value := (p, size, ← m.read? (Word.index p)) :: found }) []
  return chunks.reverse

def threadReport (t : ThreadId) : EngineCall ThreadReport := do
  let phase ← look (·.phaseOf t)
  let current ← look fun e => (e.thread t).txn.isSome
  let pending ← look fun e => (e.thread t).onAbort.size
  return { phase, current, pending, depth := ← depth t }

def txnReport (x : TxnId) (e : Engine) : TxnReport :=
  { phase := (e.txn x).phase, readVersion := (e.txn x).readVersion, segment := (e.txn x).segment
    thread := (e.txn x).thread }

def peek (off : UInt64) : EngineM UInt64 :=
  inspectEngine fun e =>
    if e.closed then .error .outOfBounds else e.arena.memory.read? (Word.index off)

def poke (off v : UInt64) : EngineM Unit := do
  if (← get).closed then throw (.fault .outOfBounds)
  onArena (Arena.store (Word.index off) v)

def beginOn (worker : String) : Program Answer := do
  let t ← threadOf worker
  let x ← engineCall (begin t)
  updateWorker worker fun w => { w with txn := some x }
  lookEngine fun e => .begun (e.txn x).segment (e.txn x).readVersion

def enterOn (worker : String) (control : Nat) : Program Answer := do
  let (t, token) ← engineCall (enter control)
  let x ← lookEngine fun e => (e.thread t).txn
  updateWorker worker fun w => { thread := some t, txn := x.or w.txn }
  return .entered t token

/-- The result of a step that answers an error or nothing. -/
def orError (a : Answer) : Option Error → Except Error Answer
  | none => .ok a
  | some e => .error e

def threadOp (worker : String) (op : Op) : Program (Except Error Answer) := do
  let t ← threadOf worker
  match op with
  | .unregister => engineCall (unregister t); return .ok .nothing
  | .state => return .ok (.thread (← engineCall (threadReport t)))
  | .collect => engineCall (collect t); return .ok .nothing
  | .safePoint => engineCall (poll (.thread t)); return .ok .nothing
  | .push r =>
    let r ← resolve r
    engineCall (push t r)
    return .ok (.int (← engineCall (depth t)))
  | .pop => return .ok (.ref (← engineCall (pop t)))
  | .root i => return .ok (.ref (← engineCall (root t i)))
  | .setRoot i r =>
    let r ← resolve r
    engineCall (setRoot t i r)
    return .ok .nothing
  | .stack =>
    engineCall (withLock (.stack t) (look fun e => .ok (.refs (e.thread t).stack.toList)))
  | .beginPause mode =>
    engineCall (withLock .engine (beginPause (.thread t) mode))
    return .ok .nothing
  | .endPause =>
    engineCall (withLock .engine (endPause (.thread t) : EngineM Unit))
    return .ok .nothing
  | .ownsPause =>
    engineCall (withLock .engine (look fun e => .ok (.bool (ownsUniquePause (.thread t) e))))
  | .takeSegment => return .ok (.int (← engineCall (withLock .engine (takeSegment t))))
  | .leaveSegment =>
    engineCall (withLock .engine (leaveSegment t : EngineM Unit))
    return .ok .nothing
  | _ => return .ok .nothing

def txnOp (worker : String) (op : Op) : Program (Except Error Answer) := do
  let x ← txnOf worker
  match op with
  | .txnInfo => lookEngine fun e => .ok (.txn (txnReport x e))
  | .commit => return orError .nothing (← engineCall (commit x))
  | .abort => engineCall (abort x); return .ok .nothing
  | .load r w => return .ok (.word (← engineCall (load x (← resolve r) w)))
  | .loadRef r w => return .ok (.ref (← engineCall (loadRef x (← resolve r) w)))
  | .store r w v => engineCall (store x (← resolve r) w v); return .ok .nothing
  | .add r w v =>
    let r ← resolve r
    let v := (← engineCall (load x r w)) + v
    engineCall (store x r w v)
    return .ok (.word v)
  | .storeRef r w v =>
    let r ← resolve r
    let v ← resolve v
    engineCall (storeRef x r w v)
    return .ok .nothing
  | .alloc size => return .ok (.ref (← engineCall (alloc x size)))
  | .new refs data zeros => return .ok (.ref (← engineCall (newObject x refs data zeros)))
  | .weak size target => return .ok (.ref (← engineCall (allocWeak x size (← resolve target))))
  | .newWeak refs target =>
    let target ← resolve target
    let r ← engineCall (allocWeak x (Layout.bytes refs 0) target)
    engineCall (store x r 1 (Layout.describe refs 0))
    return .ok (.ref r)
  | .weakTarget r => return .ok (.ref (← engineCall (weakTarget x (← resolve r))))
  | .isWeak r => return .ok (.bool (← engineCall (isWeak x (← resolve r))))
  | .inevitable reason =>
    engineCall (becomeInevitable x reason)
    lookEngine fun e => .ok (.word (e.txn x).readVersion)
  | .chain i n =>
    let t ← lookEngine fun e => (e.txn x).thread
    engineCall (prepend x t i n n)
    return .ok .nothing
  | .follow r => return .ok (.words (← engineCall (followList x 1000 (← resolve r))))
  | _ => return .ok .nothing

/-- Registers a callback, or removes it. Answers how many abort callbacks are pending. -/
def registerHook (worker : String) (hook : Hook) (key : Key) (remove : Bool)
    (body : Option (List Step)) : Program (Except Error Answer) := do
  let t ← threadOf worker
  let function ← lookMemo (·.functions.size)
  let callback := if remove then none else some { key, function }
  updateMemo fun m =>
    { m with functions := m.functions.push { hook, key, worker, thread := t, body } }
  match hook with
  | .abort => engineCall (onAbort t key callback : EngineM Unit)
  | .commit => engineCall (onCommit t key callback : EngineM Unit)
  lookEngine fun e => .ok (.int (e.thread t).onAbort.size)

def plainOp (worker : String) (control : Nat) (op : Op) : Program (Except Error Answer) := do
  match op with
  | .stats => return .ok (.stats (← engineCall stats))
  | .clock => lookEngine fun e => .ok (.word e.clock)
  | .checkHeap =>
    match ← engineCall checkHeap with
    | none => return .ok (.text "valid")
    | some bad => return .error (.plain bad.toText)
  | .close => engineCall close; return .ok .nothing
  | .segments => lookEngine fun e => .ok (.segments (segmentReports e))
  | .heap => return .ok (.heap (← engineCall (heapReport : EngineM _)))
  | .threshold => lookEngine fun e => .ok (.word e.majorThreshold)
  | .prebuilt size refs data init =>
    let size := size.getD (Layout.bytes refs data.length)
    let words := if init then initialWords refs data else []
    match ← engineCall (allocPrebuilt size words) with
    | .ok r => return .ok (.ref r)
    | .error e => return .error e
  | .peek off => return .ok (.word (← engineCall (peek off : EngineM _)))
  | .poke off v => engineCall (poke off v : EngineM _); return .ok .nothing
  | .failRelease message =>
    modify fun (e, m) => ({ e with releaseFailure := some message }, m)
    return .ok .nothing
  | .register =>
    let t ← engineCall register
    updateWorker worker fun w => { w with thread := some t }
    return .ok (.int t)
  | .enter => return .ok (← enterOn worker control)
  | .leave token => engineCall (leave control token); return .ok .nothing
  | .begin => return .ok (← beginOn worker)
  | .unregister | .state | .collect | .safePoint | .push _ | .pop | .root _ | .setRoot _ _ | .stack
  | .beginPause _ | .endPause | .ownsPause | .takeSegment | .leaveSegment => threadOp worker op
  | _ => txnOp worker op

structure Place where
  control : Nat
  worker : String
  attempt : Nat := 0
  txn : Option TxnId := none

inductive Flow
  | next
  | returned (e : Error)
  | raised (r : Raise)

namespace Flow

def result : Flow → Program (Option Error)
  | next => return none
  | returned e => return some e
  | raised r => throw r

end Flow

def isTaken (place : Place) (step : Step) (e : Engine) : Bool :=
  let attempted := match step.attempts with
    | some ns => ns.contains (place.attempt : Int)
    | none => true
  let wanted := match step.ifInevitable with
    | some b => (place.txn.any fun x => (e.txn x).phase == .inevitable) == b
    | none => true
  attempted && wanted

def verdictOf : Except Raise (Except Error Answer) → Verdict
  | .ok (.ok a) => .ok a
  | .ok (.error e) => .error e
  | .error r => .raised r

def flowOf (step : Step) : Verdict → Flow
  | .ok _ => .next
  | .error e => if step.returns then .returned e else .next
  | .raised r => if step.catches then .next else .raised r

def runsOf (op : Op) (runs : List (List Report)) : Runs :=
  match op with
  | .atomically _ _ => .attempts runs
  | .attempt _ => .single runs.flatten
  | _ => .none

def recordRun (frame : Nat) (reports : List Report) : Program Unit :=
  updateMemo fun m => { m with runs := (frame, reports) :: m.runs }

def recordCall (frame : Nat) (report : CallReport) : Program Unit :=
  updateMemo fun m => { m with calls := (frame, report) :: m.calls }

mutual

/-- Runs a step. `fuel` bounds how deep bodies and callbacks nest and how often they are tried. -/
def runStep (fuel : Nat) (place : Place) (step : Step) : Program (Option Report × Flow) :=
  match fuel with
  | 0 => throw .unfinished
  | fuel + 1 => do
    let worker := step.worker.getD place.worker
    if !(← lookEngine (isTaken place step)) then return (none, .next)
    match step.op with
    | .fail message => return (none, .returned (.plain message))
    | .throw message => return (none, .raised (.thrown message))
    | op =>
      let frame ← newFrame
      let course : Program (Except Error Answer) :=
        match op with
        | .onHook hook key remove body => registerHook worker hook key remove body
        | .atomically policy body => do
          let t ← threadOf worker
          let error ← atomically fuel t policy fun i x => do
            updateWorker worker fun w => { w with txn := some x }
            let (reports, flow) ←
              runBody fuel { place with worker, attempt := i, txn := some x } body
            recordRun frame reports
            flow.result
          lookEngine fun e => orError (.text (e.phaseOf t).toText) error
        | .attempt body => do
          let x ← txnOf worker
          let error ← attemptBody x do
            let (reports, flow) ← runBody fuel
                { place with worker, attempt := 0, txn := some x } body
            recordRun frame reports
            flow.result
          return orError .nothing error
        | op => plainOp worker place.control op
      let outcome ← Action.outcome fun w =>
        (course w).answerCalls fun c => runCallback fuel place.control frame c
      let (runs, calls) ← takeFrame frame
      let verdict := verdictOf outcome
      if let (.ok (.ref r), some name) := (verdict, step.name) then bindRef name r
      return (some (.mk verdict (runsOf op runs) calls), flowOf step verdict)

def runBody (fuel : Nat) (place : Place) (steps : List Step) : Program (List Report × Flow) :=
  match fuel with
  | 0 => throw .unfinished
  | fuel + 1 =>
    match steps with
    | [] => return ([], .next)
    | step :: rest => do
      let (report, flow) ← runStep fuel place step
      match flow with
      | .next =>
        let (reports, flow) ← runBody fuel place rest
        return (report.toList ++ reports, flow)
      | flow => return (report.toList, flow)

/-- Calls back a registered function for the step of `frame`. -/
def runCallback (fuel : Nat) (control frame : Nat) (c : Callback) : Program Unit :=
  match fuel with
  | 0 => throw .unfinished
  | fuel + 1 => do
    match ← lookMemo (·.functions[c.function]?) with
    | none => pure ()
    | some f =>
      let pending ← lookEngine fun e => (e.thread f.thread).onAbort.size
      let phase ← lookEngine (·.phaseOf f.thread)
      match f.body with
      | none => recordCall frame (.mk f.hook f.key pending phase none)
      | some body =>
        let (reports, flow) ← runBody fuel { control, worker := f.worker } body
        recordCall frame (.mk f.hook f.key pending phase (some reports))
        if let .raised r := flow then throw r

end

end TxHeap.Scenario
