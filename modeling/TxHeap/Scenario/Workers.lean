import TxHeap.Scenario.Run

/-! Workers take their steps one at a time, each until it ends or waits. Then whoever can goes on,
the longest waiting first. -/

namespace TxHeap.Scenario

structure Waiter where
  worker : String
  wait : Wait
  resume : World → Course World Report

structure Machine where
  world : World
  waiters : List Waiter := []
  /-- The workers met so far; the place of each is the number of its control. -/
  controls : Array String := #[]

namespace Machine

def advance (worker : String) (waiters : List Waiter) (controls : Array String) :
    Course World Report → Machine × Option Report
  | .done report world => ({ world, waiters, controls }, some report)
  | .raised r world => ({ world, waiters, controls }, some (.mk (.raised r) .none []))
  | .waiting wait world resume =>
    ({ world, waiters := waiters ++ [{ worker, wait, resume }], controls }, none)
  | .calling _ world resume => advance worker waiters controls (resume (.ok ()) world)

def pickReady (e : Engine) : List Waiter → Option (Waiter × List Waiter)
  | [] => none
  | w :: rest =>
    if w.wait.ready e then some (w, rest)
    else (pickReady e rest).map fun (r, others) => (r, w :: others)

def wakeUp (m : Machine) (w : Waiter) : Machine × Option Report :=
  match m with
  | { world := (e, memo), waiters, controls } =>
    match w.wait.wake e with
    | (e, some wait) =>
      ({ world := (e, memo), waiters := waiters ++ [{ w with wait }], controls }, none)
    | (e, none) => advance w.worker waiters controls (w.resume (e, memo))

/-- Lets waiters go on until none can, at most `n` times. Answers the reports of the steps that
ended, by worker. -/
def settle : Nat → Machine → List (String × Report) → Machine × List (String × Report)
  | 0, m, ended => (m, ended)
  | n + 1, m, ended =>
    match pickReady m.world.1 m.waiters with
    | none => (m, ended)
    | some (w, others) =>
      match wakeUp { m with waiters := others } w with
      | (m, some report) => settle n m (ended ++ [(w.worker, report)])
      | (m, none) => settle n m ended

inductive Seen
  | busy
  | blocked (woke : List (String × Report))
  | ended (report : Report) (woke : List (String × Report))

def control (m : Machine) (worker : String) : Nat × Machine :=
  match m.controls.findIdx? (· == worker) with
  | some i => (i, m)
  | none => (m.controls.size, { m with controls := m.controls.push worker })

def isWaiting (m : Machine) (worker : String) : Bool := m.waiters.any (·.worker == worker)

def topReport : Option Report × Flow → Report
  | (some report, _) => report
  | (none, .next) => .mk (.ok .nothing) .none []
  | (none, .returned e) => .mk (.error e) .none []
  | (none, .raised r) => .mk (.raised r) .none []

def step (fuel : Nat) (m : Machine) (worker : String) (s : Step) : Seen × Machine :=
  if m.isWaiting worker then (.busy, m)
  else
    let (control, m) := m.control worker
    match m with
    | { world, waiters, controls } =>
      let course := (runStep fuel { control, worker } s world).bind fun r w => .done (topReport r) w
      let (m, report) := advance worker waiters controls course
      let (m, woke) := settle fuel m []
      let own := report.or (woke.lookup worker)
      let woke := woke.filter (·.1 != worker)
      match own with
      | some report => (.ended report woke, m)
      | none => (.blocked woke, m)

end Machine

def logLength (m : Machine) : Nat := (m.world.1.log.map (·.entries.size)).getD 0

/-- The lines written since the log held `n` records, sorted if workers may have written them at
the same time. -/
def linesSince (n : Nat) (concurrent : Bool) (m : Machine) : List String :=
  let entries := (m.world.1.log.map (·.entries.toList)).getD []
  let lines := (entries.drop n).map (·.line)
  if concurrent then lines.mergeSort (fun a b => decide (a ≤ b)) else lines

structure StepReport where
  seen : Machine.Seen
  lines : List String

def takeStep (fuel : Nat) (m : Machine) (s : Step) : StepReport × Machine :=
  let before := logLength m
  let waitedBefore := !m.waiters.isEmpty
  let (seen, m) := m.step fuel (s.worker.getD "") s
  ({ seen, lines := linesSince before (waitedBefore || !m.waiters.isEmpty) m }, m)

def run (fuel : Nat) (m : Machine) : List Step → List StepReport
  | [] => []
  | s :: rest =>
    let (report, m) := takeStep fuel m s
    report :: run fuel m rest

end TxHeap.Scenario
