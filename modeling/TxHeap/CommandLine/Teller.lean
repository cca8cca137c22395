import TxHeap.Bank.Workload
import TxHeap.CommandLine.Flags
import TxHeap.Event.Log

/-! The command that runs the bank and checks that no money was made or lost. -/

namespace TxHeap.CommandLine.Teller

def program : String := "orizon-stm"

def flags : List Flag :=
  [{ name := "threads", usage := "worker threads", fallback := .int 8 },
    { name := "segments", usage := "engine segments", fallback := .int 4 },
    { name := "accounts", usage := "number of accounts", fallback := .int 64 },
    { name := "transfers", usage := "transfers per thread", fallback := .int 10000 },
    { name := "initial", usage := "initial balance per account", fallback := .uint 1000 },
    { name := "nursery", usage := "nursery size per segment in bytes", fallback := .uint 65536 },
    { name := "arena", usage := "initial old-heap size in bytes", fallback := .uint 4194304 },
    { name := "major-threshold", usage := "old-heap usage that triggers a major collection"
      fallback := .uint 1048576 },
    { name := "seed", usage := "random seed (0=time)", fallback := .uint 0 },
    { name := "log", usage := "event log path (default: $" ++ Event.pathVariable ++ ")"
      fallback := .text "" },
    { name := "debug", usage := "log debug events", fallback := .switch false }]

def usage (calledBy : String) : String := "Usage of " ++ calledBy ++ ":\n" ++ usages flags

structure Request where
  workload : Bank.Workload
  settings : Settings
  log : String
  debug : Bool

/-- Reads the arguments. A seed of zero is replaced by the time. -/
def request (calledBy : String) (time : UInt64) (args : List String) : Except Output Request :=
  match parseFlags flags args [] with
  | .error r => .error (.refused (usage calledBy) r)
  | .ok (given, _) =>
    let seed := uintOf flags given "seed"
    .ok
      { workload :=
          { threads := intOf flags given "threads"
            accounts := intOf flags given "accounts"
            transfers := intOf flags given "transfers"
            initial := uintOf flags given "initial"
            seed := if seed = 0 then time else seed }
        settings :=
          { segments := intOf flags given "segments"
            nursery := uintOf flags given "nursery"
            arena := uintOf flags given "arena"
            major := uintOf flags given "major-threshold" }
        log := textOf flags given "log"
        debug := switchOf flags given "debug" }

structure LogFile where
  path : String
  options : Event.Options
  owned : Bool

namespace Request

/-- The log file that is created, if any. The one that the environment names is only created for
settings that are valid. -/
def logFile? (q : Request) (environmentPath environmentLevel : String) : Option LogFile :=
  if !q.log.isEmpty then
    some { path := q.log, owned := false
           options := { debug := q.debug, contentionRate := Event.fileContentionRate } }
  else if environmentPath.isEmpty then none
  else
    match q.settings.validate with
    | .error _ => none
    | .ok () =>
      some { path := environmentPath, options := .ofLevel environmentLevel, owned := true }

end Request

def notOpened (f : LogFile) (reason : String) : Output :=
  .failed program (Event.openError f.path reason).text

def failureOutput : Bank.Failure → Output
  | .error e => .failed program e.text
  | .raised r => { exit := 2, err := Text.Utf8.encode ("panic: " ++ r.text ++ "\n") }

def reportText (w : Bank.Workload) (o : Bank.Outcome) (elapsed : String) : String :=
  let s := o.stats
  let c := s.counters
  s!"seed:               {w.seed.toNat}\n" ++
  s!"elapsed:            {elapsed}\n" ++
  s!"commits:            {c.commits.toNat} ({c.inevitableCommits.toNat} inevitable)\n" ++
  s!"aborts:             {c.aborts.toNat} ({c.conflicts.toNat} conflicts)\n" ++
  s!"minor collections:  {c.minors.toNat} ({c.promoted.toNat} bytes promoted)\n" ++
  s!"major collections:  {c.majors.toNat} ({c.freed.toNat} bytes freed)\n" ++
  s!"heap:               {s.heapInUse.toNat} in use, {s.heapSize.toNat} mapped, " ++
  s!"{s.heapReserve.toNat} reserved\n"

def verdict (w : Bank.Workload) (o : Bank.Outcome) : Except String String :=
  if o.total ≠ w.expected then
    .error s!"balance check failed: total {o.total.toNat}, want {w.expected.toNat}"
  else
    match o.heapError with
    | some e => .error e.toText
    | none => .ok s!"balance:            {o.total.toNat} ok\n"

structure Done where
  output : String → Output
  log : Option Event.Log

def perform (fuel : Nat) (q : Request) (file : Option LogFile) : Done :=
  let log := file.map fun f => Event.Log.start f.options true
  match Engine.create .described q.settings log (file.any (·.owned)) with
  | .error e => { output := fun _ => .failed program e.text, log }
  | .ok e =>
    match q.workload.perform fuel (e, 0) with
    | (.error f, (e, _)) => { output := fun _ => failureOutput f, log := e.log }
    | (.ok o, world) =>
      match Bank.alone fuel (onEngine close) world with
      | (.error f, (e, _)) => { output := fun _ => failureOutput f, log := e.log }
      | (.ok (), (e, _)) =>
        { log := e.log.map (·.close)
          output := fun elapsed =>
            let report := reportText q.workload o elapsed
            match verdict q.workload o with
            | .error message => .failed program message (Text.Utf8.encode report)
            | .ok last => { out := Text.Utf8.encode (report ++ last) } }

end TxHeap.CommandLine.Teller
