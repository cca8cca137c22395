import TxHeap.CommandLine.Report
import TxHeap.CommandLine.Teller

/-! The two commands on files, the environment and the clock. The first argument names the
command. -/

namespace TxHeap.CommandLine

/-- Far more attempts and turns than a workload takes. -/
def enough : Nat := 1000000000000

/-- Milliseconds between two looks at a log that is followed. -/
def pollInterval : UInt32 := 100

def environment (name : String) : IO String := return (← IO.getEnv name).getD ""

def reason : IO.Error → String
  | .noFileOrDirectory .. => "no such file or directory"
  | .permissionDenied .. => "permission denied"
  | .inappropriateType .. => "is a directory"
  | e => toString e

def load (path : String) : IO (Except IO.Error (List UInt8)) := do
  match ← (IO.FS.readBinFile path).toBaseIO with
  | .ok bytes => return .ok bytes.toList
  | .error e => return .error e

def write (s : IO.FS.Stream) (bytes : List UInt8) : IO Unit := do
  s.write ⟨bytes.toArray⟩
  s.flush

/-- Prints the records of a log as it grows, until one is refused or the file is gone. -/
partial def follow (q : Report.Request) (f : Report.Following) (file : List UInt8) : IO Output := do
  let f := Report.followOn q f file
  if f.error.isSome then return Report.followed f
  write (← IO.getStdout) f.state.printedBytes
  let f := { f with state := { f.state with printed := #[] } }
  IO.sleep pollInterval
  match ← load q.path with
  | .ok file => follow q f file
  | .error _ => return Report.followed f

def report (args : List String) : IO Output := do
  match Report.request args (← environment Event.pathVariable) with
  | .error o => return o
  | .ok q =>
    match ← load q.path with
    | .error e =>
      match e with
      | .inappropriateType .. => return Report.notRead q (reason e)
      | _ => return Report.notOpened q (reason e)
    | .ok file =>
      if q.follow then follow q Report.beginFollowing file else return Report.read q file

def perform (q : Teller.Request) (file : Option Teller.LogFile) (sink : Option IO.FS.Handle) :
    IO Output := do
  let start ← IO.monoNanosNow
  let done ← IO.lazyPure fun _ => Teller.perform enough q file
  let stop ← IO.monoNanosNow
  if let (some l, some sink) := (done.log, sink) then
    for e in l.entries do
      sink.putStrLn e.line
  return done.output (Event.secondsText (stop - start))

def teller (args : List String) : IO Output := do
  let time := UInt64.ofNat (← IO.monoNanosNow)
  match Teller.request Teller.program time args with
  | .error o => return o
  | .ok q =>
    match q.logFile? (← environment Event.pathVariable) (← environment Event.levelVariable) with
    | none => perform q none none
    | some file =>
      match ← (IO.FS.Handle.mk file.path .write).toBaseIO with
      | .error e => return Teller.notOpened file (reason e)
      | .ok sink => perform q (some file) (some sink)

def command : List String → IO Output
  | [] =>
    return { exit := 2, err := Text.Utf8.encode (Report.usage ++ Teller.usage Teller.program) }
  | name :: args =>
    if name = Report.program then report args
    else if name = Teller.program then teller args
    else return .failed name "no such command"

end TxHeap.CommandLine

def main (args : List String) : IO UInt32 := do
  let o ← TxHeap.CommandLine.command args
  TxHeap.CommandLine.write (← IO.getStdout) o.out
  TxHeap.CommandLine.write (← IO.getStderr) o.err
  return o.exit.toUInt32
