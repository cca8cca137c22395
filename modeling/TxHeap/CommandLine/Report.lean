import TxHeap.CommandLine.Flags
import TxHeap.Event.Header
import TxHeap.Event.Reader
import TxHeap.Event.Tail

/-! The command that sums up an event log, or follows one while it is written. -/

namespace TxHeap.CommandLine.Report

def program : String := "orizon-stmlog"

def flags : List Flag :=
  [{ name := "require", usage := "semver constraint the log format must satisfy"
     fallback := .text "^1.0.0" },
    { name := "follow", usage := "keep reading as the log grows; print each record"
      fallback := .switch false },
    { name := "events", usage := "print every record before the summary"
      fallback := .switch false }]

def usage : String := "usage: " ++ program ++ " [flags] <log>\n" ++ usages flags

structure Request where
  path : String
  require : String
  follow : Bool
  events : Bool

def request (args : List String) (environmentPath : String) : Except Output Request :=
  match parseFlags flags args [] with
  | .error r => .error (.refused usage r)
  | .ok (given, rest) =>
    let first := rest.headD ""
    let path := if first.isEmpty then environmentPath else first
    if path.isEmpty then .error { exit := 2, err := Text.Utf8.encode usage }
    else
      let follow := switchOf flags given "follow"
      .ok { path, require := textOf flags given "require", follow
            events := switchOf flags given "events" || follow }

structure Summary where
  /-- The version of the format; empty before a header. -/
  format : String := ""
  records : Nat := 0
  tally : Event.Tally := []
  printed : Array (List UInt8) := #[]

def recordLine (r : Event.Record) : List UInt8 :=
  let head := padRight 22 r.event ++ " seg=" ++ padRight 3 (toString r.segment)
  let fields := r.sortedFields.filter fun (k, _) => k != "ev" && k != "seg"
  Text.Utf8.encode head ++
    fields.flatMap (fun (k, v) => Text.Utf8.encode (" " ++ k ++ "=") ++ v) ++
    [Text.Lines.newline]

namespace Summary

def count (s : Summary) (print : Bool) (r : Event.Record) : Summary :=
  { s with
    records := s.records + 1
    tally := s.tally.add r
    printed := if print then s.printed.push (recordLine r) else s.printed }

def add (q : Request) (s : Summary) (r : Event.Record) : Except String Summary :=
  if r.event = Event.Kind.header.name then
    match Event.checkHeader r q.require with
    | .error e => .error e.text
    | .ok v => .ok (({ format := v.toText, printed := s.printed } : Summary).count q.events r)
  else if s.format.isEmpty then .error "log does not start with a header record"
  else .ok (s.count q.events r)

def printedBytes (s : Summary) : List UInt8 := s.printed.toList.flatten

def text (s : Summary) : String :=
  let counts := Event.Kind.all.filterMap fun k =>
    let n := s.tally.count k.name
    if n = 0 then none else some ("  " ++ padRight 22 k.name ++ " " ++ toString n.toNat ++ "\n")
  s!"format {s.format}, {s.records} records\n" ++ String.join counts

def output (s : Summary) : Output := { out := s.printedBytes ++ Text.Utf8.encode s.text }

def failed (s : Summary) (message : String) : Output :=
  .failed program message s.printedBytes

end Summary

def addAll (q : Request) : Summary → List Event.Record → Summary × Option String
  | s, [] => (s, none)
  | s, r :: rest =>
    match s.add q r with
    | .ok s => addAll q s rest
    | .error message => (s, some message)

def read (q : Request) (file : List UInt8) : Output :=
  let (records, error) := Event.Reader.readAll file
  match addAll q {} records, error with
  | (s, some message), _ => s.failed message
  | (s, none), some e => s.failed e.text
  | (s, none), none => s.output

abbrev Following := Event.Drained Summary

def beginFollowing : Following := { state := {}, tail := {} }

def followOn (q : Request) (f : Following) (file : List UInt8) : Following :=
  f.tail.drain (Summary.add q) Event.Tail.readSize f.state file

def followed (f : Following) : Output :=
  match f.error with
  | some e => f.state.failed e.text
  | none => f.state.output

def notRead (q : Request) (reason : String) : Output :=
  .failed program ("read " ++ q.path ++ ": " ++ reason)

def notOpened (q : Request) (reason : String) : Output :=
  .failed program (if q.follow then reason else "open " ++ q.path ++ ": " ++ reason)

end TxHeap.CommandLine.Report
