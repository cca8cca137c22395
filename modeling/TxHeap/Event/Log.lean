import TxHeap.Error
import TxHeap.Event.Entry
import TxHeap.Event.Kind

/-! An event log. Contention records are rate limited for each segment; the conflicts left out are
told of by the next one or the summary. -/

namespace TxHeap.Event

/-- The process that writes a log, as its header tells it. -/
structure Process where
  runtime : String
  id : Int

structure Options where
  debug : Bool := false
  /-- How many contention records a segment may write at a time; 0 for any number. -/
  contentionRate : Nat := 0
  /-- What the rate limiter decides about a contention record of a segment after so many others. -/
  limiter : Int → Nat → Bool := fun _ before => contentionRate == 0 || before < contentionRate
  process : Option Process := none

def Options.origin (o : Options) : List (String × Value) :=
  match o.process with
  | some p => [("go", .text p.runtime), ("pid", .int p.id)]
  | none => []

structure Log where
  options : Options := {}
  entries : Array Entry := #[]
  counts : List (String × UInt64) := []
  /-- Contention records of each segment about which the limiter has decided. -/
  spent : List (Int × Nat) := []
  /-- Conflicts left out since the last contention record. -/
  suppressed : UInt64 := 0
  ownsFile : Bool := false
  closed : Bool := false

namespace Log

def formatVersion : String := "1.1.0"

def count (l : Log) (event : String) : UInt64 := (l.counts.lookup event).getD 0

def bump {κ : Type} [BEq κ] (key : κ) : List (κ × UInt64) → List (κ × UInt64)
  | [] => [(key, 1)]
  | (k, n) :: rest => if k == key then (k, n + 1) :: rest else (k, n) :: bump key rest

def tick (l : Log) (event : String) : Log := { l with counts := bump event l.counts }

def put (l : Log) (e : Entry) : Log :=
  if l.closed && l.ownsFile then l else { l with entries := l.entries.push e }

def info (l : Log) (event : String) (segment : Int) (fields : List (String × Value) := [])
    (message : String := "") : Log :=
  (l.tick event).put { level := .info, event, segment, fields, message }

def debug (l : Log) (event : String) (segment : Int) (fields : List (String × Value) := [])
    (message : String := "") : Log :=
  if l.options.debug then (l.tick event).put { level := .debug, event, segment, fields, message }
  else l

def start (options : Options) (ownsFile : Bool := false) : Log :=
  ({ options, ownsFile } : Log).info Kind.header.name (-1)
    (("format", .text formatVersion) :: options.origin)

/-- Whether the rate limiter lets `segment` write another contention record. -/
def allows (l : Log) (segment : Int) : Bool :=
  l.options.limiter segment ((l.spent.lookup segment).getD 0)

def spend (segment : Int) : List (Int × Nat) → List (Int × Nat)
  | [] => [(segment, 1)]
  | (s, n) :: rest => if s == segment then (s, n + 1) :: rest else (s, n) :: spend segment rest

def contentionIf (allowed : Bool) (l : Log) (segment : Int) (ref : UInt64) (kind : String) : Log :=
  if allowed then
    { l with suppressed := 0 }.info Kind.contention.name segment
      [("ref", .uint ref), ("kind", .text kind), ("suppressed", .uint l.suppressed)]
  else { l with suppressed := l.suppressed + 1 }.tick Kind.contention.name

def contention (l : Log) (segment : Int) (ref : UInt64) (kind : String) : Log :=
  contentionIf (l.allows segment) { l with spent := spend segment l.spent } segment ref kind

def totals (l : Log) : List (String × Value) :=
  Kind.all.filterMap fun k =>
    let n := l.count k.name
    if n = 0 ∨ k = .summary then none else some (k.name, .uint n)

def close (l : Log) : Log :=
  if l.closed then l
  else
    let l := l.tick Kind.summary.name
    let l := l.put
      { level := .info, event := Kind.summary.name, segment := -1
        fields := l.totals ++ [("suppressed", .uint l.suppressed)] }
    { l with closed := true }

end Log

def pathVariable : String := "STM_EVENT_LOG"

def levelVariable : String := "STM_EVENT_LOG_LEVEL"

def fileContentionRate : Nat := 200

def Options.ofLevel (level : String) : Options :=
  { debug := level.toLower == "debug", contentionRate := fileContentionRate }

def openError (path reason : String) : Error :=
  .system "open event log" (.plain ("open " ++ path ++ ": " ++ reason))

end TxHeap.Event
