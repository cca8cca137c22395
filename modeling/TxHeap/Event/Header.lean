import TxHeap.Event.Kind
import TxHeap.Event.Record
import TxHeap.Version.Constraint

/-! The header of a log names the version of its format. Records are counted by event. -/

namespace TxHeap.Event

inductive HeaderError
  | notHeader (event : String)
  | noVersion
  | badVersion (format : String) (e : Version.Error)
  | badConstraint (constraint : String) (e : Version.Constraint.Error)
  | notAllowed (version : Version) (constraint : String)

namespace HeaderError

def text : HeaderError → String
  | notHeader event => "stmlog: first record is " ++ Text.quoted event ++ ", not a header"
  | noVersion => "stmlog: header has no format version"
  | badVersion format e => "stmlog: header format " ++ Text.quoted format ++ ": " ++ e.text
  | badConstraint constraint e =>
    "stmlog: constraint " ++ Text.quoted constraint ++ ": " ++ e.text
  | notAllowed version constraint =>
    "stmlog: format " ++ version.toText ++ " does not satisfy " ++ constraint

/-- The version of a header that is not accepted for it alone. -/
def version? : HeaderError → Option Version
  | notAllowed version _ => some version
  | _ => none

end HeaderError

/-- The version that a header names, if it meets the constraint. An empty constraint is met by
every version. -/
def checkHeader (r : Record) (constraint : String) : Except HeaderError Version :=
  if r.event ≠ Kind.header.name then .error (.notHeader r.event)
  else
    match r.text? "format" with
    | none => .error .noVersion
    | some format =>
      match Version.parse format with
      | .error e => .error (.badVersion format e)
      | .ok v =>
        if constraint.isEmpty then .ok v
        else
          match Version.Constraint.parse constraint with
          | .error e => .error (.badConstraint constraint e)
          | .ok c => if c.allows v then .ok v else .error (.notAllowed v constraint)

abbrev Tally := List (String × UInt64)

namespace Tally

def count (t : Tally) (event : String) : UInt64 := (t.lookup event).getD 0

def increase (event : String) (n : UInt64) : Tally → Tally
  | [] => [(event, n)]
  | (e, m) :: rest => if e = event then (e, m + n) :: rest else (e, m) :: increase event n rest

/-- How much a record counts. A contention record also stands for those left out before it. -/
def weight (r : Record) : UInt64 :=
  if r.event = Kind.contention.name then
    match r.uint "suppressed" with
    | .ok n => 1 + UInt64.ofNat n
    | .error _ => 1
  else 1

def add (t : Tally) (r : Record) : Tally := increase r.event (weight r) t

end Tally

end TxHeap.Event
