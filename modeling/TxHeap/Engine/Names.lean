/-! Names for the parties and states of an engine. -/

namespace TxHeap

abbrev ThreadId := Nat

abbrev TxnId := Nat

abbrev SegmentId := Nat

inductive Phase
  | inactive
  | running
  | inevitable
  | committed
  | aborted
deriving DecidableEq, Repr, Inhabited

namespace Phase

def toText : Phase → String
  | inactive => "INACTIVE"
  | running => "RUNNING"
  | inevitable => "INEVITABLE"
  | committed => "COMMITTED"
  | aborted => "ABORTED"

def ofNumber? : Nat → Option Phase
  | 0 => some inactive
  | 1 => some running
  | 2 => some inevitable
  | 3 => some committed
  | 4 => some aborted
  | _ => none

def isActive : Phase → Bool
  | running => true
  | inevitable => true
  | _ => false

end Phase

/-- Whether the thread that holds a segment may be paused. -/
inductive Standing
  | free
  | running
  | atSafePoint
deriving DecidableEq, Repr, Inhabited

namespace Standing

def toText : Standing → String
  | free => "NO_TRANSACTION"
  | running => "RUNNING"
  | atSafePoint => "SAFE_POINT"

def ofNumber? : Nat → Option Standing
  | 0 => some free
  | 1 => some running
  | 2 => some atSafePoint
  | _ => none

end Standing

/-- How long a pause lasts: while its owner keeps the engine locked, or until it is released. -/
inductive PauseMode
  | none
  | whileLocked
  | unique
deriving DecidableEq, Repr, Inhabited

namespace PauseMode

def toText : PauseMode → String
  | none => "none"
  | whileLocked => "stop_others_until_mutex_unlock"
  | unique => "stop_others_and_become_globally_unique"

def ofNumber : Nat → PauseMode
  | 1 => whileLocked
  | 2 => unique
  | _ => none

end PauseMode

/-- What entering the foreign bracket answers, and leaving it takes. -/
inductive Token
  | invalid
  | outermost
  | nested
deriving DecidableEq, Repr, Inhabited

namespace Token

def toText : Token → String
  | invalid => "invalid"
  | outermost => "outermost"
  | nested => "nested"

def ofNumber : Nat → Token
  | 1 => outermost
  | 2 => nested
  | _ => invalid

end Token

/-- Who makes a call: a thread, the engine itself, or code that is no thread of the engine. -/
inductive Caller
  | thread (id : ThreadId)
  | system
  | outside
deriving DecidableEq, Repr, Inhabited

namespace Caller

def number : Caller → Int
  | thread id => id
  | system => -1
  | outside => -1

end Caller

inductive Key
  | text (s : String)
  | int (n : Int)
deriving DecidableEq, Repr, Inhabited

namespace Key

def toText : Key → String
  | text s => s
  | int n => toString n

end Key

end TxHeap
