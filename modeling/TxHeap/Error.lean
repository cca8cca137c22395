import TxHeap.Decimal.General

/-! Error values: a category and a code, by which they are compared, a message, details and possibly
a cause. -/

namespace TxHeap

inductive Datum
  | word (n : UInt64)
  | int (n : Int)
  | text (s : String)
  | float (x : Float)
  | bool (b : Bool)
  | absent
deriving Inhabited

namespace Datum

def toText : Datum → String
  | word n => toString n.toNat
  | int n => toString n
  | text s => s
  | float x => Decimal.ofFloatText x
  | bool b => if b then "true" else "false"
  | absent => "<nil>"

end Datum

inductive Error
  | plain (text : String)
  | endOfFile
  | wrapped (text : String) (cause : Error)
  | reported (category code message : String) (details : Option (List (String × Datum)))
      (caller : String) (cause : Option Error)
deriving Inhabited

namespace Error

def contractCategory : String := "CONTRACT"

def sentinel (category code message : String) : Error :=
  .reported category code message none "" none

def withDetails (e : Error) (details : Option (List (String × Datum))) (cause : Option Error)
    (caller : String := "") : Error :=
  match e with
  | .reported category code message _ _ _ => .reported category code message details caller cause
  | e => e

def withCaller (e : Error) (caller : String) : Error :=
  match e with
  | .reported category code message details _ cause =>
    .reported category code message details caller cause
  | e => e

def text : Error → String
  | plain s => s
  | endOfFile => "EOF"
  | wrapped s cause => s ++ ": " ++ cause.text
  | reported category code message _ caller cause =>
    let head := "[" ++ category ++ ":" ++ code ++ "] " ++ message
    let head := if caller.isEmpty then head else head ++ " (caller: " ++ caller ++ ")"
    match cause with
    | some c => head ++ ": " ++ c.text
    | none => head

def cause? : Error → Option Error
  | plain _ => none
  | endOfFile => none
  | wrapped _ c => some c
  | reported _ _ _ _ _ c => c

def matchesHead (e target : Error) : Bool :=
  match e, target with
  | endOfFile, endOfFile => true
  | reported c k _ _ _ _, reported c' k' _ _ _ _ => c == c' && k == k'
  | _, _ => false

def matchesError (e target : Error) : Bool :=
  match e with
  | plain _ => false
  | endOfFile => endOfFile.matchesHead target
  | wrapped _ c => c.matchesError target
  | reported category code message details caller cause =>
    (reported category code message details caller cause).matchesHead target ||
      match cause with
      | some c => c.matchesError target
      | none => false

/-- Whether the first reported error among `e` and its causes is a contract violation. -/
def isContract : Error → Bool
  | plain _ => false
  | endOfFile => false
  | wrapped _ c => c.isContract
  | reported category _ _ _ _ _ => category == contractCategory

def codeOrText : Error → String
  | reported _ code _ _ _ _ => code
  | e => e.text

def invalidSize (size : UInt64) (context : String) : Error :=
  .reported "VALIDATION" "INVALID_SIZE" s!"invalid size {size.toNat} in {context}"
    (some [("size", .word size), ("context", .text context)]) "" none

def invalidConfig (field : String) (value : Datum) : Error :=
  .reported "VALIDATION" "INVALID_CONFIG" s!"invalid value {value.toText} for {field}"
    (some [("field", .text field), ("value", value)]) "" none

def system (operation : String) (cause : Error) : Error :=
  .reported "SYSTEM" "SYSTEM_CALL" s!"{operation} failed"
    (some [("operation", .text operation)]) "" (some cause)

def contract (code message : String) : Error :=
  .reported contractCategory code message none "" none

def conflict : Error := sentinel "CONFLICT" "CONFLICT" "transaction conflict"

def tooManyRetries : Error :=
  sentinel "CONFLICT" "TOO_MANY_RETRIES" "transaction retry limit reached"

def heapExhausted : Error := sentinel "RESOURCE" "HEAP_EXHAUSTED" "old heap exhausted"

def abortRequested : Error := sentinel "CONFLICT" "ABORT_REQUESTED" "abort requested"

def heapExhaustedBy (size : UInt64) : Error :=
  heapExhausted.withDetails (some [("size", .word size)]) none

end Error

end TxHeap
