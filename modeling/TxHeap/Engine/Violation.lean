import TxHeap.Engine.Names
import TxHeap.Error
import TxHeap.Memory
import TxHeap.Object.Ref

/-! What a correct program never does. Each violation carries what its message tells. -/

namespace TxHeap

inductive Access
  | load
  | store
  | weak
deriving DecidableEq, Repr

inductive Violation
  | nestedPause (who : Caller)
  | pauseNotOwned (who : Caller)
  | segmentHeld (thread : ThreadId) (segment : SegmentId)
  | segmentNotHeld (thread : ThreadId)
  | unregisteredInside (thread : ThreadId)
  | begunInside (thread : ThreadId)
  | collectedInside
  | bracketLeftInside
  | stackUnderflow (thread : ThreadId)
  | notRegistered (thread : ThreadId)
  | noTransaction (phase : Phase)
  | foreignYoung (ref : Ref) (segment : SegmentId)
  | badWord (word : Int) (ref : Ref)
  | nullRef (access : Access)
  | nurseryFull (size : UInt64)
  | inevitableAbort (reason : String) (cause : Option Error)
  | badSize (size : UInt64) (room : Nat)
  | engineClosed
  | threadsRegistered (count : Nat)
  | duplicateKey (key : Key)
  | bracketNotEntered (control : Nat)
  | tokenMismatch (token : Token) (depth : Nat)
  | bracketCommit (cause : Error)

namespace Violation

def code : Violation → String
  | nestedPause _ => "NESTED_SYNC"
  | pauseNotOwned _ => "SYNC_NOT_OWNED"
  | segmentHeld _ _ => "SEGMENT_HELD"
  | segmentNotHeld _ => "SEGMENT_NOT_HELD"
  | unregisteredInside _ => "TRANSACTION_ACTIVE"
  | begunInside _ => "TRANSACTION_ACTIVE"
  | collectedInside => "TRANSACTION_ACTIVE"
  | bracketLeftInside => "TRANSACTION_ACTIVE"
  | stackUnderflow _ => "SHADOW_STACK_UNDERFLOW"
  | notRegistered _ => "THREAD_NOT_REGISTERED"
  | noTransaction _ => "NO_TRANSACTION"
  | foreignYoung _ _ => "FOREIGN_YOUNG_REF"
  | badWord _ _ => "BAD_WORD_INDEX"
  | nullRef _ => "NULL_REF"
  | nurseryFull _ => "NURSERY_FULL"
  | inevitableAbort _ _ => "ABORT_INEVITABLE"
  | badSize _ _ => "BAD_OBJECT_SIZE"
  | engineClosed => "ENGINE_CLOSED"
  | threadsRegistered _ => "THREADS_REGISTERED"
  | duplicateKey _ => "DUPLICATE_CALLBACK_KEY"
  | bracketNotEntered _ => "CALLBACK_NOT_ENTERED"
  | tokenMismatch _ _ => "CALLBACK_TOKEN_MISMATCH"
  | bracketCommit _ => "CALLBACK_COMMIT"

def message : Violation → String
  | nestedPause who => s!"thread {who.number} already owns the world barrier"
  | pauseNotOwned who => s!"thread {who.number} releases a world barrier it does not own"
  | segmentHeld thread segment => s!"thread {thread} already holds segment {segment}"
  | segmentNotHeld thread => s!"thread {thread} holds no segment"
  | unregisteredInside thread => s!"thread {thread} unregistered inside a transaction"
  | begunInside thread => s!"thread {thread} begins a transaction inside another"
  | collectedInside => "major collection requested inside a transaction"
  | bracketLeftInside => "outermost callback left with a transaction it did not start"
  | stackUnderflow thread => s!"pop from the empty shadow stack of thread {thread}"
  | notRegistered thread => s!"thread {thread} is not registered"
  | noTransaction phase => s!"use of a {phase.toText} transaction"
  | foreignYoung ref segment => s!"{ref.toText} does not belong to segment {segment}"
  | badWord word ref => s!"word {word} out of range for {ref.toText}"
  | nullRef .load => "load through a null reference"
  | nullRef .store => "store through a null reference"
  | nullRef .weak => "weakref access through a null reference"
  | nurseryFull size => s!"nursery cannot hold {size.toNat} bytes after a collection"
  | inevitableAbort reason none => s!"inevitable transaction ({reason}) cannot abort"
  | inevitableAbort reason (some cause) =>
    s!"inevitable transaction ({reason}) cannot abort: {cause.text}"
  | badSize size room =>
    s!"collector reported size {size.toNat} for an object with room for {room} bytes"
  | engineClosed => "engine used after Close"
  | threadsRegistered count => s!"closing an engine with {count} registered threads"
  | duplicateKey key => s!"callback key {key.toText} registered twice"
  | bracketNotEntered control => s!"leave without a matching enter on goroutine {control}"
  | tokenMismatch token depth => s!"{token.toText} token used at depth {depth}"
  | bracketCommit cause => s!"inevitable commit failed: {cause.text}"

def toError (v : Violation) : Error := .contract v.code v.message

end Violation

inductive Raise
  | violation (v : Violation)
  /-- Unwinds a transaction that has been aborted. -/
  | abort (cause : Error)
  | fault (f : Fault)
  /-- Raised by the embedding program. -/
  | thrown (message : String)
  /-- A retry loop outlasted its bound. -/
  | unfinished

namespace Raise

def text : Raise → String
  | violation v => v.toError.text
  | abort cause => "stm: transaction aborted: " ++ cause.text
  | fault .outOfBounds => "runtime error: index out of range"
  | fault .endless => "endless scan over damaged chunks"
  | thrown message => message
  | unfinished => "too many attempts"

end Raise

end TxHeap
