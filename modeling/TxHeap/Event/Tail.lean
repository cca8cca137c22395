import TxHeap.Event.Record
import TxHeap.Text.Lines
import TxHeap.Text.Utf8

/-! Reading a log that grows. Each drain reads up to the present end and hands over the records of
complete lines. A file shorter than what was read has been started anew. -/

namespace TxHeap.Event

structure Tail where
  offset : Nat := 0
  pending : List UInt8 := []

inductive TailError
  | badRecord (e : RecordError)
  | refused (message : String)

namespace TailError

def summary : TailError → String
  | badRecord e => e.summary
  | refused message => message

def text : TailError → String
  | badRecord e => e.text
  | refused message => message

end TailError

/-- A state after some records, and the reason if they were not all handed over. -/
structure Drained (σ : Type) where
  state : σ
  tail : Tail
  error : Option TailError := none

namespace Tail

variable {σ : Type}

/-- Hands over the records of complete lines. Answers the lines from the first one that failed
on. -/
def deliver (give : σ → Record → Except String σ) :
    σ → List (List UInt8) → σ × List (List UInt8) × Option TailError
  | s, [] => (s, [], none)
  | s, line :: rest =>
    if Text.isBlank line then deliver give s rest
    else
      match Record.parse line with
      | .error e => (s, line :: rest, some (.badRecord e))
      | .ok r =>
        match give s r with
        | .error message => (s, line :: rest, some (.refused message))
        | .ok s => deliver give s rest

def take (give : σ → Record → Except String σ) (t : Tail) (s : σ) (chunk : List UInt8) :
    Drained σ :=
  let (lines, unfinished) := Text.Lines.split (t.pending ++ chunk)
  let (s, left, error) := deliver give s lines
  { state := s
    tail := { offset := t.offset + chunk.length, pending := Text.Lines.join left ++ unfinished }
    error }

def takeAll (give : σ → Record → Except String σ) : Tail → σ → List (List UInt8) → Drained σ
  | t, s, [] => { state := s, tail := t }
  | t, s, chunk :: rest =>
    let d := t.take give s chunk
    if d.error.isSome then d else takeAll give d.tail d.state rest

def pieces (size : Nat) : Nat → List UInt8 → List (List UInt8)
  | 0, _ => []
  | n + 1, bytes =>
    if bytes.isEmpty then [] else bytes.take size :: pieces size n (bytes.drop size)

/-- The chunks that reads of `size` bytes find in `bytes`, up to an empty one at the end. -/
def chunks (size : Nat) (bytes : List UInt8) : List (List UInt8) :=
  pieces size bytes.length bytes ++ [[]]

def follow (t : Tail) (file : List UInt8) : Tail :=
  if file.length < t.offset then {} else t

def readSize : Nat := 32768

def drain (give : σ → Record → Except String σ) (size : Nat) (t : Tail) (s : σ)
    (file : List UInt8) : Drained σ :=
  let t := t.follow file
  takeAll give t s (chunks size (file.drop t.offset))

def drainAll (give : σ → Record → Except String σ) (size : Nat) :
    Tail → σ → List (List UInt8) → Drained σ
  | t, s, [] => { state := s, tail := t }
  | t, s, file :: rest =>
    let d := t.drain give size s file
    if d.error.isSome then d else drainAll give size d.tail d.state rest

end Tail

end TxHeap.Event
