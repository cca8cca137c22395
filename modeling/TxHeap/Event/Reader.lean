import TxHeap.Event.Record
import TxHeap.Text.Lines

/-! Reading a log record by record. -/

namespace TxHeap.Event

structure Reader where
  lines : List (List UInt8)
  line : Nat := 0

inductive ReadError
  | badLine (line : Nat) (e : RecordError)
  | tooLong

inductive Reading
  | record (r : Record)
  | failed (e : ReadError)
  | atEnd

namespace ReadError

def summary : ReadError → String
  | badLine line e => s!"line {line}: " ++ e.summary
  | tooLong => "bufio.Scanner: token too long"

def text : ReadError → String
  | badLine line e => s!"line {line}: " ++ e.text
  | tooLong => tooLong.summary

end ReadError

namespace Reader

/-- A line of this many bytes is not read any more. -/
def maxLine : Nat := 1048576

def ofBytes (bytes : List UInt8) : Reader := { lines := Text.Lines.all bytes }

/-- Reads on from the given lines, of which `line` went before. Empty lines are skipped. -/
def nextFrom (line : Nat) : List (List UInt8) → Reading × Reader
  | [] => (.atEnd, { lines := [], line })
  | l :: rest =>
    if l.length ≥ maxLine then (.failed .tooLong, { lines := [], line })
    else
      let l := Text.Lines.dropReturn l
      if l.isEmpty then nextFrom (line + 1) rest
      else
        let reader : Reader := { lines := rest, line := line + 1 }
        match Record.parse l with
        | .ok r => (.record r, reader)
        | .error e => (.failed (.badLine (line + 1) e), reader)

def next (r : Reader) : Reading × Reader := nextFrom r.line r.lines

def readFrom : Nat → Reader → List Record → List Record × Option ReadError
  | 0, _, read => (read.reverse, none)
  | n + 1, r, read =>
    match r.next with
    | (.record x, r) => readFrom n r (x :: read)
    | (.failed e, _) => (read.reverse, some e)
    | (.atEnd, _) => (read.reverse, none)

def readAll (bytes : List UInt8) : List Record × Option ReadError :=
  let r := ofBytes bytes
  readFrom (r.lines.length + 1) r []

end Reader

end TxHeap.Event
