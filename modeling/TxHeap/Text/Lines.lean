/-! Lines of bytes, each ended by a newline, and what follows the last of them. -/

namespace TxHeap.Text.Lines

def newline : UInt8 := 10

def carriageReturn : UInt8 := 13

structure Scan where
  lines : List (List UInt8) := []
  current : List UInt8 := []

namespace Scan

def push (p : Scan) (b : UInt8) : Scan :=
  if b = newline then { lines := p.current.reverse :: p.lines }
  else { p with current := b :: p.current }

end Scan

/-- The complete lines of `bytes` without their newlines, and the bytes after the last newline. -/
def split (bytes : List UInt8) : List (List UInt8) × List UInt8 :=
  let p := bytes.foldl Scan.push {}
  (p.lines.reverse, p.current.reverse)

def join (lines : List (List UInt8)) : List UInt8 := lines.flatMap (· ++ [newline])

def all (bytes : List UInt8) : List (List UInt8) :=
  match split bytes with
  | (lines, []) => lines
  | (lines, last) => lines ++ [last]

def dropReturn (line : List UInt8) : List UInt8 :=
  if line.getLast? = some carriageReturn then line.dropLast else line

end TxHeap.Text.Lines
