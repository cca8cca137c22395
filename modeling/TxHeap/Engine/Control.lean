/-! Naming the thread of control that runs. -/

namespace TxHeap

def traceHead : List UInt8 := "goroutine ".toUTF8.toList

def digitsFrom (n : Int64) : List UInt8 → Int64
  | [] => n
  | b :: rest =>
    if 0x30 ≤ b ∧ b ≤ 0x39 then digitsFrom (n * 10 + Int64.ofNat (b.toNat - 0x30)) rest else n

/-- The number that a stack trace begins with, or 0 if it does not begin so. -/
def controlNumber (trace : List UInt8) : Int :=
  if traceHead.isPrefixOf trace then (digitsFrom 0 (trace.drop traceHead.length)).toInt else 0

end TxHeap
