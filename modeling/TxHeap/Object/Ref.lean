import TxHeap.Text.Quoted

/-! References. An old object is named by its offset in the old heap, a young one by a mark, its
segment and its offset there. -/

namespace TxHeap

structure Ref where
  bits : UInt64
deriving DecidableEq, Inhabited, Repr

namespace Ref

def null : Ref := ⟨0⟩

def youngBit : UInt64 := 0x4000000000000000

def forwardedBit : UInt64 := 0x8000000000000000

def offsetBits : UInt64 := 40

def offsetMask : UInt64 := 0xffffffffff

def young (segment : Nat) (offset : UInt64) : Ref :=
  ⟨youngBit ||| (UInt64.ofNat segment <<< offsetBits) ||| offset⟩

def isYoung (r : Ref) : Bool := r.bits &&& youngBit != 0

def segment (r : Ref) : Nat := ((r.bits &&& ~~~youngBit) >>> offsetBits).toNat

def offset (r : Ref) : UInt64 := r.bits &&& offsetMask

def toText (r : Ref) : String :=
  if r.bits = 0 then "null"
  else if r.isYoung then s!"young({r.segment}:{Text.hexText r.offset.toNat})"
  else s!"old({Text.hexText r.bits.toNat})"

end Ref

end TxHeap
