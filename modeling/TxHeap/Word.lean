/-! Rounding of 64-bit words to a power of two. All sizes and offsets of the heap are such words
and wrap at `2 ^ 64`. -/

namespace TxHeap.Word

/-- The largest multiple of `align` that is at most `n`; `align` is a power of two. -/
def alignDown (n align : UInt64) : UInt64 := n &&& ~~~(align - 1)

/-- The least multiple of `align` that is at least `n`, as far as it does not wrap. -/
def alignUp (n align : UInt64) : UInt64 := alignDown (n + align - 1) align

def index (offset : UInt64) : Nat := (offset / 8).toNat

end TxHeap.Word
