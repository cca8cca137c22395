import TxHeap.Error
import TxHeap.Memory
import TxHeap.Word

/-! Reserved pages. A reservation is rounded up to whole pages; pages that are handed back read as
zero afterwards. -/

namespace TxHeap

/-- How the system maps memory: in pages whose size is a power of two and whole words, and up to a
limit. -/
structure Paging where
  shift : Nat
  whole : 3 ≤ shift ∧ shift < 64
  /-- Reservations of this many bytes or more do not fit into an address space. -/
  limit : UInt64

def Paging.size (p : Paging) : UInt64 := .ofNat (1 <<< p.shift)

/-- Pages of 4096 bytes, in an address space of 47 bits. -/
def Paging.usual : Paging := ⟨12, by decide, 0x800000000000⟩

structure Region where
  memory : Memory

namespace Region

def reserve (size : UInt64) (p : Paging := .usual) : Except Error Region :=
  let size := Word.alignUp size p.size
  if size = 0 then .error (.invalidSize size "largemalloc.Reserve")
  else if size ≥ 0x8000000000000000 then .error (.system "mmap" (.plain "invalid argument"))
  else if size ≥ p.limit then .error (.system "mmap" (.plain "cannot allocate memory"))
  else .ok ⟨.zeros (size / 8).toNat⟩

def size (r : Region) : UInt64 := UInt64.ofNat r.memory.size * 8

/-- The whole pages inside `[lo, hi)` of a memory of `limit` bytes. -/
def pagesIn (p : Paging) (limit lo hi : UInt64) : UInt64 × UInt64 :=
  let lo := Word.alignUp lo p.size
  let hi := Word.alignDown hi p.size
  (lo, if hi > limit then Word.alignDown limit p.size else hi)

def releasePages (m : Memory) (lo hi : UInt64) (p : Paging := .usual) : Memory :=
  let (lo, hi) := pagesIn p (UInt64.ofNat m.size * 8) lo hi
  if lo ≥ hi then m else m.clear (Word.index lo) (Word.index hi)

def release (r : Region) (lo hi : UInt64) (p : Paging := .usual) : Region :=
  ⟨releasePages r.memory lo hi p⟩

def close (_ : Region) : Region := ⟨.zeros 0⟩

end Region

end TxHeap
