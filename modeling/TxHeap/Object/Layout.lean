import TxHeap.Memory

/-! How the embedding program lays out its objects. Word 0 of an object belongs to the engine. -/

namespace TxHeap

/-- A view of an object's words. It may show more words than the object has. -/
structure View where
  length : Nat
  word : Nat → UInt64

namespace View

def word? (v : View) (i : Nat) : Except Fault UInt64 :=
  if i < v.length then .ok (v.word i) else .error .outOfBounds

end View

structure Layout where
  /-- The size in bytes, meant to be a multiple of 8 and at least 16. -/
  size : View → Except Fault UInt64
  /-- The indexes of the words that hold references; those outside the object do not count. -/
  slots : View → Except Fault (List Int)

namespace Layout

def describe (refs data : Nat) : UInt64 := (UInt64.ofNat refs <<< 32) ||| UInt64.ofNat data

def refsOf (d : UInt64) : Nat := (d >>> 32).toNat

def dataOf (d : UInt64) : Nat := (d &&& 0xffffffff).toNat

def bytes (refs data : Nat) : UInt64 := UInt64.ofNat (8 * (2 + refs + data))

/-- Word 1 describes the object, the reference slots come next and then the data words. -/
def described : Layout where
  size v := return bytes (refsOf (← v.word? 1)) (dataOf (← v.word? 1))
  slots v := return (List.range' 2 (min (refsOf (← v.word? 1)) v.length)).map Int.ofNat

def fixed (size : UInt64) (slots : List Int) : Layout where
  size _ := return size
  slots _ := return slots

end Layout

end TxHeap
