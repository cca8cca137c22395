import TxHeap.Error

/-! What an engine can be set up with. -/

namespace TxHeap

structure Settings where
  segments : Int := 8
  nursery : UInt64 := 0x100000
  arena : UInt64 := 0x1000000
  reserve : UInt64 := 0x40000000
  /-- Larger objects are allocated in the old heap at once. -/
  large : UInt64 := 0x2000
  major : UInt64 := 0x2000000
  /-- After a major collection the next one waits for this multiple of what was left in use. -/
  factor : Float := 1.82

namespace Settings

def minObject : UInt64 := 16

def maxSegments : Int := 0x3fffff

def maxNursery : UInt64 := 0xffffffffff

def minArena : UInt64 := 32

def validate (s : Settings) : Except Error Unit :=
  if s.segments < 1 ∨ s.segments > maxSegments then
    .error (.invalidConfig "Segments" (.int s.segments))
  else if s.nursery < minObject ∨ s.nursery % 8 ≠ 0 ∨ s.nursery > maxNursery then
    .error (.invalidConfig "NurserySize" (.word s.nursery))
  else if s.arena < minArena then .error (.invalidConfig "ArenaSize" (.word s.arena))
  else if s.reserve < s.arena then .error (.invalidConfig "ArenaReserve" (.word s.reserve))
  else if s.large < minObject then .error (.invalidConfig "LargeObjectThreshold" (.word s.large))
  else if s.factor ≤ 1 then .error (.invalidConfig "MajorCollectionFactor" (.float s.factor))
  else .ok ()

def wholePart (x : Float) : UInt64 := if x < 18446744073709551616.0 then x.toUInt64 else 0

/-- The use at which the next major collection is due when `left` bytes survived this one. -/
def nextMajor (s : Settings) (left : UInt64) : UInt64 :=
  let next := wholePart (left.toFloat * s.factor)
  if next < s.major then s.major else next

end Settings

end TxHeap
