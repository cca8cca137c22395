/-! A block of words that starts out zero. Only the words up to the highest one written are stored.
-/

namespace TxHeap

/-- Something that cannot be carried out on a damaged heap. -/
inductive Fault
  | outOfBounds
  /-- A scan over damaged chunks found no end. -/
  | endless
deriving Repr, DecidableEq, Inhabited

structure Memory where
  size : Nat
  stored : Array UInt64

namespace Memory

def zeros (size : Nat) : Memory := ⟨size, #[]⟩

def word (m : Memory) (i : Nat) : UInt64 :=
  if i < m.size then m.stored.getD i 0 else 0

def extend (a : Array UInt64) (n : Nat) : Array UInt64 :=
  if a.size < n then a ++ Array.replicate (n - a.size) 0 else a

def write (m : Memory) (i : Nat) (v : UInt64) : Memory :=
  match m with
  | ⟨size, stored⟩ =>
    if i < size then ⟨size, (extend stored (i + 1)).setIfInBounds i v⟩ else ⟨size, stored⟩

def read? (m : Memory) (i : Nat) : Except Fault UInt64 :=
  if i < m.size then .ok (m.word i) else .error .outOfBounds

def zeroFrom (a : Array UInt64) (i : Nat) : Nat → Array UInt64
  | 0 => a
  | n + 1 => zeroFrom (a.setIfInBounds i 0) (i + 1) n

def clear (m : Memory) (lo hi : Nat) : Memory :=
  match m with
  | ⟨size, stored⟩ =>
    let n := min hi stored.size - lo
    ⟨size, zeroFrom stored lo n⟩

def slice (m : Memory) (lo hi : Nat) : List UInt64 :=
  (List.range' lo (min hi m.size - lo)).map m.word

def fill (m : Memory) (v : UInt64) : Memory := ⟨m.size, Array.replicate m.size v⟩

/-- The maximal ranges `[from, to)` of zero words. -/
def zeroRanges (m : Memory) : List (Nat × Nat) :=
  let step := fun (acc : Option Nat × List (Nat × Nat)) (i : Nat) =>
    match acc, m.word i == 0 with
    | (none, out), true => (some i, out)
    | (none, out), false => (none, out)
    | (some lo, out), true => (some lo, out)
    | (some lo, out), false => (none, (lo, i) :: out)
  match (List.range m.size).foldl step (none, []) with
  | (some lo, out) => ((lo, m.size) :: out).reverse
  | (none, out) => out.reverse

@[simp] theorem size_zeros (n : Nat) : (zeros n).size = n := rfl

@[simp] theorem word_zeros (n i : Nat) : (zeros n).word i = 0 := by
  simp [zeros, word]

@[simp] theorem size_write (m : Memory) (i : Nat) (v : UInt64) : (m.write i v).size = m.size := by
  unfold write
  split
  split <;> rfl

@[simp] theorem size_clear (m : Memory) (lo hi : Nat) : (m.clear lo hi).size = m.size := rfl

theorem getD_extend (a : Array UInt64) (n i : Nat) : (extend a n).getD i 0 = a.getD i 0 := by
  unfold extend
  split
  · simp only [Array.getD_eq_getD_getElem?, Array.getElem?_append, Array.getElem?_replicate]
    split
    · rfl
    · next h =>
      rw [Array.getElem?_eq_none (by omega)]
      split <;> rfl
  · rfl

theorem size_extend (a : Array UInt64) (n : Nat) : n ≤ (extend a n).size := by
  unfold extend
  split
  · simp only [Array.size_append, Array.size_replicate]
    omega
  · omega

/-- A write changes the word written, and only inside the memory. -/
theorem word_write (m : Memory) (i j : Nat) (v : UInt64) :
    (m.write i v).word j = if i = j ∧ j < m.size then v else m.word j := by
  obtain ⟨size, stored⟩ := m
  unfold write word
  by_cases hi : i < size
  · have room := size_extend stored (i + 1)
    have same := getD_extend stored (i + 1) j
    rw [Array.getD_eq_getD_getElem?] at same
    simp only [hi, if_true, Array.getD_eq_getD_getElem?, Array.getElem?_setIfInBounds]
    by_cases hij : i = j
    · subst hij
      simp [hi, show i < (extend stored (i + 1)).size by omega]
    · simp [hij, same]
  · by_cases hij : i = j
    · subst hij
      simp [hi]
    · simp [hi, hij]

theorem getD_zeroFrom (a : Array UInt64) (i n j : Nat) :
    (zeroFrom a i n).getD j 0 = if i ≤ j ∧ j < i + n then 0 else a.getD j 0 := by
  induction n generalizing a i with
  | zero => simp [zeroFrom, show ¬(i ≤ j ∧ j < i) by omega]
  | succ n ih =>
    rw [zeroFrom, ih]
    by_cases h : i = j
    · subst h
      rw [if_neg (by omega), if_pos (by omega), Array.getD_eq_getD_getElem?,
        Array.getElem?_setIfInBounds_self]
      split <;> rfl
    · simp only [Array.getD_eq_getD_getElem?, Array.getElem?_setIfInBounds, h, if_false]
      congr 1
      apply propext
      omega

theorem word_clear (m : Memory) (lo hi j : Nat) :
    (m.clear lo hi).word j = if lo ≤ j ∧ j < hi then 0 else m.word j := by
  obtain ⟨size, stored⟩ := m
  simp only [clear, word, getD_zeroFrom]
  by_cases h : lo ≤ j ∧ j < hi
  · by_cases hs : j < stored.size
    · simp [h, show lo ≤ j ∧ j < lo + (min hi stored.size - lo) by omega]
    · simp [h, Array.getElem?_eq_none (show stored.size ≤ j by omega)]
  · simp [h, show ¬(lo ≤ j ∧ j < lo + (min hi stored.size - lo)) by omega]

end Memory

end TxHeap
