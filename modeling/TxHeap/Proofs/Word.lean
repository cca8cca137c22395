import Mathlib.Algebra.Ring.Nat
import Mathlib.Data.Nat.Bitwise
import Mathlib.Tactic.Common
import TxHeap.Object.Ref
import TxHeap.Word

/-! Rounding and tag bits of 64-bit words, read as natural numbers, and the bits of references. -/

namespace TxHeap.Word

theorem toNat_ofNat_lt {n : Nat} (h : n < 2 ^ 64) : (UInt64.ofNat n).toNat = n :=
  UInt64.toNat_ofNat_of_lt' h

theorem and_complement_pow (n k : Nat) (hk : k ≤ 64) (hn : n < 2 ^ 64) :
    n &&& (2 ^ 64 - 1 - (2 ^ k - 1)) = n / 2 ^ k * 2 ^ k := by
  have hle : 2 ^ k ≤ 2 ^ 64 := Nat.pow_le_pow_right (by decide) hk
  have hmask : 2 ^ 64 - 1 - (2 ^ k - 1) = 2 ^ 64 - ((2 ^ k - 1) + 1) := by omega
  rw [hmask, ← Nat.shiftRight_eq_div_pow, ← Nat.shiftLeft_eq]
  apply Nat.eq_of_testBit_eq
  intro i
  rw [Nat.testBit_and, Nat.testBit_two_pow_sub_succ (by omega), Nat.testBit_two_pow_sub_one,
    Nat.testBit_shiftLeft, Nat.testBit_shiftRight]
  by_cases hik : i < k
  · simp [hik, show ¬ k ≤ i by omega]
  · rw [show k + (i - k) = i by omega]
    by_cases hi : i < 64
    · simp [hi, hik, show k ≤ i by omega]
    · have high : n < 2 ^ i := Nat.lt_of_lt_of_le hn (Nat.pow_le_pow_right (by decide) (by omega))
      simp [Nat.testBit_lt_two_pow high]

theorem toNat_alignDown (n align : UInt64) (k : Nat) (hk : k < 64) (ha : align.toNat = 2 ^ k) :
    (alignDown n align).toNat = n.toNat / 2 ^ k * 2 ^ k := by
  have hone : (1 : UInt64) ≤ align := by
    rw [UInt64.le_iff_toNat_le, ha]
    exact Nat.two_pow_pos k
  rw [alignDown, UInt64.toNat_and, UInt64.toNat_not, UInt64.toNat_sub_of_le _ _ hone, ha]
  exact and_complement_pow n.toNat k hk.le n.toNat_lt

theorem toNat_alignUp (n align : UInt64) (k : Nat) (hk : k < 64) (ha : align.toNat = 2 ^ k)
    (hn : n.toNat + 2 ^ k ≤ 2 ^ 64) :
    (alignUp n align).toNat = (n.toNat + 2 ^ k - 1) / 2 ^ k * 2 ^ k := by
  have hpos := Nat.two_pow_pos k
  have hsum : (n + align - 1).toNat = n.toNat + 2 ^ k - 1 := by
    rw [UInt64.toNat_sub, UInt64.toNat_add, ha, UInt64.toNat_one]
    omega
  rw [alignUp, toNat_alignDown _ _ k hk ha, hsum]

theorem toNat_and_one (w : UInt64) : (w &&& 1).toNat = w.toNat % 2 := by
  rw [UInt64.toNat_and]
  exact Nat.and_one_is_mod _

theorem toNat_and_not_one (w : UInt64) : (w &&& ~~~1).toNat = w.toNat / 2 * 2 :=
  toNat_alignDown w 2 1 (by decide) rfl

theorem toNat_or_one (w : UInt64) (h : w.toNat % 2 = 0) : (w ||| 1).toNat = w.toNat + 1 := by
  have hor := Nat.two_pow_add_eq_or_of_lt (i := 1) (b := 1) (by decide) (w.toNat / 2)
  rw [UInt64.toNat_or, UInt64.toNat_one, show w.toNat = 2 ^ 1 * (w.toNat / 2) by omega, ← hor]

theorem index_eq (off : UInt64) : index off = off.toNat / 8 := by
  rw [index, UInt64.toNat_div]
  rfl

end TxHeap.Word

namespace TxHeap.Ref
variable {r : Ref} {k : Nat} {o b : UInt64}

theorem isYoung_iff (r : Ref) : r.isYoung = true ↔ r.bits.toNat.testBit 62 = true := by
  have bit : (r.bits &&& youngBit).toNat = (r.bits.toNat.testBit 62).toNat * 2 ^ 62 := by
    rw [UInt64.toNat_and]
    exact Nat.and_two_pow r.bits.toNat 62
  rw [isYoung, bne_iff_ne, ne_eq, ← UInt64.toNat_inj, bit]
  cases r.bits.toNat.testBit 62 with
  | true | false => simp

theorem isYoung_of_lt (h : r.bits.toNat < 2 ^ 62) : r.isYoung = false := by
  rw [Bool.eq_false_iff, ne_eq, isYoung_iff, Nat.testBit_lt_two_pow h]
  simp

section Forwarding

theorem toNat_forwarded (h : b.toNat < 2 ^ 63) : (forwardedBit ||| b).toNat = 2 ^ 63 + b.toNat := by
  rw [UInt64.toNat_or]
  exact (Nat.two_pow_add_eq_or_of_lt h 1).symm

theorem forwarded_marked (h : b.toNat < 2 ^ 63) : (forwardedBit ||| b) &&& forwardedBit ≠ 0 := by
  rw [ne_eq, ← UInt64.toNat_inj, UInt64.toNat_and, toNat_forwarded h]
  change ¬ (2 ^ 63 + b.toNat) &&& 2 ^ 63 = 0
  rw [Nat.and_two_pow, Nat.testBit_two_pow_add_eq, Nat.testBit_lt_two_pow h]
  simp

theorem forwarded_address (h : b.toNat < 2 ^ 63) :
    (forwardedBit ||| b) &&& ~~~forwardedBit = b := by
  apply UInt64.toNat.inj
  rw [UInt64.toNat_and, toNat_forwarded h]
  change (2 ^ 63 + b.toNat) &&& (2 ^ 63 - 1) = b.toNat
  rw [Nat.and_two_pow_sub_one_eq_mod]
  omega

end Forwarding

section Young
variable (hk : k < 2 ^ 22) (ho : o.toNat < 2 ^ 40)
include hk ho

theorem toNat_young : (young k o).bits.toNat = 2 ^ 62 + (2 ^ 40 * k + o.toNat) := by
  have shifted : (.ofNat k <<< offsetBits).toNat = 2 ^ 40 * k := by
    rw [UInt64.toNat_shiftLeft, Word.toNat_ofNat_lt (by omega)]
    simp only [offsetBits, UInt64.reduceToNat, Nat.shiftLeft_eq, Nat.reduceMod]
    omega
  rw [young, UInt64.toNat_or, UInt64.toNat_or, shifted, Nat.or_assoc,
    ← Nat.two_pow_add_eq_or_of_lt ho]
  exact (Nat.two_pow_add_eq_or_of_lt (i := 62) (by omega) 1).symm

theorem isYoung_young : (young k o).isYoung = true := by
  rw [isYoung_iff, toNat_young hk ho, Nat.testBit_two_pow_add_eq, Nat.testBit_lt_two_pow (by omega)]
  rfl

theorem offset_young : (young k o).offset = o := by
  apply UInt64.toNat.inj
  rw [offset, UInt64.toNat_and, toNat_young hk ho]
  change _ &&& (2 ^ 40 - 1) = _
  rw [Nat.and_two_pow_sub_one_eq_mod]
  omega

theorem segment_young : (young k o).segment = k := by
  have low : ((young k o).bits &&& ~~~youngBit).toNat = 2 ^ 40 * k + o.toNat := by
    rw [UInt64.toNat_and, toNat_young hk ho]
    change _ &&& (2 ^ 64 - (2 ^ 62 + 1)) = _
    apply Nat.eq_of_testBit_eq
    intro i
    rw [Nat.testBit_and, Nat.testBit_two_pow_sub_succ (by omega), Nat.testBit_two_pow]
    have small : 2 ^ 40 * k + o.toNat < 2 ^ 62 := by omega
    rcases Nat.lt_trichotomy i 62 with hi | rfl | hi
    · rw [Nat.testBit_two_pow_add_gt hi]
      simp [show i < 64 by omega, show ¬ 62 = i by omega]
    · rw [Nat.testBit_lt_two_pow small]
      simp
    · rw [Nat.testBit_lt_two_pow, Nat.testBit_lt_two_pow]
      · rfl
      · exact Nat.lt_of_lt_of_le small (Nat.pow_le_pow_right (by decide) (by omega))
      · have : 2 ^ 63 ≤ 2 ^ i := Nat.pow_le_pow_right (by decide) hi
        omega
  rw [segment, UInt64.toNat_shiftRight, low]
  simp only [offsetBits, UInt64.reduceToNat, Nat.shiftRight_eq_div_pow, Nat.reduceMod]
  omega

end Young
end TxHeap.Ref
