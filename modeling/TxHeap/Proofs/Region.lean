import TxHeap.Proofs.Word
import TxHeap.Region

/-! Handing pages of a region back. A word reads zero afterwards exactly if its page lies in the
range, but a range that begins in the last page of the address space is taken from 0 on. -/

namespace TxHeap

theorem Paging.toNat_size (p : Paging) : p.size.toNat = 2 ^ p.shift := by
  rw [size, Nat.one_shiftLeft]
  exact Word.toNat_ofNat_lt (Nat.pow_lt_pow_right (by decide) p.whole.2)

/-- Pages begin at whole words. -/
theorem Paging.words (p : Paging) : ∃ w, 2 ^ p.shift = 8 * w :=
  ⟨2 ^ (p.shift - 3), (Nat.pow_add' 2 _ 3).symm ▸ by rw [Nat.sub_add_cancel p.whole.1]⟩

namespace Region
variable {r : Region} {m : Memory} {i : Nat} {p : Paging}

/-- The region has been reserved and not been closed; its words are arbitrary. -/
def Open (p : Paging) (r : Region) : Prop :=
  ∃ size fresh, reserve size p = .ok fresh ∧ r.memory.size = fresh.memory.size

theorem Open.small (h : r.Open p) : r.memory.size < 2 ^ 60 := by
  obtain ⟨size, fresh, reserved, same⟩ := h
  simp only [reserve] at reserved
  split at reserved
  · cases reserved
  split at reserved
  · cases reserved
  next fits =>
  split at reserved
  · cases reserved
  · cases reserved
    rw [ge_iff_le, UInt64.le_iff_toNat_le] at fits
    simp only [UInt64.reduceToNat, Memory.size_zeros, UInt64.toNat_div] at fits same
    omega

def start (p : Paging) (lo : UInt64) : Nat :=
  if lo.toNat + 2 ^ p.shift ≤ 2 ^ 64 then lo.toNat else 0

theorem toNat_alignUp_page (p : Paging) (lo : UInt64) :
    (Word.alignUp lo p.size).toNat =
    (start p lo + 2 ^ p.shift - 1) / 2 ^ p.shift * 2 ^ p.shift := by
  have positive := Nat.two_pow_pos p.shift
  rw [start]
  split
  · next low => exact Word.toNat_alignUp lo p.size p.shift p.whole.2 p.toNat_size low
  · next high =>
    have wrapped : (lo + p.size - 1).toNat = lo.toNat + 2 ^ p.shift - 1 - 2 ^ 64 := by
      have := lo.toNat_lt
      have := p.size.toNat_lt
      have size := p.toNat_size
      rw [UInt64.toNat_sub, UInt64.toNat_add, UInt64.toNat_one]
      omega
    have := lo.toNat_lt
    rw [Word.alignUp, Word.toNat_alignDown _ p.size p.shift p.whole.2 p.toNat_size, wrapped,
      Nat.div_eq_of_lt (by omega),
      Nat.div_eq_of_lt (by omega)]

theorem word_releasePages (small : m.size < 2 ^ 60) (lo hi : UInt64) (i : Nat) :
    (releasePages m lo hi p).word i =
    if start p lo ≤ 8 * i / 2 ^ p.shift * 2 ^ p.shift ∧
        8 * i / 2 ^ p.shift * 2 ^ p.shift + 2 ^ p.shift ≤ min hi.toNat (8 * m.size) then 0
        else m.word i := by
  have limit : (UInt64.ofNat m.size * 8).toNat = 8 * m.size := by
    rw [UInt64.toNat_mul, Word.toNat_ofNat_lt (by omega)]
    simp only [UInt64.reduceToNat]
    omega
  have up := toNat_alignUp_page p lo
  have down := fun n => Word.toNat_alignDown n p.size p.shift p.whole.2 p.toNat_size
  have clamped : (pagesIn p (UInt64.ofNat m.size * 8) lo hi).2.toNat =
      min hi.toNat (8 * m.size) / 2 ^ p.shift * 2 ^ p.shift := by
    simp only [pagesIn, gt_iff_lt, UInt64.lt_iff_toNat_lt, down, limit]
    split
    · next above =>
      rw [down, limit, Nat.min_eq_right (above.le.trans (Nat.div_mul_le_self _ _))]
    · next below =>
      rw [down]
      obtain most | least := Nat.le_total hi.toNat (8 * m.size)
      · rw [Nat.min_eq_left most]
      · rw [Nat.min_eq_right least]
        refine congrArg (· * _) (Nat.le_antisymm ?_ (Nat.div_le_div_right least))
        exact (Nat.le_div_iff_mul_le (Nat.two_pow_pos _)).2 (Nat.not_lt.1 below)
  obtain ⟨w, words⟩ := p.words
  have positive := Nat.two_pow_pos p.shift
  generalize 2 ^ p.shift = size at *
  have page : ∀ n, n * size / 8 ≤ i ↔ n ≤ 8 * i / size := fun n => by
    rw [Nat.le_div_iff_mul_le positive, words, Nat.mul_left_comm]
    omega
  have first : (start p lo + size - 1) / size * size / 8 ≤ i ↔
      start p lo ≤ 8 * i / size * size := by
    rw [page, ← Nat.lt_succ_iff, Nat.div_lt_iff_lt_mul positive, Nat.succ_mul]
    omega
  have last : i < min hi.toNat (8 * m.size) / size * size / 8 ↔
      8 * i / size * size + size ≤ min hi.toNat (8 * m.size) := by
    rw [← not_le, page, not_le, ← Nat.succ_le_iff, Nat.le_div_iff_mul_le positive, Nat.succ_mul]
  simp only [← first, ← last]
  rw [releasePages]
  change Memory.word
    (if Word.alignUp lo p.size ≥ (pagesIn p (UInt64.ofNat m.size * 8) lo hi).2 then m
    else m.clear (Word.index (Word.alignUp lo p.size))
      (Word.index (pagesIn p (UInt64.ofNat m.size * 8) lo hi).2)) i = _
  split
  · next none =>
    rw [ge_iff_le, UInt64.le_iff_toNat_le, up, clamped] at none
    rw [if_neg (by omega)]
  · rw [Memory.word_clear, Word.index_eq, Word.index_eq, up, clamped]

/-- A release zeroes the whole pages inside its range and changes no word that is not inside it; one
that begins in the last page of the address space acts as if it began at 0. -/
theorem release_within (opened : r.Open p) (lo hi : UInt64) : (lo.toNat + 2 ^ p.shift ≤ 2 ^ 64 →
      (∀ i, lo.toNat ≤ 8 * i / 2 ^ p.shift * 2 ^ p.shift →
        8 * i / 2 ^ p.shift * 2 ^ p.shift + 2 ^ p.shift ≤ min hi.toNat r.size.toNat →
        (r.release lo hi p).memory.word i = 0) ∧
      (∀ i, ¬ (lo.toNat ≤ 8 * i ∧ 8 * i + 8 ≤ hi.toNat) →
        (r.release lo hi p).memory.word i = r.memory.word i)) ∧
    (2 ^ 64 < lo.toNat + 2 ^ p.shift → ∀ i, (r.release lo hi p).memory.word i =
      if 8 * i / 2 ^ p.shift * 2 ^ p.shift + 2 ^ p.shift ≤ min hi.toNat r.size.toNat then 0
      else r.memory.word i) := by
  have small := opened.small
  have size : r.size.toNat = 8 * r.memory.size := by
    rw [Region.size, UInt64.toNat_mul, Word.toNat_ofNat_lt (by omega)]
    simp only [UInt64.reduceToNat]
    omega
  have word := word_releasePages (m := r.memory) (p := p) small lo hi
  rw [size]
  constructor
  · intro low
    have begins : start p lo = lo.toNat := if_pos low
    refine ⟨fun i after before => ?_, fun i outside => ?_⟩
    · rw [release, word, begins, if_pos ⟨after, before⟩]
    · rw [release, word, begins, if_neg]
      rintro ⟨after, before⟩
      obtain ⟨w, words⟩ := p.words
      have below := Nat.div_mul_le_self (8 * i) (2 ^ p.shift)
      have above : 8 * i < 8 * i / 2 ^ p.shift * 2 ^ p.shift + 2 ^ p.shift :=
        Nat.lt_div_mul_add (Nat.two_pow_pos p.shift)
      rw [words, Nat.mul_left_comm] at below above after before
      exact outside (by omega)
  · intro high i
    have begins : start p lo = 0 := if_neg (Nat.not_le.2 high)
    rw [release, word, begins]
    simp only [Nat.zero_le, true_and]

/-- A release of no bytes at the end of the address space loses a word of an open region. -/
theorem release_within_lost : ∃ r : Region, r.Open .usual ∧ r.memory.word 0 = 7 ∧
    (r.release 18446744073709551615 18446744073709551615).memory.word 0 = 0 := by
  have opened : Open .usual ⟨⟨1024, #[7]⟩⟩ := ⟨8192, ⟨.zeros 1024⟩, rfl, rfl⟩
  have lost := (release_within opened 18446744073709551615 18446744073709551615).2 (by decide) 0
  exact ⟨_, opened, rfl, lost⟩

end Region
end TxHeap
