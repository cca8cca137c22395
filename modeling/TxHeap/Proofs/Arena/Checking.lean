import Mathlib.Data.List.Nodup
import Mathlib.Data.List.Perm.Subperm
import TxHeap.Proofs.Arena.Invariant

/-! Checking an arena whose words may be anything. Sizes are added in wrapping arithmetic, so a
check can go back; it never comes to an offset twice, as the back link of a chunk names where it
came from. What passes is tiled unless a sum wraps. -/

namespace TxHeap.Arena
open Word

variable {a : Arena} {back off : UInt64} {cs : List Chunk} {m : Memory} {n : Nat} {o : UInt64}
  {os path : List UInt64}

/-- The top is aligned and within the managed size, which the memory backs. The words are arbitrary.
-/
structure Bounded (a : Arena) : Prop where
  aligned : a.top.toNat % 16 = 0
  managed : a.top ≤ a.size
  backed : a.size.toNat ≤ 8 * a.memory.size

def sizeAt (a : Arena) (off : UInt64) : UInt64 := a.memory.word (index off + 1) &&& ~~~freeBit

structure Passes (a : Arena) (off back : UInt64) : Prop where
  least : 32 ≤ (a.sizeAt off).toNat
  aligned : (a.sizeAt off).toNat % 16 = 0
  below : off + a.sizeAt off ≤ a.top
  linked : a.memory.word (index off) = back

theorem Bounded.verifyFrom_step (h : a.Bounded) (go : off < a.top) (aligned : off.toNat % 16 = 0)
    (back : UInt64) :
    Passes a off back ∧ (∀ n, verifyFrom a (n + 1) off back =
      verifyFrom a n (off + a.sizeAt off) (a.sizeAt off)) ∨
    ¬ Passes a off back ∧ ∃ d, ∀ n, verifyFrom a (n + 1) off back = .ok (some d) := by
  have top := h.aligned
  have managed := UInt64.le_iff_toNat_le.1 h.managed
  have backed := h.backed
  have inside := UInt64.lt_iff_toNat_lt.1 go
  have size : chunkSize a.memory off = .ok (a.sizeAt off) := by
    rw [chunkSize, sizeWord, Memory.read?, if_pos (by rw [index_eq]; omega)]
    rfl
  have link : a.memory.read? (index off) = .ok (a.memory.word (index off)) := by
    rw [Memory.read?, if_pos (by rw [index_eq]; omega)]
  have unfold : ∀ n, verifyFrom a (n + 1) off back =
      if a.sizeAt off < minChunk ∨ a.sizeAt off % alignment ≠ 0 ∨ off + a.sizeAt off > a.top then
        .ok (some (.badSize (a.sizeAt off) off))
      else if a.memory.word (index off) ≠ back then .ok
        (some (.badBack off (a.memory.word (index off)) back))
      else verifyFrom a n (off + a.sizeAt off) (a.sizeAt off) := by
    intro n
    rw [verifyFrom, if_pos go, size]
    rw [link]
    rfl
  have sizes : (a.sizeAt off < minChunk ↔ (a.sizeAt off).toNat < 32) ∧
      (a.sizeAt off % alignment ≠ 0 ↔ (a.sizeAt off).toNat % 16 ≠ 0) :=
    ⟨UInt64.lt_iff_toNat_lt, by rw [← UInt64.toNat_inj.ne, UInt64.toNat_mod]; rfl⟩
  by_cases bad : a.sizeAt off < minChunk ∨ a.sizeAt off % alignment ≠ 0 ∨ off + a.sizeAt off > a.top
  · refine .inr ⟨fun passes => ?_, _, fun n => by rw [unfold, if_pos bad]⟩
    rw [sizes.1, sizes.2, gt_iff_lt, ← UInt64.not_le] at bad
    obtain small | odd | above := bad
    · exact Nat.not_lt.2 passes.least small
    · exact odd passes.aligned
    · exact above passes.below
  · by_cases linked : a.memory.word (index off) = back
    · refine .inl ⟨?_, fun n => by rw [unfold, if_neg bad, if_neg (not_not.2 linked)]⟩
      rw [sizes.1, sizes.2, gt_iff_lt, ← UInt64.not_le, not_or, not_or, not_not, not_not] at bad
      exact ⟨Nat.not_lt.1 bad.1, bad.2.1, bad.2.2, linked⟩
    · exact .inr ⟨fun passes => linked passes.linked, _,
        fun n => by rw [unfold, if_neg bad, if_pos linked]⟩

theorem Bounded.verifyFrom_stop (h : a.Bounded) (stop : ¬ off < a.top) (n : Nat) (back : UInt64) :
    verifyFrom a (n + 1) off back = .ok none := by
  rw [verifyFrom, if_neg stop, if_neg (UInt64.not_lt.2 h.managed)]
  rfl

section Ending

/-- A check that stands before `off`, after a chunk of `back` bytes, has come through `path`, the
latest first. -/
def CameBy (m : Memory) : UInt64 → UInt64 → List UInt64 → Prop
  | off, back, [] => off = 0 ∧ back = 0
  | off, back, o :: os => back ≠ 0 ∧ o = off - back ∧ CameBy m o (m.word (index o)) os

theorem CameBy.unique {xs ys : List UInt64} (hx : CameBy m off back xs)
    (hy : CameBy m off back ys) : xs = ys := by
  induction xs generalizing off back ys with
  | nil =>
    cases ys with
    | nil => rfl
    | cons => exact absurd hx.2 hy.1
  | cons x xs ih =>
    cases ys with
    | nil => exact absurd hy.2 hx.1
    | cons y ys =>
      obtain ⟨-, rfl, restx⟩ := hx
      obtain ⟨-, rfl, resty⟩ := hy
      rw [ih restx resty]

theorem CameBy.suffix {xs : List UInt64} (h : CameBy m off back (xs ++ o :: os)) :
    CameBy m o (m.word (index o)) os := by
  induction xs generalizing off back with
  | nil => exact h.2.2
  | cons x xs ih => exact ih h.2.2

/-- The links fix the way back from a chunk, so one met before would lie on a way of two lengths. -/
theorem CameBy.fresh (h : CameBy m off (m.word (index off)) path) : off ∉ path := by
  intro met
  obtain ⟨xs, os, rfl⟩ := List.append_of_mem met
  have same := congrArg List.length (h.unique h.suffix)
  simp only [List.length_append, List.length_cons] at same
  omega

/-- The offsets a check has passed are different aligned ones below the top. -/
structure Trail (a : Arena) (off back : UInt64) (path : List UInt64) : Prop where
  came : CameBy a.memory off back path
  distinct : path.Nodup
  below : ∀ o ∈ path, o.toNat < a.top.toNat ∧ o.toNat % 16 = 0
  aligned : off.toNat % 16 = 0

theorem Trail.length_le (h : Trail a off back path) (top : a.top.toNat % 16 = 0) :
    path.length ≤ a.top.toNat / 16 := by
  have places : (path.map (·.toNat / 16)).Nodup := by
    refine (List.nodup_map_iff_inj_on h.distinct).2 fun o ho p hp same => UInt64.toNat.inj ?_
    have := h.below o ho
    have := h.below p hp
    omega
  have inside : path.map (·.toNat / 16) ⊆ List.range (a.top.toNat / 16) := by
    intro i hi
    obtain ⟨o, ho, rfl⟩ := List.mem_map.1 hi
    have := h.below o ho
    rw [List.mem_range]
    omega
  simpa using (List.Nodup.subperm places inside).length_le

theorem Trail.step (h : Trail a off back path) (go : off < a.top) (passes : Passes a off back) :
    Trail a (off + a.sizeAt off) (a.sizeAt off) (off :: path) where
  came := by
    refine ⟨fun zero => ?_, (UInt64.add_sub_cancel ..).symm, passes.linked.symm ▸ h.came⟩
    have least := passes.least
    rw [zero] at least
    exact absurd least (by decide)
  distinct := List.nodup_cons.2 ⟨CameBy.fresh (passes.linked.symm ▸ h.came), h.distinct⟩
  below := List.forall_mem_cons.2 ⟨⟨UInt64.lt_iff_toNat_lt.1 go, h.aligned⟩, h.below⟩
  aligned := by
    have := passes.aligned
    have := h.aligned
    rw [UInt64.toNat_add]
    omega

theorem Bounded.verifyFrom_ends (h : a.Bounded) (trail : Trail a off back path) {k : Nat}
    (room : a.top.toNat / 16 < path.length + k) :
    ∃ r, ∀ n, k ≤ n → verifyFrom a n off back = .ok r := by
  induction k generalizing off back path with
  | zero =>
    have := trail.length_le h.aligned
    omega
  | succ k ih =>
    have later : ∀ {n}, k + 1 ≤ n → ∃ j, n = j + 1 ∧ k ≤ j :=
      fun {n} hn => ⟨n - 1, by omega, by omega⟩
    by_cases go : off < a.top
    · obtain ⟨passes, next⟩ | ⟨-, d, damaged⟩ := h.verifyFrom_step go trail.aligned back
      · obtain ⟨r, ends⟩ := ih (trail.step go passes) (by rw [List.length_cons]; omega)
        refine ⟨r, fun n hn => ?_⟩
        obtain ⟨j, rfl, hj⟩ := later hn
        rw [next, ends j hj]
      · refine ⟨some d, fun n hn => ?_⟩
        obtain ⟨j, rfl, -⟩ := later hn
        exact damaged j
    · refine ⟨none, fun n hn => ?_⟩
      obtain ⟨j, rfl, -⟩ := later hn
      exact h.verifyFrom_stop go j back

end Ending

/-- Whatever the words are, a check ends, inside the memory, after at most one round for each
aligned offset below the top. -/
theorem verify_ends (h : a.Bounded) :
    ∃ r, a.verify = .ok r ∧ ∀ n, a.top.toNat / 16 < n → verifyFrom a n 0 0 = .ok r := by
  have start : Trail a 0 0 [] := ⟨⟨rfl, rfl⟩, .nil, by simp, rfl⟩
  obtain ⟨r, ends⟩ := h.verifyFrom_ends start (k := a.top.toNat / 16 + 1) (by simp)
  exact ⟨r, ends _ (by rw [walkBound]; omega), fun n hn => ends n hn⟩

def backward : Arena :=
  { memory := ⟨16, #[0, 32, 18446744073709551600, 48, 32, 18446744073709551600]⟩, size := 128
    top := 64, last := 32 }

theorem bounded_backward : backward.Bounded := ⟨by decide, by decide, by decide⟩

/-- A check that turns back ends all the same, after no more than four rounds. -/
theorem verify_ends_backward : backward.Bounded ∧
    ∃ r, backward.verify = .ok r ∧ ∀ n, 4 < n → verifyFrom backward n 0 0 = .ok r :=
  ⟨bounded_backward, verify_ends bounded_backward⟩

section Tiling

/-- The offsets and sizes that the size words lead a check to, one after the other. -/
def met (a : Arena) : Nat → UInt64 → List (UInt64 × UInt64)
  | 0, _ => []
  | n + 1, off => if off < a.top then (off, a.sizeAt off) :: met a n (off + a.sizeAt off) else []

/-- No sum of an offset and a size that a check adds up is too large for a word. -/
def Unwrapped (a : Arena) (n : Nat) (off : UInt64) : Prop :=
  ∀ x ∈ met a n off, x.1.toNat + x.2.toNat < 2 ^ 64

theorem unwrapped_step (go : off < a.top) : Unwrapped a (n + 1) off ↔
    off.toNat + (a.sizeAt off).toNat < 2 ^ 64 ∧ Unwrapped a n (off + a.sizeAt off) := by
  rw [Unwrapped, met, if_pos go, List.forall_mem_cons]
  rfl

theorem unwrapped_stop (stop : ¬ off < a.top) : Unwrapped a n off := by
  cases n with
  | zero => exact fun x hx => absurd hx nofun
  | succ =>
    rw [Unwrapped, met, if_neg stop]
    exact fun x hx => absurd hx (by simp)

theorem exists_tag (a : Arena) (off : UInt64) :
    ∃ c : Chunk, a.memory.word (off.toNat / 8 + 1) = UInt64.ofNat c.tag ∧
    c.size = (a.sizeAt off).toNat := by
  generalize hw : a.memory.word (off.toNat / 8 + 1) = w
  have size : (a.sizeAt off).toNat = w.toNat / 2 * 2 := by
    rw [sizeAt, index_eq, hw]
    exact toNat_and_not_one w
  refine ⟨⟨w.toNat / 2 * 2, w.toNat % 2 == 1⟩, UInt64.toNat.inj ?_, size.symm⟩
  have tag : (⟨w.toNat / 2 * 2, w.toNat % 2 == 1⟩ : Chunk).tag = w.toNat := by
    rw [Chunk.tag]
    split
    · next odd =>
      rw [beq_iff_eq] at odd
      simp only
      omega
    · next even =>
      rw [beq_iff_eq] at even
      simp only
      omega
  rw [tag, UInt64.ofNat_toNat]

theorem Bounded.chain_of_verified (h : a.Bounded) (aligned : off.toNat % 16 = 0)
    (inside : off ≤ a.top)
    (verified : verifyFrom a n off back = .ok none) (unwrapped : Unwrapped a n off) :
    ∃ cs, Chain a.memory off.toNat back.toNat cs ∧ off.toNat + span cs = a.top.toNat := by
  induction n generalizing off back with
  | zero => cases verified
  | succ n ih =>
    by_cases go : off < a.top
    · obtain ⟨passes, next⟩ | ⟨-, d, damaged⟩ := h.verifyFrom_step go aligned back
      · obtain ⟨here, later⟩ := (unwrapped_step go).1 unwrapped
        have sum : (off + a.sizeAt off).toNat = off.toNat + (a.sizeAt off).toNat := by
          rw [UInt64.toNat_add]
          omega
        obtain ⟨c, tag, size⟩ := exists_tag a off
        have multiple := passes.aligned
        obtain ⟨cs, chain, all⟩ := ih (by omega) passes.below ((next n).symm.trans verified) later
        rw [sum, ← size] at chain all
        refine ⟨c :: cs, ⟨?_, tag, size ▸ passes.least, size ▸ multiple, chain⟩,
          by rw [span_cons]; omega⟩
        rw [← index_eq, passes.linked, UInt64.ofNat_toNat]
      · cases (damaged n).symm.trans verified
    · refine ⟨[], trivial, ?_⟩
      rw [UInt64.lt_iff_toNat_lt] at go
      rw [UInt64.le_iff_toNat_le] at inside
      rw [span_nil]
      omega

theorem Bounded.verified_of_chain (h : a.Bounded) (off back : UInt64) (aligned : off.toNat % 16 = 0)
    (chain : Chain a.memory off.toNat back.toNat cs) (all : off.toNat + span cs = a.top.toNat)
    (enough : cs.length < n) :
    verifyFrom a n off back = .ok none ∧ Unwrapped a n off := by
  induction cs generalizing off back n with
  | nil =>
    obtain ⟨n, rfl⟩ := Nat.exists_eq_add_of_lt enough
    have stop : ¬ off < a.top := by
      rw [UInt64.lt_iff_toNat_lt, ← all]
      simp
    exact ⟨h.verifyFrom_stop stop _ back, unwrapped_stop stop⟩
  | cons c cs ih =>
    obtain ⟨n, rfl⟩ : ∃ k, n = k + 1 := ⟨n - 1, by omega⟩
    obtain ⟨link, tag, least, multiple, rest⟩ := chain
    rw [span_cons] at all
    have top := a.top.toNat_lt
    have go : off < a.top := by
      rw [UInt64.lt_iff_toNat_lt]
      omega
    have size : (a.sizeAt off).toNat = c.size := by
      rw [sizeAt, index_eq, tag, freeBit, toNat_and_not_one,
        toNat_ofNat_lt (by have := c.tag_bounds; omega)]
      unfold Chunk.tag
      split <;> omega
    have sum : (off + a.sizeAt off).toNat = off.toNat + c.size := by
      rw [UInt64.toNat_add, size]
      omega
    have passes : Passes a off back :=
      { least := size ▸ least
        aligned := size ▸ multiple
        below := by rw [UInt64.le_iff_toNat_le]; omega
        linked := by rw [index_eq, link, UInt64.ofNat_toNat] }
    obtain ⟨-, next⟩ | ⟨fails, -⟩ := h.verifyFrom_step go aligned back
    · rw [next, unwrapped_step go]
      obtain ⟨verified, unwrapped⟩ := ih (off + a.sizeAt off) (a.sizeAt off) (by omega)
        (by rwa [sum, size]) (by omega) (by simpa using enough)
      exact ⟨verified, by omega, unwrapped⟩
    · exact absurd passes fails

end Tiling

/-- Chunks tile the bytes below the top exactly if the check passes and nothing it adds up wraps. -/
theorem tiled_iff_verified (h : a.Bounded) : (∃ cs, Chain a.memory 0 0 cs ∧ span cs = a.top.toNat) ↔
    a.verify = .ok none ∧ ∀ x ∈ met a (walkBound a) 0, x.1.toNat + x.2.toNat < 2 ^ 64 := by
  constructor
  · rintro ⟨cs, chain, all⟩
    have short := length_le_span fun c hc => (chain.size_mem c hc).1
    exact h.verified_of_chain 0 0 rfl chain (by simpa using all) (by rw [walkBound]; omega)
  · rintro ⟨verified, unwrapped⟩
    obtain ⟨cs, chain, all⟩ := h.chain_of_verified rfl (UInt64.zero_le) verified unwrapped
    exact ⟨cs, chain, by simpa using all⟩

/-- A check that turned back passes, though the size it turned back by is larger than the memory. -/
theorem tiled_iff_verified_backward : backward.verify = .ok none ∧
    ¬ ∃ cs, Chain backward.memory 0 0 cs ∧ span cs = backward.top.toNat := by
  refine ⟨rfl, fun tiled => ?_⟩
  have unwrapped := ((tiled_iff_verified bounded_backward).1 tiled).2
    (32, 18446744073709551600) (by decide)
  exact absurd unwrapped (by decide)

end TxHeap.Arena
