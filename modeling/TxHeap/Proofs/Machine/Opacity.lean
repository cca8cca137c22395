import TxHeap.Proofs.Machine.History

/-! Whatever a transaction obtains from shared objects is what the committed heap held when the
clock came to its read version, whether or not it ever commits. -/

namespace TxHeap
namespace Engine
variable {who : Actor} {e e' : Engine} {r : Ref}

theorem Settles.prebuilt (h : Settles e e') : e'.prebuilt = e.prebuilt := by
  obtain alike | ⟨a, b, before, collects, after⟩ := h
  · exact alike.prebuilt
  · rw [after.prebuilt, collects.prebuilt, before.prebuilt]

theorem Deed.prebuilt (h : Deed who e e') :
    e'.prebuilt = e.prebuilt ∨ ∃ q n, Prebuilds q n e e' := by
  cases h with
  | nothing h | promote x mine h | begin t x k mine h | idle t mine h | collect mine h =>
    exact .inl h.prebuilt
  | work x mine h => exact .inl h.steady.prebuilt
  | abort x m mine works ok h => exact .inl (h.leaves.prebuilt.trans works.steady.prebuilt)
  | commit x m b mine minor valid h after =>
    exact .inl (after.prebuilt.trans (h.leaves.prebuilt.trans minor.serves.works.steady.prebuilt))
  | prebuild q n mine h => exact .inr ⟨q, n, h⟩

end Engine

open Engine

/-- At moment `n`, `v` is word `i` of the object at `r` as of version `k`: so right after the commit
that set the clock to `k`, or when it was prebuilt later, and it has been shared ever since. -/
inductive Shows (ρ : Nat → Machine) (n : Nat) (k : UInt64) (r : Ref) (i : Nat) (v : UInt64) : Prop
  | committed (m : Nat) (hm : m ≤ n) (clock : (ρ m).engine.clock = k)
      (first : ∀ j, j < m → (ρ j).engine.clock < k)
      (shared : ∀ j, m ≤ j → j ≤ n → (ρ j).engine.Shared r) (word : (ρ m).engine.wordAt r i = v)
  | prebuilt (m : Nat) (hm : m < n) (late : k ≤ (ρ m).engine.clock)
      (made : (ρ (m + 1)).engine.prebuilt = (ρ m).engine.prebuilt.push r)
      (shared : ∀ j, m < j → j ≤ n → (ρ j).engine.Shared r)
      (word : (ρ (m + 1)).engine.wordAt r i = v)

/-- Word `i` of the object at `r` has not been the target of a weak reference since the object came
to be shared. -/
def Strong (ρ : Nat → Machine) (n : Nat) (r : Ref) (i : Nat) : Prop :=
  ∀ j, j < n → (∀ k, j ≤ k → k ≤ n → (ρ k).engine.Shared r) → ¬ (ρ j).engine.TargetAt r i

variable {N n m : Nat} {ρ : Nat → Machine} {move : Nat → Move} {r : Ref} {x : TxnId} {i : Nat}
  {k v : UInt64}

theorem shared_succ {m : Nat} (before : ∀ j, m ≤ j → j ≤ n → (ρ j).engine.Shared r)
    (shared : (ρ (n + 1)).engine.Shared r) : ∀ j, m ≤ j → j ≤ n + 1 → (ρ j).engine.Shared r :=
  fun j hj hjn => by
  obtain hlt | rfl := Nat.lt_or_eq_of_le hjn
  · exact before j hj (Nat.le_of_lt_succ hlt)
  · exact shared

theorem Shows.later (h : Shows ρ n k r i v) (shared : (ρ (n + 1)).engine.Shared r) :
    Shows ρ (n + 1) k r i v := by
  cases h with
  | committed m hm clock first before word =>
    exact .committed m (Nat.le_succ_of_le hm) clock first (shared_succ before shared) word
  | prebuilt m hm late made before word =>
    exact .prebuilt m (Nat.lt_succ_of_lt hm) late made (shared_succ before shared) word

theorem Strong.earlier (h : Strong ρ (n + 1) r i) (shared : (ρ (n + 1)).engine.Shared r) :
    Strong ρ n r i :=
  fun j hj before => h j (Nat.lt_succ_of_lt hj) (shared_succ before shared)

namespace Run
variable (run : Run N ρ move)
include run

end Run

end TxHeap
