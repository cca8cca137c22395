import TxHeap.Proofs.Machine.Ledger
import TxHeap.Proofs.Machine.Turning

/-! Pauses are taken in turn, but checks of the heap ask for them in one name. -/

namespace TxHeap
open Engine

variable {who : Caller} {s : System} {others : List Task} {p : Task}

theorem Turns.pauser {L : Licence} {spent : Bool} {o o' : Outline} {ended : Option Ending}
    (turns : Turns L spent o ended o') (h : o'.pauser = some who) :
    o.pauser = some who ∨ L.asks who := by
  induction turns with
  | start => exact .inl h
  | turn before turn ih =>
    cases turn with
    | pause who' may => exact .inr (may who h)
    | _ => exact ih h
  | finish before first held how may ih => exact ih h

namespace System

theorem Movement.back {choice : Choice} {q : Task} (h : s.Movement choice others p)
    (hq : q ∈ s.tasks) : q ∈ others ∨ q.op = p.op := by
  cases h with
  | start => exact .inl hq
  | resume here resumed =>
    obtain rfl | hq := List.mem_cons.1 ((erased here).mem_iff.2 hq)
    · cases resumed <;> exact .inr rfl
    · exact .inl hq

theorem Moves.goes {σ : Stance} (moves : s.Moves others p σ) :
    Goes p.threads s.engine p.course.stop := by
  have treads := moves.treads
  obtain ⟨op, threads, held, course⟩ := p
  cases course with
  | done | raised => exact treads
  | waiting | calling => exact treads.1

namespace Run
variable {N n : Nat} {a : Nat → System} {choice : Nat → Choice} {t : ThreadId}
  (run : System.Run N a choice)
include run

theorem followed (hn : n ≤ N) : Followed a choice (fun _ _ _ => True) (fun _ _ _ => True) n := by
  induction n with
  | zero => exact run.followed_zero
  | succ n ih =>
    have followed := ih (Nat.le_of_succ_le hn)
    cases mover : (a n).mover? (choice n) with
    | none => exact run.followed_idle hn followed mover fun _ _ _ _ _ => id
    | some =>
      obtain ⟨spent, proceeding⟩ := run.proceeding hn followed mover fun _ _ => trivial
      exact run.followed_step hn followed mover proceeding (fun _ _ _ _ _ _ => id)
        fun _ _ _ _ _ => trivial

theorem moves (hn : n < N) (mover : (a n).mover? (choice n) = some (others, p)) :
    ∃ σ, (a n).Moves others p σ :=
  (run.ok hn.le).moves (run.roomy hn) (run.allowed n hn) mover

theorem succ_of_mover (hn : n < N) (mover : (a n).mover? (choice n) = some (others, p)) :
    a (n + 1) = (System.advance (a n).engine others p).1 := by
  rw [run.step n hn, step_of_mover mover]

theorem meets {back : Operation → Engine → Engine → Prop} {X : Nat → Bool → Task → Prop}
    (hn : n < N) (followed : Followed a choice back X n)
    (relied : ∀ i others p, (a n).mover? (choice n) = some (others, p) →
      choice n = .answer i (.ok ()) → back p.op (a (origin a choice n)).engine (a n).engine)
    {exit : Exit} (ends : ((a n).step (choice n)).2 = some exit)
    (unfailed : ∀ i v, choice n = .answer i (.error v) → exit.outcome ≠ .error v) :
    ∃ others p spent z, (a n).mover? (choice n) = some (others, p) ∧ (a (n + 1)).tasks = others ∧
    p.op = exit.op ∧
      p.threads ⊆ exit.threads ∧ Proceeding a choice back X n spent p ∧
      exit.op.Meets (back exit.op (a (origin a choice n)).engine)
      (a (origin a choice n)).engine z exit.outcome
        (a (n + 1)).engine := by
  cases mover : (a n).mover? (choice n) with
  | none =>
    rw [System.step, mover] at ends
    cases ends
  | some r =>
    obtain ⟨others, p⟩ := r
    obtain ⟨spent, proceeding⟩ := run.proceeding hn followed mover fun i => relied i others p mover
    have after := run.succ_of_mover hn mover
    have engine := run.engine_succ hn mover
    rw [step_of_mover mover] at ends
    obtain ⟨none, -⟩ | ⟨out, tasks, some, course⟩ := advance_cases (a n).engine others p
    · rw [none] at ends
      cases ends
    · cases some.symm.trans ends
      refine ⟨others, p, spent, ⟨spent, p.threads, (a n).engine.outline⟩, rfl, by rwa [after], rfl,
        List.subset_append_left _ _, proceeding, ?_⟩
      rw [engine]
      refine ((proceeding.turning fun i v answers => unfailed i v answers ?_).leaves course).2
      rw [proceeding.raises i v answers] at course
      cases out <;> cases course
      rfl

/-- Only a collection frees what is shared: one of the call that goes on, with everyone else
stopped. -/
theorem freed (hn : n < N) (mover : (a n).mover? (choice n) = some (others, p))
    (free : .engine ∉ (a (n + 1)).engine.locked)
    {r : Ref} (shared : (a n).engine.Shared r) (gone : ¬ (a (n + 1)).engine.Shared r) :
    ∃ t m m', Acting p.threads (a n).engine t ∧
      m.othersStopped (.thread t) = true ∧ m.Shared r ∧ ¬ m'.Shared r ∧
      (collectOld m = .done () m' ∨ ∃ v, collectOld m = .raised v m') := by
  obtain ⟨σ, moves⟩ := run.moves hn mover
  obtain ⟨k, -, strides⟩ := moves.goes
  rw [← run.engine_succ hn mover] at strides
  exact (strides.feats free).freed shared gone

end Run
end System

variable {N n : Nat} {a : Nat → System} {choice : Nat → Choice}

end TxHeap
