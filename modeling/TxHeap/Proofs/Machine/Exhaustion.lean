import TxHeap.Proofs.Arena.History
import TxHeap.Proofs.Machine.Stepping

/-! When the old heap is exhausted. An allocation there is refused only if nothing fits into all
that is reserved. -/

namespace TxHeap
open Engine

namespace Engine
variable {e e' : Engine} {size : UInt64} {r : Ref} {n : Nat}

/-- The heap has come about as that of an engine does: by requests since the engine was set up, or
in a run. -/
inductive Reached : Engine → Prop
  | asked {layout : Layout} {settings : Settings} {log : Option Event.Log} {ownsLog : Bool}
      {e₀ e : Engine}
      {requests : List Arena.Request} (new : create layout settings log ownsLog = .ok e₀)
      (run : Arena.Request.Run (fun _ => False) e₀.arena requests e.arena) : Reached e
  | stepped {N n : Nat} {a : Nat → System} {choice : Nat → Choice} (run : System.Run N a choice)
      (hn : n ≤ N) :
      Reached (a n).engine

theorem Reached.heap (h : e.Reached) : e.arena.Good ∧ e.arena.memory.size % 2 = 0 ∧
    e.arena.memory.size ≤ 2 ^ 44 := by
  cases h with
  | asked made run =>
    have new := create_new made
    have memory := run.memory_size new.wf.good
    exact ⟨run.good new.wf.good, memory ▸ new.even, memory ▸ new.small⟩
  | stepped run hn =>
    have heap := (run.ok hn).inv.core.heap
    exact ⟨heap.good, heap.even, heap.small⟩

theorem mallocWithin_mono (k : Nat) (h : mallocWithin size n e = .ok r e') :
    mallocWithin size (n + k) e = .ok r e' := by
  induction n generalizing e with
  | zero => cases h
  | succ n ih =>
    rw [Nat.add_right_comm, mallocWithin]
    rw [mallocWithin] at h
    cases got : onArena (Arena.malloc size) e with
    | error =>
      rw [bind_error got] at h
      cases h
    | ok p e1 =>
      rw [bind_ok got] at h ⊢
      split at h
      · next found => rwa [if_pos found]
      next missed =>
      rw [if_neg missed]
      cases grown : growFor size e1 with
      | error =>
        rw [bind_error grown] at h
        cases h
      | ok more e2 =>
        rw [bind_ok grown] at h ⊢
        cases more with
        | true => exact ih h
        | false => exact h

end Engine

variable {e : Engine} {size : UInt64}

/-- Allocation in the old heap ends after two attempts at most. It is refused exactly if no listed
chunk is large enough and all that is reserved leaves no room above the top. The heap may grow, and
every object stays where and what it was. -/
theorem mallocOld_refused_iff (reached : e.Reached) (bound : size ≤ e.arena.capacity) :
    ∃ r e', mallocOld size e = .ok r e' ∧ (∀ n ≥ 2, mallocWithin size n e = .ok r e') ∧
      (r = .null ↔ ¬ e.arena.Fits size.toNat e.arena.capacity.toNat) ∧
      e.arena.size ≤ e'.arena.size ∧ e'.arena.size ≤ e.arena.capacity ∧
      (∀ q n, e.Room q n → e'.Room q n ∧ ∀ i < n, e'.wordAt q i = e.wordAt q i) ∧
      (r ≠ .null → ∃ n, ¬ e.Allocated r ∧ e'.Room r n ∧ size.toNat ≤ 8 * n) := by
  obtain ⟨good, even, small⟩ := reached.heap
  have capacity := good.capacity_eq
  rw [UInt64.le_iff_toNat_le, capacity] at bound
  simp only [UInt64.le_iff_toNat_le, capacity]
  have within : ∀ {e' : Engine}, e'.arena.Good → e'.arena.memory.size = e.arena.memory.size →
      e'.arena.size.toNat ≤ 8 * e.arena.memory.size := fun good same => same ▸ good.size_le
  obtain ⟨e', -, good', larger, ⟨run, keeps, misfit⟩ | ⟨r, n, run, hr, hn, takes, fits⟩⟩ :=
    mallocWithin_spec good even small (show size.toNat < 2 ^ 60 by omega) 0
  · refine ⟨.null, e', mallocWithin_mono 64 run, fun n hn => ?_,
      ⟨fun _ => misfit, fun _ => rfl⟩, larger,
      within good' keeps.memory_size,
        fun q n room => ⟨(keeps.live q.bits n).2 room, fun i hi => keeps.kept q.bits n i room hi⟩,
      fun ne => absurd rfl ne⟩
    obtain ⟨k, rfl⟩ := Nat.exists_eq_add_of_le hn
    exact mallocWithin_mono k run
  · refine ⟨r, e', mallocWithin_mono 64 run, fun n hn => ?_,
      ⟨fun null => absurd null hr, fun misfit => absurd fits misfit⟩, larger,
        within good' takes.memory_size,
      fun q n room => ⟨(takes.live q.bits n).2 (.inl room),
        fun i hi => takes.kept q.bits n i room hi⟩,
      fun _ => ⟨n, fun ⟨k, old⟩ => takes.fresh k old,
        (takes.live r.bits n).2 (.inr ⟨rfl, rfl⟩), hn⟩⟩
    obtain ⟨k, rfl⟩ := Nat.exists_eq_add_of_le hn
    exact mallocWithin_mono k run

/-- In a new heap a request for all that is reserved is refused: the header of the chunk has no
room. -/
theorem mallocOld_refused_iff_whole :
    ∃ e', small.Reached ∧ mallocOld small.arena.capacity small = .ok .null e' ∧
    e'.arena.size ≤ small.arena.capacity := by
  have run := System.run_enacts [] (by rintro _ ⟨⟩) (by decide)
  have reached : small.Reached := .stepped run (Nat.le_refl 0)
  obtain ⟨r, e', answer, -, refused, -, most, -⟩ := mallocOld_refused_iff reached (UInt64.le_refl _)
  have null := refused.2 (by
    rintro (⟨off, listed, -⟩ | room)
    · exact absurd listed (Array.not_mem_empty off)
    · exact absurd room (by decide))
  subst null
  exact ⟨e', reached, answer, most⟩

end TxHeap
