import TxHeap.Proofs.Call.Attempts
import TxHeap.Proofs.Machine.Stepping

/-! With which mutexes calls end, and what becomes of a transaction whose function failed. A call
that returns, or whose transaction is rolled back, has given up all mutexes. A violation found while
a transaction is ended leaves a mutex locked for good. -/

namespace TxHeap
open Engine

variable {op : Operation} {exit : Exit} {s : System}

/-- The operation, acting for these threads, may raise `v` with the engine in `b` and leave the
mutex locked. A stack is locked only as long as the engine is. -/
def Operation.MayLeaveLocked (op : Operation) (v : Raise) (threads : List ThreadId) (b : Engine) :
    Mutex → Prop
  | .engine =>
    match op with
    | ask (.alloc x _) | ask (.allocWeak x _ _) | ask (.commit x) | ask (.endFailed x) =>
      v.Fatal ∧ b.Active x ∧ (b.txn x).thread ∈ threads
    | leave .. => v.Fatal ∧ ∃ x, b.Active x ∧ (b.txn x).thread ∈ threads
    | ask (.begin _) | enter _ => v = .violation .engineClosed
    | _ => False
  | .bracket =>
    match op with
    | enter c => v = .violation .engineClosed ∧ b.foreign.lookup c = none
    | _ => False
  | .stack _ => True

/-- The operation is sure to leave the engine's mutex locked where it raises `v` in `b`: it was to
end a transaction that still runs, or to begin one in a closed engine. -/
def Operation.LeavesLocked (op : Operation) (v : Raise) (b : Engine) : Prop :=
  match op with
  | ask (.alloc x _) | ask (.commit x) | ask (.endFailed x) => b.Active x
  | ask (.begin _) => v = .violation .engineClosed
  | _ => False

section Exit
variable {v : Raise} {τ : Stance} {b : Engine} {threads : List ThreadId} {m : Mutex}

theorem Stuck.fatal_active {x : TxnId} (h : Stuck x v τ b)
    (acts : ∀ t, τ.Tracks b t → t ∈ threads) :
    v.Fatal ∧ b.Active x ∧ (b.txn x).thread ∈ threads :=
  ⟨h.fatal, h.active, acts _ h.tracks⟩

theorem Operation.Returns.bare (h : op.Returns τ b) (hm : m ∈ τ.held) : ∃ t, m = .stack t := by
  have bare : ∀ {pausing}, τ.Holding [] pausing → ∃ t, m = .stack t :=
    fun none => (none.only m hm).resolve_left (by simp)
  cases op with
  | pause | release => exact bare h.1
  | ask q =>
    cases q with
    | load | endFailed => exact bare h.1
    | _ => exact bare h
  | _ => exact bare h

theorem Operation.Raises.mayLeaveLocked (h : op.Raises v τ b)
    (acts : ∀ t, τ.Tracks b t → t ∈ threads)
    (hm : m ∈ τ.held) : op.MayLeaveLocked v threads b m := by
  have only : ∀ {base pausing}, τ.Holding base pausing →
      (∀ m' ∈ base, op.MayLeaveLocked v threads b m') → op.MayLeaveLocked v threads b m := by
    intro base pausing held keeps
    obtain here | ⟨t, rfl⟩ := held.only m hm
    · exact keeps m here
    · exact trivial
  have bare : ∀ {pausing}, τ.Holding [] pausing → op.MayLeaveLocked v threads b m :=
    fun none => only none (by simp)
  have engine : op.MayLeaveLocked v threads b .engine → τ.Holding [.engine] none →
      op.MayLeaveLocked v threads b m := fun keeps held =>
    only held (by simpa using keeps)
  cases op with
  | enter =>
    obtain none | ⟨closed, held | ⟨held, missing⟩⟩ := h
    · exact bare none
    · exact engine closed held
    · exact only held (by simpa using ⟨closed, missing⟩)
  | leave =>
    obtain none | ⟨x, stuck⟩ := h
    · exact bare none
    · exact engine ⟨stuck.fatal, x, (stuck.fatal_active acts).2⟩ stuck.holding
  | release => exact bare h.1
  | ask q =>
    cases q with
    | alloc | commit | endFailed =>
      obtain ⟨none, -⟩ | stuck := h
      · exact bare none
      · exact engine (stuck.fatal_active acts) stuck.holding
    | allocWeak =>
      obtain none | stuck := h
      · exact bare none
      · exact engine (stuck.fatal_active acts) stuck.holding
    | begin =>
      obtain ⟨closed, held⟩ | ⟨-, none⟩ := h
      · exact engine closed held
      · exact bare none
    | _ => exact bare h
  | _ => exact bare h

theorem Operation.MayLeaveLocked.fatal (h : op.MayLeaveLocked v threads b m)
    (other : ∀ t, m ≠ .stack t) : v.Fatal := by
  have closed : v = .violation .engineClosed → v.Fatal := by
    rintro rfl
    trivial
  cases m with
  | stack t => exact absurd rfl (other t)
  | bracket =>
    cases op with
    | enter => exact closed h.1
    | _ => exact h.elim
  | engine =>
    cases op with
    | enter => exact closed h
    | leave => exact h.1
    | ask q =>
      cases q with
      | begin => exact closed h
      | alloc | allocWeak | commit | endFailed => exact h.1
      | _ => exact h.elim
    | _ => exact h.elim

theorem Operation.Raises.leavesLocked (h : op.Raises v τ b) (leavesLocked : op.LeavesLocked v b) :
    .engine ∈ τ.held := by
  have mine : τ.Holding [.engine] none → .engine ∈ τ.held := fun held => held.all _ (.head _)
  cases op with
  | ask q =>
    cases q with
    | alloc | commit | endFailed =>
      obtain ⟨-, ended⟩ | stuck := h
      · exact absurd leavesLocked ended
      · exact mine stuck.holding
    | begin =>
      obtain ⟨-, held⟩ | ⟨other, -⟩ := h
      · exact mine held
      · exact absurd leavesLocked other
    | _ => exact leavesLocked.elim
  | _ => exact leavesLocked.elim

theorem Exit.Ok.mayLeaveLocked (ok : exit.Ok s) (hm : m ∈ exit.held) (other : ∀ t, m ≠ .stack t) :
    ∃ v, exit.outcome = .error v ∧ exit.op.MayLeaveLocked v exit.threads s.engine m := by
  obtain ⟨τ, ends, held, acts, -⟩ := ok.ends
  replace hm := (held m).1 hm
  cases out : exit.outcome with
  | ok =>
    rw [out] at ends
    obtain ⟨t, same⟩ := Operation.Returns.bare ends hm
    exact absurd same (other t)
  | error v =>
    rw [out] at ends
    exact ⟨v, rfl, Operation.Raises.mayLeaveLocked ends acts hm⟩

theorem Exit.Ok.leavesLocked (ok : exit.Ok s) (out : exit.outcome = .error v)
    (leavesLocked : exit.op.LeavesLocked v s.engine) : .engine ∈ exit.held := by
  obtain ⟨τ, ends, held, -, -⟩ := ok.ends
  rw [out] at ends
  exact (held _).2 (Operation.Raises.leavesLocked ends leavesLocked)

end Exit

/-- In the first `n` steps no misuse and no defect was met where the engine's mutex is held. -/
def System.Unbroken (a : Nat → System) (choice : Nat → Choice) (n : Nat) : Prop :=
  ∀ i < n, ∀ exit v, ((a i).step (choice i)).2 = some exit → exit.outcome = .error v → v.Fatal →
    .engine ∉ exit.held

variable {N n : Nat} {a : Nat → System} {choice : Nat → Choice}

theorem System.Run.unlocked (run : System.Run N a choice) (hn : n ≤ N)
    (unbroken : System.Unbroken a choice n) : .engine ∉ (a n).engine.locked := by
  intro locked
  have none : ∀ p ∈ (a n).tasks, .engine ∉ p.held :=
    fun p hp held => (((run.ok hn).tasks p hp).held _ held).2 rfl
  obtain ⟨i, hi, exit, ends, held⟩ := (run.leaked hn).1 ⟨locked, none⟩
  have ok : exit.Ok (a (i + 1)) := by
    rw [run.step i (hi.trans_le hn)]
    exact (run.steps (hi.trans_le hn)).exit exit ends
  obtain ⟨v, out, keeps⟩ := ok.mayLeaveLocked held (by rintro t ⟨⟩)
  exact unbroken i hi exit v ends out (keeps.fatal (by rintro t ⟨⟩)) held

/-- In every run, a call that ends with the mutex of the engine or of the brackets held has raised
out of the part that it guards, and those that raise with their transaction running do so. Between
steps, a mutex is locked where a call that waits holds it, never the engine's, or where one has
ended with it. -/
theorem mutexes_left_locked (run : System.Run N a choice) :
    (∀ n < N, ∀ exit, ((a n).step (choice n)).2 = some exit →
      (∀ m ∈ exit.held, m = .engine ∨ m = .bracket →
        ∃ v, exit.outcome = .error v ∧ exit.op.MayLeaveLocked v exit.threads (a (n + 1)).engine m) ∧
      ∀ v, exit.outcome = .error v → exit.op.LeavesLocked v (a (n + 1)).engine →
      .engine ∈ exit.held) ∧
    ∀ n ≤ N, (∀ p ∈ (a n).tasks, .engine ∉ p.held) ∧
    (∀ t, .stack t ∈ (a n).engine.locked → .engine ∈ (a n).engine.locked) ∧
      ∀ m, m ∈ (a n).engine.locked ↔ (∃ p ∈ (a n).tasks, m ∈ p.held) ∨
        ∃ i < n, ∃ exit, ((a i).step (choice i)).2 = some exit ∧ m ∈ exit.held := by
  refine ⟨fun n hn exit ends => ?_,
    fun n hn => ⟨fun p hp engine => ?_, (run.ok hn).inv.locks, fun m => ⟨fun locked => ?_, ?_⟩⟩⟩
  · have ok : exit.Ok (a (n + 1)) := by
      rw [run.step n hn]
      exact (run.steps hn).exit exit ends
    refine ⟨fun m hm which => ok.mayLeaveLocked hm ?_, fun v => ok.leavesLocked⟩
    rintro t rfl
    exact which.elim nofun nofun
  · exact (((run.ok hn).tasks p hp).held _ engine).2 rfl
  · by_cases held : ∃ p ∈ (a n).tasks, m ∈ p.held
    · exact .inl held
    · exact .inr ((run.leaked hn).1 ⟨locked, fun p hp hm => held ⟨p, hp, hm⟩⟩)
  · rintro (⟨p, hp, hm⟩ | left)
    · exact (((run.ok hn).tasks p hp).held m hm).1
    · exact ((run.leaked hn).2 left).1

def exhaustion : List Choice :=
  [.start (.ask .register), .start (.ask (.begin 0)), .start (.ask (.becomeInevitable 0 "io")),
    .start (.ask (.alloc 0 8192)), .start (.ask .register)]

theorem mutexes_left_locked_exhausted : ∃ a choice, System.Run 5 a choice ∧
    (a 5).tasks.map Task.wait? = [some (.mutex .engine)] ∧
    ∃ i < 5, ∃ exit v, ((a i).step (choice i)).2 = some exit ∧ .engine ∈ exit.held ∧
    exit.outcome = .error v ∧
      exit.op.MayLeaveLocked v exit.threads (a (i + 1)).engine .engine := by
  have run := System.run_enacts exhaustion (by decide +kernel) (by decide)
  obtain ⟨exits, states⟩ := mutexes_left_locked run
  obtain ⟨i, hi, exit, ends, held⟩ :=
    (((states 5 (Nat.le_refl 5)).2.2 .engine).1 (by decide +kernel)).resolve_left
    fun ⟨p, hp, hm⟩ => (states 5 (Nat.le_refl 5)).1 p hp hm
  obtain ⟨v, out, keeps⟩ := (exits i hi exit ends).1 .engine held (.inl rfl)
  exact ⟨_, _, run, by decide +kernel, i, hi, exit, v, ends, held, out, keeps⟩

open Engine TxHeap.Action

variable {x : TxnId} {e : Engine}

end TxHeap
