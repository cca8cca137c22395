import TxHeap.Proofs.Machine.Stepping

/-! A pause that outlasts its call. Until it is released other threads get no further than to a
wait, and none of them runs. -/

namespace TxHeap
open Engine

variable {exit : Exit}

section Halt
variable {σ σ' : Stance} {e e' : Engine} {w : Wait} {who : Caller} {mode : PauseMode} {z : Sleeper}

theorem Rests.stopped (h : Rests σ e w σ' e') (seats : e.Seats) (stopped : e.Stopped who mode) :
    e'.Stopped who mode := by
  obtain ⟨-, pauser, pauseMode⟩ := h.keeps
  refine ⟨pauser.trans stopped.pauser, pauseMode.trans stopped.pauseMode,
    othersStopped_iff.2 fun k t owner => ?_⟩
  have before := othersStopped_iff.1 stopped.others
  obtain ⟨m, -, -, -, rfl, -⟩ | ⟨z, hz, sleeps, rested⟩ := h.cases
  · exact before k t owner
  · rw [rested] at owner ⊢
    by_cases own : z.segment = some k
    · rw [own, seats.rest_own (own.symm.trans sleeps.segment)]
      exact .inr nofun
    · rw [seats.rest_other sleeps.segment own] at owner ⊢
      exact before k t owner

theorem Wait.reparks (hz : w.sleeper? = some z) (paused : e.pausedFor z.who = true) :
    ∃ b w' z', w.wake e = (b, some w') ∧ w'.condition = .released ∧ w'.sleeper? = some z' ∧
    z'.who = z.who ∧
      (z'.ticket, .released) ∈ b.asleep := by
  have paused : (e.acquire .engine).pausedFor z.who = true := paused
  have slept : ∀ (d : Engine) who k, ((d.rest who k .released).2.ticket, .released) ∈
      (d.rest who k .released).1.asleep := by
    intro d who k
    rw [rest_asleep]
    refine List.mem_append_right _ (List.mem_singleton.2 ?_)
    cases k <;> rfl
  have own : ∀ (d : Engine) who k, (d.rest who k .released).2.who = who :=
    fun d who k => by cases k <;> rfl
  cases w with
  | mutex | backoff => cases hz
  | pause y =>
    obtain rfl := Option.some.inj hz
    refine ⟨_, .pause _, _, ?_, rfl, rfl, own _ y.who y.segment,
      slept (e.acquire .engine) y.who y.segment⟩
    simp only [wake, stayPaused, paused, if_true, Option.map_some]
  | goal g y =>
    obtain rfl := Option.some.inj hz
    let d := (e.acquire .engine).note .waitSyncPause y.segment [("mode", .text e.pauseMode.toText)]
    refine ⟨_, .pauseInGoal g _, _, ?_, rfl, rfl, own d y.who y.segment, slept d y.who y.segment⟩
    simp only [wake, enterPause, paused, if_true]
    rfl
  | pauseInGoal g y =>
    obtain rfl := Option.some.inj hz
    refine ⟨_, .pauseInGoal g _, _, ?_, rfl, rfl, own _ y.who y.segment,
      slept (e.acquire .engine) y.who y.segment⟩
    simp only [wake, stayPaused, paused, if_true]

end Halt

namespace System
variable {s : System} {others : List Task} {p : Task} {σ : Stance} {t : ThreadId} {mode : PauseMode}
  {choice : Choice}

structure Paused (s : System) (t : ThreadId) (mode : PauseMode) : Prop where
  stopped : s.engine.Stopped (.thread t) mode
  known : t < s.engine.threads.size
  unasked : ∀ q ∈ s.tasks, q.pausing = none

theorem Paused.of_exit {r : System} (ok : exit.Ok r) (op : exit.op = .pause t mode)
    (returned : ∃ a, exit.outcome = .ok a) : r.Paused t mode := by
  obtain ⟨τ, ends, -, -, unasked⟩ := ok.ends
  obtain ⟨a, out⟩ := returned
  rw [out] at ends
  replace ends : exit.op.Returns τ r.engine := ends
  rw [op] at ends
  obtain ⟨holding, stopped, tracks⟩ := ends
  exact ⟨stopped, tracks.known, unasked (by rw [holding.pausing]; exact nofun)⟩

section
variable (moves : s.Moves others p σ)
include moves

theorem Moves.halted (seats : s.engine.Seats) (paused : s.Paused t mode) (other : t ∉ p.threads) :
    σ.Halted s.engine := by
  intro who mine going
  have apart : .thread t ≠ who := by
    rintro rfl
    exact moves.other paused.known other mine
  obtain free | ⟨k, held, running⟩ := going
  · rw [pausedFor_of_ne paused.stopped.pauser apart] at free
    cases free
  · obtain ⟨u, rfl, seat⟩ := segmentOf_some held
    obtain same | rests := othersStopped_iff.1 paused.stopped.others k u (seats.holds u k seat)
    · exact apart same.symm
    · exact rests running

theorem Moves.paused (ok : s.Ok) (paused : s.Paused t mode) (idle : σ.pausing = none) :
    (System.advance s.engine others p).1.Paused t mode := by
  have lands := moves.lands
  have ages := (moves.advance ok).ages
  have known := paused.known.trans_le ages.threads_size
  have unasked : ∀ q ∈ others, q.pausing = none := fun q hq => paused.unasked q (moves.sub q hq)
  obtain ⟨op, threads, held, course⟩ := p
  cases course with
  | done | raised =>
    obtain ⟨σ', acts, -, -⟩ := lands
    exact ⟨acts.stopped ok.seats idle paused.stopped, known, unasked⟩
  | waiting =>
    obtain ⟨σ1, e1, σ', acts, rests, -⟩ := lands
    refine ⟨rests.stopped (acts.seats ok.seats)
      (acts.stopped ok.seats idle paused.stopped), known, ?_⟩
    refine List.forall_mem_cons.2 ⟨?_, unasked⟩
    exact rests.pausing.2.symm.trans
      (rests.pausing.1.trans (acts.stays idle paused.stopped.pauser).1)
  | calling =>
    obtain ⟨σ', acts, -, -⟩ := lands
    exact ⟨acts.stopped ok.seats idle paused.stopped, known, List.forall_mem_cons.2 ⟨rfl, unasked⟩⟩

theorem Moves.sameButStacks (halted : σ.Halted s.engine) :
    SameButStacks s.engine (System.advance s.engine others p).1.engine := by
  have lands := moves.lands
  obtain ⟨op, threads, held, course⟩ := p
  cases course with
  | done | raised | calling =>
    obtain ⟨σ', acts, -, -⟩ := lands
    exact (acts.sameButStacks halted).1
  | waiting =>
    obtain ⟨σ1, e1, σ', acts, rests, -⟩ := lands
    exact (acts.sameButStacks halted).1.trans rests.alike.sameButStacks

theorem Moves.unread (halted : σ.Halted s.engine) {x : TxnId} {r : Ref} {w : Int}
    (ends : (System.advance s.engine others p).2 = some exit) (op : exit.op = .ask (.load x r w)) :
    ¬ ∃ a, exit.outcome = .ok a := by
  have lands := moves.lands
  obtain ⟨o, threads, held, course⟩ := p
  cases course with
  | waiting | calling => cases ends
  | raised =>
    cases ends
    rintro ⟨a, ⟨⟩⟩
  | done a e' =>
    cases ends
    obtain ⟨σ', acts, up, post⟩ := lands
    replace op : o = .ask (.load x r w) := op
    replace post : o.Returns σ' e' := post
    rw [op] at post
    obtain ⟨-, engaged⟩ := post
    have halted := (acts.sameButStacks halted).2
    refine absurd (.inr ⟨_, engaged.segment, ?_⟩)
      (halted (.thread (e'.txn x).thread) engaged.tracks.mine)
    exact up _ _ engaged.tracks.mine engaged.segment

end

theorem advance_release {e : Engine} (free : .engine ∉ e.locked) (t : ThreadId) :
    ∃ exit, (System.advance e others ⟨.release t, [t], [], (Operation.release t).call e⟩).2 =
    some exit ∧ exit.op = .release t := by
  have finishes : ((Operation.release t).call e).Finishes (fun _ _ => True) fun _ _ => True := by
    change (withLock .engine (liftM (endPause (.thread t))) e).Finishes _ _
    unfold withLock
    rw [Action.bind_done (lock_free free)]
    refine .ending (.lift ?_)
    unfold Ends
    split <;> exact trivial
  generalize (Operation.release t).call e = c at finishes
  cases c with
  | done | raised => exact ⟨_, rfl, rfl⟩
  | waiting | calling => exact finishes.elim

theorem Moves.idle (moves : s.Moves others p σ) (paused : s.Paused t mode)
    (unreleased : ∀ exit, (System.advance s.engine others p).2 = some exit → exit.op ≠ .release t) :
    σ.pausing = none := by
  refine Option.eq_none_iff_forall_ne_some.2 fun who asks => ?_
  have pauser := moves.pauses who asks
  obtain ⟨q, hq, asks⟩ | ⟨free, u, rfl, rfl⟩ := moves.asks who asks
  · rw [paused.unasked q hq] at asks
    cases asks
  · obtain ⟨exit, ends, op⟩ := advance_release free u
    have same : u = t := Caller.thread.inj
      (Option.some.inj (pauser.symm.trans paused.stopped.pauser))
    exact unreleased exit ends (same ▸ op)

theorem Ok.reparks (ok : s.Ok) (paused : s.Paused t mode) {i : Nat} {w : Wait} {z : Sleeper}
    (here : s.tasks[i]? = some p) (other : t ∉ p.threads) (waits : p.wait? = some w)
    (hz : w.sleeper? = some z) (ready : w.ready s.engine = true) :
    ∃ q w' z', (s.step (.wake i)).1.tasks = q :: s.tasks.eraseIdx i ∧ q.op = p.op ∧
    q.wait? = some w' ∧
      w'.condition = .released ∧ w'.sleeper? = some z' ∧ z'.who = z.who ∧
      (z'.ticket, .released) ∈ (s.step (.wake i)).1.engine.asleep := by
  have sits : Sits p.threads w z s.engine := by
    obtain ⟨w1, hw1, sits⟩ :=
      (ok.tasks p (List.mem_of_getElem? here)).sits (by rwa [Task.sleeper?, waits])
    rwa [Option.some.inj (waits.symm.trans hw1)]
  have apart : .thread t ≠ z.who := fun same => other (sits.own t same.symm)
  obtain ⟨b, w', z', run, released, hz', who, asleep⟩ :=
    Wait.reparks hz (pausedFor_of_ne paused.stopped.pauser apart)
  obtain ⟨op, threads, held, course⟩ := p
  cases course with
  | done | raised | calling => cases waits
  | waiting w1 e1 resume =>
    obtain rfl := Option.some.inj waits
    have woken : Machine.woken w1 resume s.engine = .waiting w' b resume := by
      unfold Machine.woken
      rw [run]
    have step : s.step (.wake i) = advance s.engine (s.tasks.eraseIdx i)
        ⟨op, threads, held, .waiting w' b resume⟩ := by
      unfold System.step mover?
      simp only [here, ready, if_true, woken]
    rw [step]
    exact ⟨_, w', z', rfl, rfl, rfl, released, hz', who, asleep⟩

end System

section Run
variable {N n k : Nat} {a : Nat → System} {choice : Nat → Choice} {t : ThreadId} {mode : PauseMode}

theorem System.Paused.step {s : System} {choice : Choice} (paused : s.Paused t mode) (ok : s.Ok)
    (roomy : s.engine.Roomy) (allowed : s.Allows choice)
    (unreleased : ∀ exit, (s.step choice).2 = some exit → exit.op ≠ .release t) :
    (s.step choice).1.Paused t mode := by
  unfold System.step at unreleased ⊢
  cases h : s.mover? choice with
  | none => exact paused
  | some =>
    obtain ⟨σ, moves⟩ := ok.moves roomy allowed h
    rw [h] at unreleased
    exact moves.paused ok paused (moves.idle paused unreleased)

theorem System.Run.paused (run : System.Run N a choice) (hn : n < N)
    (ends : ((a n).step (choice n)).2 = some exit) (op : exit.op = .pause t mode)
    (returned : ∃ r, exit.outcome = .ok r) (hnk : n < k) (hk : k ≤ N)
    (unreleased : ∀ j, n < j → j < k → ∀ exit, ((a j).step (choice j)).2 = some exit →
      exit.op ≠ .release t) :
    (a k).Paused t mode := by
  induction k, hnk using Nat.le_induction with
  | base =>
    rw [run.step n hn]
    exact .of_exit ((run.steps hn).exit exit ends) op returned
  | succ k hnk ih =>
    have paused := ih (Nat.le_of_succ_le hk) fun j hj hjk => unreleased j hj (Nat.lt_succ_of_lt hjk)
    rw [run.step k hk]
    exact paused.step (run.ok (Nat.le_of_succ_le hk)) (run.roomy hk) (run.allowed k hk)
      (unreleased k hnk (Nat.lt_succ_self k))

/-- From when a call that pauses the others for thread `t` returns until one that releases the pause
ends, the pause stays that of `t`, and no other segment is running. No call that does not act for
`t` changes anything a transaction or a collection depends on, or reads a word, and whoever of them
is woken sleeps again until the pause is over. -/
theorem paused_until_released (run : System.Run N a choice) (hn : n < N) {exit : Exit}
    (ends : ((a n).step (choice n)).2 = some exit) (op : exit.op = .pause t mode)
    (returned : ∃ r, exit.outcome = .ok r) (hnk : n < k) (hk : k ≤ N)
    (unreleased : ∀ j, n < j → j < k → ∀ exit, ((a j).step (choice j)).2 = some exit →
      exit.op ≠ .release t) :
    (a k).engine.pauser = some (.thread t) ∧ (a k).engine.pauseMode = mode ∧
    (∀ i u, ((a k).engine.segment i).owner = some u → u ≠ t →
      ((a k).engine.segment i).standing ≠ .running) ∧
    (k < N → ∀ others p, (a k).mover? (choice k) = some (others, p) → t ∉ p.threads →
      SameButStacks (a k).engine (a (k + 1)).engine ∧
      (∀ exit x r w, ((a k).step (choice k)).2 = some exit → exit.op = .ask (.load x r w) →
        ¬ ∃ v, exit.outcome = .ok v)) ∧
    (k < N → ∀ i p w z, choice k = .wake i → (a k).tasks[i]? = some p → t ∉ p.threads →
      p.wait? = some w → w.sleeper? = some z →
      w.ready (a k).engine = true → ∃ q w' z', (a (k + 1)).tasks = q :: (a k).tasks.eraseIdx i ∧
      q.op = p.op ∧
        q.wait? = some w' ∧ w'.condition = .released ∧ w'.sleeper? = some z' ∧ z'.who = z.who ∧
        (z'.ticket, .released) ∈ (a (k + 1)).engine.asleep) := by
  have paused := run.paused hn ends op returned hnk hk unreleased
  have ok := run.ok hk
  refine ⟨paused.stopped.pauser, paused.stopped.pauseMode, fun i u owner other running => ?_,
    fun hk others p moving other => ?_,
    fun hk i p w z chosen here other waits hz ready => ?_⟩
  · obtain same | rests := othersStopped_iff.1 paused.stopped.others i u owner
    · exact other (Caller.thread.inj same)
    · exact rests running
  · obtain ⟨σ, moves⟩ := ok.moves (run.roomy hk) (run.allowed k hk) moving
    have halted := moves.halted ok.seats paused other
    have step : (a k).step (choice k) = System.advance (a k).engine others p := by
      unfold System.step
      rw [moving]
    rw [run.step k hk, step]
    exact ⟨moves.sameButStacks halted, fun exit x r w ends op => moves.unread halted ends op⟩
  · rw [run.step k hk, chosen]
    exact ok.reparks paused here other waits hz ready

end Run

/-- One thread pauses another, which has a transaction, while a third is to be registered. -/
def meeting : List Choice :=
  [.start (.ask .register), .start (.ask .register), .start (.ask (.begin 0)),
    .start (.pause 1 .unique), .start (.ask (.safePoint 0)), .wake 1, .start (.ask .register),
    .start (.release 1)]

theorem paused_until_released_meeting :
    ∃ a choice, System.Run 8 a choice ∧ (a 6).engine.pauser = some (.thread 1) ∧
    ((a 6).engine.segment 0).owner = some 0 ∧ ((a 6).engine.segment 0).standing ≠ .running ∧
    SameButStacks (a 6).engine (a 7).engine ∧ (a 8).engine.pauser = none := by
  have run := System.run_enacts meeting (by decide +kernel) (by decide)
  have granted : ((System.enacts meeting 5).step (meeting.getD 5 (.wake 0))).2 =
      some ⟨.pause 1 .unique, [1], [], .ok ()⟩ := by
    with_unfolding_all rfl
  obtain ⟨pauser, -, stopped, others, -⟩ :=
    paused_until_released run (by decide) granted rfl ⟨(), rfl⟩
    (by decide) (by decide) fun j hj hjk => absurd hj (Nat.not_lt.2 (Nat.le_of_lt_succ hjk))
  have owner : ((System.enacts meeting 6).engine.segment 0).owner = some 0 := by decide +kernel
  exact ⟨_, _, run, pauser, owner, stopped 0 0 owner (by decide),
    (others (by decide) _ _ rfl nofun).1,
    by decide +kernel⟩

end TxHeap
