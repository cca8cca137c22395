import TxHeap.Proofs.Call.Outside
import TxHeap.Proofs.Sync.Quiet

/-! Calls that leave objects, threads and transactions alone: lasting pauses, looks at the engine
and its heap, and its closing. -/

namespace TxHeap
open Engine TxHeap.Action

variable {α β : Type} {who : Actor} {o : Doing} {x : TxnId} {t : ThreadId} {r : Ref} {e0 e : Engine}
  {Q : Engine → Post β}

theorem sound_beginPause (h : Amid who o [.engine] e0 e) (free : .engine ∉ e0.locked) (c : Caller)
    (mode : PauseMode)
    {f : Unit → EngineCall β} (refused : ∀ e1 v e2, Amid who o [.engine] e1 e2 → Q e1 (.error v) e2)
    (next : ∀ e1 e2, Amid who o [.engine] e1 e2 → .engine ∉ e1.locked → Sound who Q e1 (f () e2)) :
    Sound who Q e0 ((beginPause c mode >>= f) e) := by
  simp only [beginPause, bind_assoc]
  refine h.sound_park free c fun e1 e2 _ amid free1 => ?_
  rw [look_bind]
  split
  · exact refused e1 _ e2 amid
  · have paused : Lull e2 { e2 with pauser := some c, pauseMode := mode } :=
      ⟨{ Alike.refl _ with }, rfl⟩
    exact (amid.lull paused amid.locked).sound_await free1 c .othersStopped
      fun e3 e4 _ amid' free3 _ => next e3 e4 amid' free3

theorem sound_pause (inv : e.Inv) (mode : PauseMode) :
    Tame who e (withLock .engine (beginPause (.thread t) mode) e) := by
  refine (Amid.rest inv).sound_engine fun free amid => sound_unlocking ?_
  rw [← bind_pure (beginPause (.thread t) mode)]
  exact sound_beginPause amid free _ mode (fun _ _ _ amid => amid.unlock.stretch) fun _ _ amid _ =>
    amid.unlock.stretch

theorem sound_release (inv : e.Inv) :
    Tame who e (withLock .engine (liftM (endPause (.thread t))) e) := by
  refine (Amid.rest inv).sound_engine fun free amid => sound_unlocking ?_
  refine Sound.of_finishes (Course.Finishes.lift (ends_endPause (.thread t) (e.acquire .engine)))
    (fun _ e' same => ?_) fun v e' same => ?_
  · exact (amid.lull same.1 (same.2.trans amid.locked)).unlock.stretch
  · rw [same]
    exact amid.unlock.stretch

theorem sound_look {y : EngineM α} {f : α → EngineCall β} (looks : Looks Raise.Fatal y)
    (ok : ∀ a, Sound who Q e0 (f a e))
    (error : ∀ v, Q e0 (.error v) e) : Sound who Q e0 ((liftM y >>= f) e) := by
  have ends := looks.ends e
  unfold Ends at ends
  split at ends
  · next a e' run =>
    subst ends
    rw [lift_done run]
    exact ok a
  · next v e' run =>
    obtain ⟨-, rfl⟩ := ends
    rw [lift_bind_error run]
    exact error v

theorem sound_stats (inv : e.Inv) : Tame who e (stats e) := by
  exact (Amid.rest inv).sound_engine fun free amid => sound_unlocking amid.unlock.stretch

theorem sound_depth (inv : e.Inv) : Tame who e (depth t e) :=
  sound_ownStack inv (sound_unlocking (stretch_unlocked inv _))

theorem sound_close (inv : e.Inv) : Tame who e (close e) := by
  refine (Amid.rest inv).sound_engine fun free amid => sound_unlocking ?_
  rw [look_bind]
  split
  · rw [look_bind]
    split
    · exact amid.unlock.stretch
    · have closed : Lull (e.acquire .engine) { e.acquire .engine with closed := true } :=
        ⟨{ Alike.refl _ with }, rfl⟩
      have amid := amid.lull closed amid.locked
      dsimp only
      rw [Action.modify_bind, look_bind]
      split
      · exact (amid.lull (lull_setLog _ _) amid.locked).unlock.stretch
      · exact amid.unlock.stretch
  · exact amid.unlock.stretch

theorem sound_isWeak (inv : e.Inv) : Tame who e (isWeak x r e) := by
  have amid : Amid who .nothing [] e e := .rest inv
  refine sound_look (looks_check x) (fun _ => ?_) fun v => .refl inv
  rw [look_bind]
  split
  · exact .refl inv
  · refine amid.sound_engine fun free amid => ?_
    rw [look_bind, unlock_bind]
    exact amid.unlock.stretch

theorem sound_weakTarget (inv : e.Inv) (mine : who = e.actor x)
    (usable : e.Usable (e.txn x).thread r) :
    Tame who e (weakTarget x r e) := by
  refine sound_look (looks_check x)
    (fun _ => sound_look (looks_weakSlot x r) (fun w => ?_) fun v => .refl inv) fun v => .refl inv
  refine .bind ((sound_load inv mine usable).mono fun e1 out e2 h => ?_)
  cases out with
  | ok | error => exact h.1

theorem sound_checkHeap (inv : e.Inv) : Tame who e (checkHeap e) := by
  refine (Amid.rest inv).sound_engine fun free amid => sound_unlocking ?_
  refine sound_look looks_checkOpen (fun _ => ?_) fun v => amid.unlock.stretch
  refine sound_beginPause amid free _ _ (fun _ _ _ amid => amid.unlock.stretch)
    fun e1 e2 amid free1 => ?_
  have after : ∀ e3 e4, e3 = e2 → Lull e3 e4 ∧ e4.locked = e3.locked →
      Stretch who e1 (e4.giveUp .engine) := by
    rintro e3 e4 rfl ⟨lull, locked⟩
    exact (amid.lull lull (locked.trans amid.locked)).unlock.stretch
  refine sound_ending
    (Sound.of_finishes (Course.Finishes.lift ((looks_audit (E := Raise.Fatal)).ends e2)) ?_ ?_)
  · intro a e3 same
    exact .mono (ends_endPause .system e3) (fun _ e4 => after e3 e4 same) fun v e4 kept =>
      after e3 e4 same ⟨kept ▸ .refl _, by rw [kept]⟩
  · intro a e3 ⟨_, same⟩
    exact .mono (ends_endPause .system e3) (fun _ e4 => after e3 e4 same) fun v e4 kept =>
      after e3 e4 same ⟨kept ▸ .refl _, by rw [kept]⟩

end TxHeap
