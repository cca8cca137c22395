import TxHeap.Proofs.Call.Sound

/-! Calls that abort a transaction. The rollback ends the stretch; callbacks come after it, in
stretches of their own. -/

namespace TxHeap
open Engine TxHeap.Action

variable {held : List Mutex} {phase : Phase}

variable {α β : Type} {who : Actor} {x : TxnId} {e0 e e' : Engine}
  {Q : Engine → Post β}

namespace Engine

theorem ends_endPause (c : Caller) (e : Engine) :
    Ends (endPause c) e (fun _ e' => Lull e e' ∧ e'.locked = e.locked) fun _ e' => e' = e := by
  refine .get_bind ?_
  split
  · exact rfl
  · exact ⟨⟨{ Alike.refl _ with }, rfl⟩, rfl⟩

theorem Aborts.weakOk (h : Aborts x e e') (ok : e.Core)
    (weak : ∀ k, k ≠ (e.txn x).segment → e.WeakOk k) (k : SegmentId) : e'.WeakOk k := by
  by_cases hk : k = (e.txn x).segment
  · intro w hw
    rw [hk, h.leaves.own_weakrefs] at hw
    simp at hw
  · exact h.leaves.weakOk ok.life h.active (weak k hk)

/-- A stretch of `x` has come to `e` with the mutexes `held`; all is in order but for its segment's
weak references. -/
structure Torn (who : Actor) (x : TxnId) (held : List Mutex) (e0 e : Engine) : Prop where
  inv : e0.Inv
  mine : e0.Runs who x
  works : Works x e0 e
  drifts : .engine ∉ e0.locked → ∃ m, Feats who.Acts e0 m ∧ m.Core ∧ (∀ k, m.WeakOk k) ∧
    m.Active x ∧ Drifts x m e
  core : e.Core
  weak : .engine ∉ e0.locked → ∀ k, k ≠ (e.txn x).segment → e.WeakOk k
  locked : e.locked = held ++ e0.locked

theorem Amid.torn (h : Amid who (.work x) held e0 e) : Torn who x held e0 e where
  inv := h.inv
  mine := h.sofar.1
  works := h.sofar.2
  drifts free := ⟨e, h.feats free, h.core, h.weak free, h.runs.1, .start⟩
  core := h.core
  weak free k _ := h.weak free k
  locked := h.locked

theorem Amid.conflict (h : Amid who (.work x) held e0 e) {r : Ref} {kind : String}
    (counted : countConflict x r kind e = .ok () e') (alike : Alike e e')
    (locked : e'.locked = e.locked) :
    Torn who x held e0 e' where
  inv := h.inv
  mine := h.sofar.1
  works := h.sofar.2.trans alike.works
  drifts free := ⟨e, h.feats free, h.core, h.weak free, h.runs.1, .conflict r kind counted⟩
  core := h.core.alike alike
  weak free k _ := (h.weak free k).alike alike
  locked := locked.trans h.locked

theorem Torn.lull {held' : List Mutex} (h : Torn who x held e0 e) (same : Lull e e')
    (locked : e'.locked = held' ++ e0.locked) : Torn who x held' e0 e' where
  inv := h.inv
  mine := h.mine
  works := h.works.trans same.alike.works
  drifts free := by
    obtain ⟨m, feats, core, weak, active, drifts⟩ := h.drifts free
    exact ⟨m, feats, core, weak, active, drifts.lull same⟩
  core := h.core.alike same.alike
  weak free k hk := (h.weak free k (by rwa [same.alike.txn] at hk)).alike same.alike
  locked := locked

theorem Torn.feats {m b : Engine} (h : Torn who x held e0 m) (free : .engine ∉ e0.locked)
    (running : (m.txn x).phase = .running) (stack : .stack (m.txn x).thread ∉ m.locked)
    {cause : Error} {callbacks : List Callback} (run : discard x cause m = .done callbacks e')
    (aborts : Aborts x m b) (alike : Alike b e') : Feats who.Acts e0 (e'.giveUp .engine) := by
  obtain ⟨m', feats, core, weak, active, drifts⟩ := h.drifts free
  have rolled : Feats who.Acts e0 e' :=
    .step feats core weak (.abort drifts active h.core running stack cause run)
  exact .step rolled ((aborts.core h.core).alike alike)
    (fun k => (aborts.weakOk h.core (h.weak free) k).alike alike)
    (.lull (lull_giveUp e' .engine))

def Refusal (e : Engine) (x : TxnId) (cause : Error) : Raise :=
  .violation (.inevitableAbort (e.txn x).reason (some cause))

end Engine

theorem countConflict_spec (x : TxnId) (r : Ref) (kind : String) (e : Engine) :
    ∃ e', countConflict x r kind e = .ok () e' ∧ Alike e e' ∧ e'.locked = e.locked :=
  ⟨(e.setLog (·.contention (e.txn x).segment r.bits kind)).setCounters fun c =>
    { c with conflicts := c.conflicts + 1 },
    rfl, (alike_setLog e _).trans (alike_setCounters _ _), rfl⟩

theorem check_spec (e : Engine) (x : TxnId) : (check x e = .ok () e ∧ e.Active x) ∨
    ∃ r, check x e = .error r e := by
  by_cases running : (e.heldBy x && (e.txn x).phase.isActive) = true
  · refine .inl ⟨?_, (Bool.and_eq_true_iff.1 running).2⟩
    rw [check, get_bind, get_bind]
    simp only [running]
    rfl
  · refine .inr ⟨.violation (.noTransaction (e.txn x).phase), ?_⟩
    rw [check, get_bind, get_bind]
    simp only [running]
    rfl

theorem check_refused (hx : ¬ e.Active x) : ∃ r, check x e = .error r e :=
  (check_spec e x).resolve_left fun h => hx h.2

theorem check_ok (ok : e.LifeOk) (hx : e.Active x) : check x e = .ok () e := by
  have running : (e.heldBy x && (e.txn x).phase.isActive) = true := by
    rw [Bool.and_eq_true_iff, heldBy, ok.thread x hx]
    exact ⟨beq_self_eq_true _, hx⟩
  rw [check, get_bind, get_bind]
  simp only [running]
  rfl

section Stretches
variable {f : Unit → EngineCall β}

/-- Callbacks are called when the transaction has ended, and leave it so. The stretch is as if it
had just begun. -/
theorem sound_callAllFrom {P : Engine → Engine → Prop}
    (stretch : ∀ e1 e2, P e1 e2 → Stretch who e1 e2) (anew : ∀ e1, e1.Inv → P e1 e1) (here : P e0 e)
    (past : e.Ended x phase) (callbacks : List Callback)
    (raised : ∀ e1 v e2, Stretch who e1 e2 → e2.Ended x phase → Q e1 (.error v) e2)
    (next : ∀ e1 e2, P e1 e2 → e2.Ended x phase → Sound who Q e1 (f () e2)) :
    Sound who Q e0 ((callAll callbacks >>= f) e) := by
  induction callbacks generalizing e0 e with
  | nil => exact next e0 e here past
  | cons c rest ih =>
    refine ⟨stretch e0 e here, fun r e1 inv ages => ?_⟩
    cases r with
    | ok => exact ih (anew e1 inv) (ages.keeps past)
    | error v => exact raised e1 v e1 (.refl inv) (ages.keeps past)

theorem sound_callAll (stretch : Stretch who e0 e) (past : e.Ended x phase)
    (callbacks : List Callback)
    (raised : ∀ e1 v e2, Stretch who e1 e2 → e2.Ended x phase → Q e1 (.error v) e2)
    (next : ∀ e1 e2, Stretch who e1 e2 → e2.Ended x phase → Sound who Q e1 (f () e2)) :
    Sound who Q e0 ((callAll callbacks >>= f) e) :=
  sound_callAllFrom (fun _ _ h => h) (fun _ => .refl) stretch past callbacks raised next

theorem sound_discard (h : Torn who x [.engine] e0 e) (free : .engine ∉ e0.locked) (cause : Error)
    {f : List Callback → EngineCall β}
    (refused : (e0.txn x).phase = .inevitable → ∀ v, Stretch who e0 e → Q e0 (.error v) e)
    (next : ∀ callbacks e', Stretch who e0 (e'.giveUp .engine) → e'.Ended x .aborted →
      Sound who Q e0 (f callbacks e')) :
    Sound who Q e0 ((discard x cause >>= f) e) := by
  have hx := (h.works.active x).2 h.mine.1
  by_cases running : (e.txn x).phase = .running
  · have stack : .stack (e.txn x).thread ∉ e.locked := by
      rw [h.locked]
      intro taken
      obtain heq | taken := List.mem_cons.1 taken
      · cases heq
      · exact free (h.inv.locks _ taken)
    obtain ⟨callbacks, e', run, locked', -, b, aborts, alike⟩ :=
      discard_spec h.core hx stack running cause
    rw [bind_done run]
    have feats := h.feats free running stack run aborts alike
    refine next callbacks e' ?_ ?_
    · refine .of_deed h.inv (.refl e0) (.abort x e h.mine h.works h.core aborts)
        (aborts.core h.core)
        (fun _ => aborts.weakOk h.core (h.weak free)) (alike.trans (alike_giveUp e' .engine)) ?_
          fun _ => feats
      simp [giveUp, locked', h.locked]
    · refine ⟨?_, by rw [alike.txn, aborts.leaves.own.1], rfl⟩
      rw [alike.txns, aborts.leaves.txns_size]
      exact active_lt hx
  · have inevitable : (e.txn x).phase = .inevitable := by
      revert running hx
      rw [Active]
      cases (e.txn x).phase <;> simp [Phase.isActive]
    have raises : discard x cause e = .raised (e.Refusal x cause) e := by
      unfold discard
      rw [look_bind]
      simp only [inevitable]
      rfl
    rw [bind_run, raises]
    refine refused (h.works.own.phase.symm.trans inevitable) _
      (Sofar.stuck (o := .work x) ⟨h.mine, h.works⟩ h.core h.locked ?_)
    rw [h.locked]
    exact .head _

section
variable (h : Torn who x [] e0 e) (cause : Error) (stuck : .engine ∈ e0.locked → Stretch who e0 e)
  (refused : (e0.txn x).phase = .inevitable → ∀ v e', Stretch who e0 e' → Q e0 (.error v) e')
include h stuck refused

theorem sound_rollBack
    (raised : ∀ e1 v e2, Stretch who e1 e2 → e2.Ended x .aborted → Q e1 (.error v) e2)
    (next : ∀ e1 e2, Stretch who e1 e2 → e2.Ended x .aborted → Sound who Q e1 (f () e2)) :
    Sound who Q e0 ((rollBack x cause >>= f) e) := by
  unfold rollBack
  simp only [bind_assoc]
  have same : e.locked = e0.locked := h.locked
  refine sound_lock (fun taken => stuck (same ▸ taken)) id fun free => ?_
  have held : (e.acquire .engine).locked = [.engine] ++ e0.locked := by rw [← same]; rfl
  refine sound_discard (h.lull (lull_acquire e .engine) held) (same ▸ free) cause
    (fun inevitable v => refused inevitable v _) fun callbacks e' stretch past => ?_
  rw [unlock_bind]
  exact sound_callAll stretch ((alike_giveUp e' .engine).ages.keeps past) callbacks raised next

theorem sound_abortWith
    (raised : ∀ e1 v e2, Stretch who e1 e2 → e2.Ended x .aborted → Q e1 (.error v) e2) :
    Sound who Q e0 ((abortWith x cause) e) :=
  sound_rollBack h cause stuck refused raised fun e1 e2 => raised e1 _ e2

end

theorem sound_conflictOn {Q : Engine → Post α} (h : Amid who (.work x) [] e0 e) (r : Ref)
    (kind : String) (running : (e0.txn x).phase ≠ .inevitable)
    (raised : ∀ e1 v e2, Stretch who e1 e2 → e2.Ended x .aborted → Q e1 (.error v) e2) :
    Sound who Q e0 ((conflictOn x r kind) e) := by
  obtain ⟨e', counted, alike, locked⟩ := countConflict_spec x r kind e
  rw [conflictOn, lift_done counted]
  have torn := h.conflict counted alike locked
  refine sound_abortWith torn .conflict (fun held => ?_)
    (fun inevitable => absurd inevitable running) raised
  refine Sofar.stuck (o := .work x) ⟨torn.mine, torn.works⟩ torn.core torn.locked ?_
  rwa [torn.locked]

theorem sound_abort (inv : e.Inv) (mine : who = e.actor x) : Tame who e (abort x e) := by
  unfold abort
  obtain ⟨checked, hx⟩ | ⟨v, refused⟩ := check_spec e x
  · rw [lift_done checked, look_bind]
    split
    · exact .refl inv
    · have amid : Amid who (.work x) [] e e := .work inv ⟨hx, mine⟩
      have rolled := sound_rollBack (f := pure) amid.torn .abortRequested (fun _ => amid.stretch)
        (Q := fun e _ e' => Stretch who e e') (fun _ _ _ stretch => stretch)
          (fun _ _ _ stretch _ => stretch)
        fun _ _ stretch _ => stretch
      rwa [bind_pure] at rolled
  · rw [lift_bind_error refused]
    exact .refl inv

end Stretches
end TxHeap
