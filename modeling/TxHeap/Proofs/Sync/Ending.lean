import TxHeap.Proofs.Call.Outside
import TxHeap.Proofs.Sync.Walks

/-! How transactions end, act by act, and calls outside of them. With the engine's mutex held a
transaction is rolled back or published, and its segment is let go. If that fails, it goes on
running and the call ends with the mutex held. -/

namespace TxHeap
open Engine TxHeap.Action

variable {y : EngineM Unit} {phase : Phase} {m : Mutex}

namespace Stance
variable {σ : Stance} {base : List Mutex} {p : Option Caller} {e : Engine}

structure Holding (σ : Stance) (base : List Mutex) (p : Option Caller) : Prop where
  all : ∀ m ∈ base, m ∈ σ.held
  only : ∀ m ∈ σ.held, m ∈ base ∨ ∃ t, m = .stack t
  calm : σ.seeking = false
  pausing : σ.pausing = p

theorem Outside.holding (h : σ.Outside base e) : σ.Holding base none where
  all m hm := by rwa [h.held]
  only m hm := .inl (by rw [h.held] at hm; exact hm)
  calm := h.calm
  pausing := h.idle

theorem Inside.holding (h : σ.Inside base p e) : σ.Holding (.engine :: base) p where
  all m hm := by rwa [h.held]
  only m hm := .inl (by rw [h.held] at hm; exact hm)
  calm := h.calm
  pausing := h.pausing

theorem Holding.drop (h : σ.Holding (.engine :: base) p) (nodup : σ.held.Nodup)
    (apart : .engine ∉ base) :
    (σ.drop .engine).Holding base p where
  all m hm := nodup.mem_erase_iff.2 ⟨fun heq => apart (heq ▸ hm), h.all m (.tail _ hm)⟩
  only m hm := by
    obtain ⟨ne, hm⟩ := nodup.mem_erase_iff.1 hm
    refine (h.only m hm).imp (fun hm => ?_) id
    exact (List.mem_cons.1 hm).resolve_left ne
  calm := h.calm
  pausing := h.pausing

end Stance

namespace Engine
variable {σ σ' : Stance} {x : TxnId} {e e' : Engine} {t : ThreadId} {k : SegmentId}

structure Engaged (σ : Stance) (x : TxnId) (e : Engine) : Prop where
  tracks : σ.Tracks e (e.txn x).thread
  txn : (e.thread (e.txn x).thread).txn = some x
  segment : (e.thread (e.txn x).thread).segment = some (e.txn x).segment
  active : e.Active x

theorem engaged_of_life (ok : e.LifeOk) (hx : e.Active x) (own : σ.Tracks e (e.txn x).thread) :
    Engaged σ x e :=
  ⟨own, ok.thread x hx, (ok.txn _ x (ok.thread x hx)).2.2.1, hx⟩

section
variable (h : Engaged σ x e)
include h

theorem Engaged.silent (silent : Silent e e') : Engaged σ x e' where
  tracks := by
    rw [(silent.txn x).1]
    exact h.tracks.congr rfl rfl silent.threads_size.symm.le
  txn := by rw [(silent.txn x).1, (silent.life _).1]; exact h.txn
  segment := by rw [(silent.txn x).1, (silent.txn x).2.1, silent.thread]; exact h.segment
  active := by rw [Active, (silent.txn x).2.2]; exact h.active

theorem Engaged.since (since : Since σ e σ' e') : Engaged σ' x e' := by
  have blanks := since.txn _ x h.tracks h.txn
  have thread := since.thread _ h.tracks
  refine ⟨?_, ?_, ?_, ?_⟩
  · rw [blanks.keeps.thread]
    exact since.tracks _ h.tracks
  · rw [blanks.keeps.thread, thread]
    exact h.txn
  · rw [blanks.keeps.thread, blanks.keeps.segment, thread]
    exact h.segment
  · rw [Active, blanks.keeps.phase]
    exact h.active

theorem Engaged.going (up : σ.Up e) : e.Going (.thread (e.txn x).thread) :=
  .inr ⟨_, h.segment, up _ _ h.tracks.mine h.segment⟩

theorem Engaged.mine : σ.Mine (.thread (e.txn x).thread) := h.tracks.mine

theorem Engaged.lt : x < e.txns.size := active_lt h.active

end

theorem still_setThread (t : ThreadId) {g : Thread → Thread}
    (keeps : ∀ th, (g th).segment = th.segment) :
    Still e (e.setThread t g) ∧ Tidy σ e (e.setThread t g) := by
  refine ⟨⟨rfl, rfl, rfl, rfl, rfl, rfl, rfl, fun _ => ⟨rfl, rfl⟩, fun u => ?_⟩,
    tidy_of_eq (by simp) rfl rfl⟩
  rw [thread_setThread]
  split
  · next h =>
    rw [← h.1]
    exact keeps _
  · rfl

theorem still_setTxn (hx : e.Active x) (f : Txn → Txn) :
    Still e (e.setTxn x f) ∧ Tidy σ e (e.setTxn x f) := by
  refine ⟨{ Still.refl _ with }, le_rfl, fun _ _ => rfl,
    fun c g hg => .inl ⟨g, hg, rfl⟩, fun y hy ended => ⟨by simpa using hy, ?_⟩⟩
  rw [txn_setTxn, if_neg]
  rintro ⟨rfl, -⟩
  rw [Active, ended] at hx
  cases hx

theorem acts_finish (fits : σ.Fits e) (h : Engaged σ x e) (phase : Phase) :
    Acts σ e σ (e.finished x (e.txn x).thread (e.txn x).segment phase) := by
  let ended := (e.setTxn x fun tx => { tx with phase }).setThread (e.txn x).thread fun th =>
    { th with last := phase, txn := none }
  let cleared := ended.setTxn x fun tx =>
    { tx with reads := [], writes := #[], created := #[], stackAtBegin := #[] }
  have record : Still e (e.setTxn x _) ∧ Tidy σ e (e.setTxn x _) :=
    still_setTxn h.active fun tx => { tx with phase }
  have thread : Still (e.setTxn x _) ended ∧ Tidy σ (e.setTxn x _) ended :=
    still_setThread _ fun _ => rfl
  have still := record.1.trans thread.1
  have clears : Silent ended cleared := silent_setTxn x fun _ => ⟨rfl, rfl, rfl⟩
  have work : Acts σ e σ cleared :=
    .single (.work _ h.mine (h.going fits.up) (still.trans clears.toStill)
    ((record.2.trans thread.2).trans clears.tidy))
  have fits' := work.fits fits
  have known : (e.txn x).thread < cleared.threads.size := by
    have := seat_lt h.segment
    simpa [cleared, ended] using this
  have seat := (still.thread _).trans h.segment
  exact work.step (.leave _ _ h.tracks.mine known seat (fits'.seats.segment_lt seat)
    (.inr ⟨_, seat, fits'.up _ _ h.tracks.mine seat⟩))

theorem acts_stack (σ : Stance) (e : Engine) (t : ThreadId) (f : Array Ref → Array Ref) :
    Acts σ e σ (e.setThread t fun th => { th with stack := f th.stack }) := by
  have silent : Silent e (e.setThread t fun th => { th with stack := f th.stack }) :=
    silent_setThread t fun _ => ⟨rfl, rfl, rfl⟩
  refine .single (.idle silent.toStill
    ⟨rfl, rfl, rfl, rfl, rfl, rfl, by simp, fun u => ?_, rfl, fun _ => .refl _⟩ silent.tidy)
  rw [thread_setThread]
  split
  · next h => rw [h.1]
  · rfl

structure Serving (σ : Stance) (base : List Mutex) (x : TxnId) (e : Engine) : Prop where
  inside : σ.Inside base none e
  engaged : Engaged σ x e

end Engine

section Discard
variable {α β : Type} {σ : Stance} {base : List Mutex} {x : TxnId} {e : Engine} {t : ThreadId}
  {P : Stance → Post β}

structure Notes (y : EngineM Unit) : Prop where
  run : ∀ e, ∃ e', y e = .ok () e' ∧ Silent e e' ∧ Alike e e'

theorem notes_log (f : Event.Log → Event.Log) : Notes (updateLog f) :=
  ⟨fun e => ⟨_, rfl, { Silent.refl _ with }, alike_setLog e f⟩⟩

theorem notes_logInfo (kind : Event.Kind) (k : Int) (fields : List (String × Event.Value)) :
    Notes (logInfo kind k fields) := notes_log _

theorem notes_counters (f : Counters → Counters) : Notes (updateCounters f) :=
  ⟨fun e => ⟨_, rfl, { Silent.refl _ with }, alike_setCounters e f⟩⟩

theorem notes_countConflict (x : TxnId) (r : Ref) (kind : String) :
    Notes (countConflict x r kind) := by
  refine ⟨fun e => ?_⟩
  obtain ⟨e', run, alike, -⟩ := countConflict_spec x r kind e
  have ends := (quiet_countConflict x r kind).ends e
  rw [Ends, run] at ends
  exact ⟨e', run, ends, alike⟩

theorem walks_note {f : Unit → EngineCall β} (notes : Notes y)
    (next : ∀ e', Silent e e' → Alike e e' → Acts σ e σ e' → Walks P σ e' (f () e')) :
    Walks P σ e ((liftM y >>= f) e) := by
  obtain ⟨e', run, silent, alike⟩ := notes.run e
  have acts : Acts σ e σ e' := .single (.idle silent.toStill alike.sameButStacks silent.tidy)
  rw [lift_done run]
  exact .prepend acts (next e' silent alike acts)

theorem walks_lastNote {P : Stance → Post Unit} (notes : Notes y)
    (next : ∀ e', Silent e e' → Acts σ e σ e' → P σ (.ok ()) e') :
    Walks P σ e ((liftM y : EngineCall Unit) e) := by
  rw [← bind_pure (liftM y : EngineCall Unit)]
  exact walks_note notes fun e' silent _ acts => .ok (next e' silent acts)

theorem Engine.Serving.work (h : Serving σ base x e) {y : EngineM α} {f : α → EngineCall β}
    (quiet : Quiet y) (ok : ∀ a e', Silent e e' → Serving σ base x e' → Walks P σ e' (f a e'))
    (error : ∀ v e', v.Fatal → Serving σ base x e' → P σ (.error v) e') :
    Walks P σ e ((liftM y >>= f) e) := by
  refine walks_work h.engaged.mine (h.engaged.going h.inside.fits.up) quiet
    (fun a e' _ silent acts => ?_)
    fun v e' fatal silent acts => ?_
  · exact ok a e' silent ⟨h.inside.acts acts silent.locked, h.engaged.silent silent⟩
  · exact error v e' fatal ⟨h.inside.acts acts silent.locked, h.engaged.silent silent⟩

theorem Engine.ended_finished (h : Engaged σ x e) (past : phase.isActive = false) (t : ThreadId)
    (k : SegmentId) :
    (e.finished x t k phase).Ended x phase := by
  refine ⟨?_, ?_, past⟩
  · simpa [finished] using h.lt
  · rw [own_txn_finished h.lt]

def Discarded (σ : Stance) (base : List Mutex) (x : TxnId) (τ : Stance)
    (out : Except Raise (List Callback)) (e : Engine) :
    Prop :=
  τ = σ ∧ match out with
    | .ok _ => σ.Inside base none e ∧ e.Ended x .aborted
    | .error v => v.Fatal ∧ Serving σ base x e

theorem walks_discard (h : Serving σ base x e) (cause : Error) :
    Walks (Discarded σ base x) σ e (discard x cause e) := by
  have fails : ∀ (v : Raise) e', v.Fatal → Serving σ base x e' →
      Discarded σ base x σ (.error v) e' :=
    fun _ _ fatal h' => ⟨rfl, fatal, h'⟩
  unfold discard
  rw [look_bind]
  split
  · exact .error ⟨rfl, trivial, h⟩
  dsimp only
  rw [look_bind, look_bind, look_bind]
  refine h.work (quiet_freeAll _) (fun _ e1 silent1 h1 => ?_) fails
  refine h1.work (quiet_resetNursery _) (fun _ e2 silent2 h2 => ?_) fails
  refine h2.work (.segment _ fun _ => ⟨rfl, rfl⟩) (fun _ e3 silent3 h3 => ?_) fails
  have silent := (silent1.trans silent2).trans silent3
  rw [← (silent.txn x).1, ← (silent.txn x).2.1,
    bind_done (lock_free (h3.inside.loose _)), look_bind,
    lift_done (updateThread_run ..), unlock_bind, giveUp_setThread_acquire, txn_acquire]
  have stack := acts_stack σ e3 (e3.txn x).thread fun _ => (e3.txn x).stackAtBegin
  have still : Silent e3 _ := silent_setThread (e3.txn x).thread
    (f := fun th => { th with stack := (e3.txn x).stackAtBegin }) fun _ => ⟨rfl, rfl, rfl⟩
  have h4 : Serving σ base x (e3.setThread (e3.txn x).thread _) :=
    ⟨h3.inside.acts stack still.locked, h3.engaged.silent still⟩
  refine .prepend stack ?_
  rw [look_bind]
  refine h4.work (quiet_clearTables _) (fun _ e5 silent5 h5 => ?_) fails
  have own : (e5.txn x).thread = (e3.txn x).thread := (silent5.txn x).1
  have segment : (e5.txn x).segment = (e3.txn x).segment := (silent5.txn x).2.1
  rw [← own, ← segment, lift_done (finish_run rfl h5.engaged.segment)]
  have finish := acts_finish h5.inside.fits h5.engaged .aborted
  have inside := h5.inside.acts finish (by simp [finished])
  have past : (e5.finished x (e5.txn x).thread (e5.txn x).segment .aborted).Ended x .aborted :=
    ended_finished h5.engaged rfl _ _
  refine .prepend finish ?_
  refine walks_note (notes_counters _) fun e6 silent6 alike6 acts6 => ?_
  refine walks_note (notes_logInfo ..) fun e7 silent7 alike7 acts7 => ?_
  refine .ok ⟨rfl, ?_, ?_⟩
  · exact (inside.acts acts6 silent6.locked).acts acts7 silent7.locked
  · exact (alike6.ages.trans alike7.ages).keeps past

theorem walks_callAll {f : Unit → EngineCall β} (h : σ.Outside [] e) (past : e.Ended x phase)
    (callbacks : List Callback)
    (raised : ∀ τ v a, τ.Outside [] a → a.Ended x phase → P τ (.error v) a)
    (next : ∀ τ a, τ.Outside [] a → (∀ t, σ.Tracks e t → τ.Tracks a t) → τ.control = σ.control →
      a.Ended x phase →
      Walks P τ a (f () a)) : Walks P σ e ((callAll callbacks >>= f) e) := by
  induction callbacks generalizing σ e with
  | nil => exact next σ e h (fun _ tracks => tracks) rfl past
  | cons c rest ih =>
    refine .calling .refl ⟨h.held, h.calm, h.idle⟩ fun r a returns => ?_
    have bare : (Stance.start σ.control (σ.follow e).threads a).Outside [] a :=
      ⟨rfl, rfl, rfl, returns.fits, returns.inv.locks⟩
    cases r with
    | error v => exact .error (raised _ v a bare (returns.ages.keeps past))
    | ok =>
      refine ih bare (returns.ages.keeps past) fun τ b outside keeps control past => ?_
      exact next τ b outside (fun t tracks =>
        keeps t ⟨.inl tracks.follows, tracks.known.trans_le returns.ages.threads_size⟩) control past

def Spent (x : TxnId) (σ : Stance) (e : Engine) : Prop := σ.Outside [] e ∧ ¬ e.Active x

/-- The call ended by raising `v` with the engine's mutex held, and the transaction goes on running.
-/
structure Stuck (x : TxnId) (v : Raise) (σ : Stance) (e : Engine) : Prop where
  fatal : v.Fatal
  holding : σ.Holding [.engine] none
  active : e.Active x
  tracks : σ.Tracks e (e.txn x).thread

theorem Engine.Serving.stuck {v : Raise} (h : Serving σ [] x e) (fatal : v.Fatal) : Stuck x v σ e :=
  ⟨fatal, h.inside.holding, h.engaged.active, h.engaged.tracks⟩

theorem discard_succeeds (h : Serving σ base x e) (cause : Error) :
    Walks (fun τ out e' => Discarded σ base x τ out e' ∧
      ∀ v, out = .error v → e.Core → (e.txn x).phase ≠ .running) σ e (discard x cause e) := by
  have walks := walks_discard h cause
  by_cases sane : e.Core ∧ (e.txn x).phase = .running
  · obtain ⟨callbacks, e', run, -⟩ :=
      discard_spec sane.1 h.engaged.active (h.inside.loose _) sane.2 cause
    rw [run] at walks ⊢
    cases walks with
    | done acts post => exact .done acts ⟨post, nofun⟩
  · exact walks.mono fun τ out e' post => ⟨post, fun v _ core running => sane ⟨core, running⟩⟩

theorem Engine.Serving.rollsBack {y : EngineCall β} (h : Serving σ [] x e) (cause : Error)
    (stuck : ∀ v b, v.Fatal → Serving σ [] x b → (e.Core → (e.txn x).phase ≠ .running) →
      P σ (.error v) b) (raised : ∀ τ v b, Spent x τ b → P τ (.error v) b)
    (next : ∀ τ b, τ.Outside [] b → b.Ended x .aborted → Walks P τ b (y b)) :
    Walks P σ e ((do
      let callbacks ← discard x cause
      liftM (unlock .engine)
      callAll callbacks
      y : EngineCall β) e) := by
  refine .bind ((discard_succeeds h cause).mono fun τ out e' post => ?_)
  obtain ⟨⟨rfl, post⟩, never⟩ := post
  cases out with
  | error v => exact stuck v e' post.1 post.2 (never v rfl)
  | ok callbacks =>
    refine walks_unlock post.1 fun outside => ?_
    have past := (alike_giveUp e' .engine).ages.keeps post.2
    exact walks_callAll outside past callbacks
      (fun τ v a outside past => raised τ v a ⟨outside, past.not_active⟩)
        fun τ a outside _ _ past => next τ a outside past

theorem walks_rollBack (h : σ.Outside [] e) (engaged : Engaged σ x e) (cause : Error) :
    Walks (fun τ out e' => match out with
      | .ok _ => Spent x τ e' ∧ e'.Ended x .aborted
      | .error v =>
        Spent x τ e' ∨ Stuck x v τ e' ∧ (e.Core → (e.txn x).phase ≠ .running)) σ e
          (rollBack x cause e) := by
  refine walks_engine h nofun fun free inside => ?_
  have alike := alike_acquire e .engine
  have serving : Serving (σ.take .engine) [] x (e.acquire .engine) :=
    ⟨inside, engaged.since (alike.since rfl (.inr rfl) rfl rfl rfl)⟩
  have walks := serving.rollsBack (y := pure ()) (P := fun τ out e' => match out with
      | .ok _ => Spent x τ e' ∧ e'.Ended x .aborted
      | .error v => Spent x τ e' ∨ Stuck x v τ e' ∧ (e.Core → (e.txn x).phase ≠ .running)) cause
    (fun v b fatal serving never => .inr
      ⟨serving.stuck fatal, fun core => never (core.alike alike)⟩) (fun τ v b spent => .inl spent)
    fun τ b outside past => .ok ⟨⟨outside, past.not_active⟩, past⟩
  simpa only [bind_pure_unit] using walks

theorem walks_abortWith (h : σ.Outside [] e) (engaged : Engaged σ x e) (cause : Error)
    (raised : ∀ τ v e', Spent x τ e' ∨ Stuck x v τ e' ∧ (e.Core → (e.txn x).phase ≠ .running) →
      P τ (.error v) e') :
    Walks P σ e ((abortWith x cause : EngineCall β) e) := by
  refine .bind ((walks_rollBack h engaged cause).mono fun τ out e' post => ?_)
  cases out with
  | error v => exact raised τ v e' post
  | ok => exact .error (raised τ _ e' (.inl post.1))

end Discard

section Minor
variable {α β : Type} {σ : Stance} {base : List Mutex} {x : TxnId} {e e' : Engine} {t : ThreadId}
  {k : SegmentId} {who : Caller}
  {P : Stance → Post β}

theorem Engine.Silent.guard (h : Silent (e.acquire m) e') : Silent e (e'.giveUp m) :=
  { h with locked := by simp [giveUp, h.locked, acquire] }

theorem walks_guarded {y : EngineM α} {f : α → EngineCall β} {g : α → Unit → EngineCall β}
    (shape : ∀ a, f a = liftM (unlock m) >>= g a) (mine : σ.Mine who) (going : e.Going who)
    (free : m ∉ e.locked)
    (quiet : Quiet y) (ok : ∀ a e', Silent e e' → Acts σ e σ e' → Walks P σ e' (g a () e'))
    (error : ∀ v e', v.Fatal → Silent (e.acquire m) e' → Acts σ e (σ.take m) e' →
      P (σ.take m) (.error v) e') :
    Walks P σ e ((liftM y >>= f) (e.acquire m)) := by
  have lock : Acts σ e (σ.take m) (e.acquire m) := .single (.lock m free)
  refine .prepend lock (walks_work mine going quiet (fun a e' _ silent acts => ?_)
    fun v e' fatal silent acts => error v e' fatal silent (lock.trans acts))
  have unlock : Acts (σ.take m) e' σ (e'.giveUp m) := by
    have act : Act (σ.take m) e' ((σ.take m).drop m) (e'.giveUp m) := .unlock m (.head _)
    rw [Stance.drop_take] at act
    exact .single act
  rw [shape, lift_done (unlock_run e' m)]
  exact .prepend unlock (ok a _ silent.guard ((lock.trans acts).trans unlock))

def Collected (σ : Stance) (x : TxnId) (e : Engine) (τ : Stance) (out : Except Raise α)
    (e' : Engine) : Prop :=
  match out with
  | .ok _ => τ = σ ∧ Silent e e' ∧ Serving σ [] x e'
  | .error v => Stuck x v τ e'

theorem walks_evacuate (h : Serving σ [] x e) (k : SegmentId) :
    Walks (Collected σ x e) σ e (Evacuation.evacuate x k (e.txn x).thread e) := by
  unfold Evacuation.evacuate
  rw [look_bind]
  rw [bind_done (lock_free (h.inside.loose _)), look_bind]
  refine walks_guarded (fun _ => rfl) h.engaged.mine (h.engaged.going h.inside.fits.up)
    (h.inside.loose _)
    ((Evacuation.quiet_promoteStack ..).run _) (fun a e1 silent1 acts1 => ?_)
      fun v e1 fatal silent1 _ => ?_
  · have h1 : Serving σ [] x e1 := ⟨h.inside.acts acts1 silent1.locked, h.engaged.silent silent1⟩
    refine h1.work ((Evacuation.quiet_promoteReachable x k).run _) (fun b e2 silent2 h2 => ?_)
      fun v e2 fatal h2 => h2.stuck fatal
    exact .ok ⟨rfl, silent1.trans silent2, h2⟩
  · have taken : Since σ e (σ.take (.stack (e.txn x).thread)) _ :=
      (alike_acquire e (.stack (e.txn x).thread)).since rfl (.inr rfl) rfl rfl rfl
    have engaged := (h.engaged.since taken).silent silent1
    refine ⟨fatal, ⟨?_, ?_, h.inside.calm, h.inside.pausing⟩, engaged.active, engaged.tracks⟩
    · simp [h.inside.held]
    · simp [h.inside.held]

theorem walks_collectMinor (h : Serving σ [] x e) :
    Walks (Collected σ x e) σ e (collectMinor x e) := by
  unfold collectMinor
  rw [look_bind, look_bind, look_bind]
  split
  · exact .ok ⟨rfl, .refl e, h⟩
  · dsimp only
    rw [look_bind]
    refine walks_note (notes_logInfo ..) fun e1 silent1 alike1 acts1 => ?_
    have h1 : Serving σ [] x e1 := ⟨h.inside.acts acts1 silent1.locked, h.engaged.silent silent1⟩
    rw [← (silent1.txn x).1]
    refine .bind ((walks_evacuate h1 _).mono fun τ out e2 post => ?_)
    cases out with
    | error => exact post
    | ok ev =>
      obtain ⟨rfl, silent2, h2⟩ := post
      dsimp only
      have close : ∀ e3, Silent e e3 → Serving τ [] x e3 → Walks (Collected τ x e) τ e3
          ((liftM (Evacuation.close (e.txn x).segment ev) >>= fun _ => pure ev.failure : EngineCall
            (Option Error)) e3) :=
        fun e3 silent3 h3 => h3.work (Evacuation.quiet_close ..)
          (fun _ e4 silent4 h4 => .ok ⟨rfl, silent3.trans silent4, h4⟩) fun v e4 fatal h4 =>
            h4.stuck fatal
      have silent := silent1.trans silent2
      split
      · exact h2.work (Evacuation.quiet_fixTargets ..)
          (fun _ e3 silent3 h3 => close e3 (silent.trans silent3) h3)
          fun v e3 fatal h3 => h3.stuck fatal
      · exact close e2 silent h2

end Minor

variable {α β : Type} {σ : Stance} {base : List Mutex} {e e' : Engine} {t : ThreadId} {who : Caller}
  {mode : PauseMode}
  {P : Stance → Post β}

namespace Engine

structure Pausing (σ : Stance) (base : List Mutex) (who : Caller) (e : Engine) : Prop where
  inside : σ.Inside base (some who) e
  mine : σ.Mine who

theorem pausedFor_false : e.pausedFor who = false ↔ e.pauser = none ∨ e.pauser = some who := by
  cases h : e.pauser <;> simp [pausedFor, h]

theorem Pausing.pauser (h : Pausing σ base who e) : e.pauser = some who :=
  h.inside.fits.pauses who h.inside.pausing

theorem Pausing.going (h : Pausing σ base who e) : e.Going who := .inl (pausedFor_own h.pauser)

theorem alike_paused (e : Engine) (who : Caller) (mode : PauseMode) : Alike e (e.paused who mode) :=
  { Alike.refl _ with }

end Engine

theorem Stance.Inside.work {p : Option Caller} (h : σ.Inside base p e) (mine : σ.Mine who)
    (free : e.pausedFor who = false) {y : EngineM α} {f : α → EngineCall β} (quiet : Quiet y)
    (ok : ∀ a e', σ.Inside base p e' → e'.pausedFor who = false → Walks P σ e' (f a e'))
    (error : ∀ v e', σ.Inside base p e' → P σ (.error v) e') : Walks P σ e ((liftM y >>= f) e) := by
  refine walks_work mine (.inl free) quiet (fun a e' _ silent acts => ?_)
    fun v e' _ silent acts => ?_
  · exact ok a e' (h.acts acts silent.locked) (by rwa [pausedFor, silent.pauser])
  · exact error v e' (h.acts acts silent.locked)

theorem Engine.Pausing.work (h : Pausing σ base who e) {y : EngineM α} {f : α → EngineCall β}
    (quiet : Quiet y) (ok : ∀ a e', Pausing σ base who e' → Walks P σ e' (f a e'))
    (error : ∀ v e', Pausing σ base who e' → P σ (.error v) e') : Walks P σ e ((liftM y >>= f) e) :=
  h.inside.work h.mine (pausedFor_own h.pauser) quiet
    (fun a e' inside _ => ok a e' ⟨inside, h.mine⟩)
    fun v e' inside => error v e' ⟨inside, h.mine⟩

def Paused (base : List Mutex) (who : Caller) (τ : Stance) (out : Except Raise α)
    (e : Engine) : Prop :=
  match out with
  | .ok _ => Pausing τ base who e
  | .error _ => τ.Holding (.engine :: base) (some who) ∧ τ.Fits e ∧ τ.Mine who

theorem Engine.Pausing.over (h : Pausing σ base who e) (out : Except Raise α) :
    Paused base who σ out e := by
  cases out with
  | ok => exact h
  | error => exact ⟨h.inside.holding, h.inside.fits, h.mine⟩

section Marking
variable {f : Marking → EngineCall β}

theorem walks_markThread (h : Pausing σ base who e) (t : ThreadId) (m : Marking)
    (ok : ∀ m e', Pausing σ base who e' → Walks (Paused base who) σ e' (f m e')) :
    Walks (Paused base who) σ e ((Marking.markThread t m >>= f) e) := by
  unfold Marking.markThread
  simp only [bind_assoc]
  rw [bind_done (lock_free (h.inside.loose _)), look_bind]
  refine walks_guarded (fun _ => rfl) h.mine h.going (h.inside.loose _)
    ((Marking.quiet_markAll _).run _) (fun a e1 silent1 acts1 => ?_) fun v e1 _ silent1 acts1 => ?_
  · have h1 : Pausing σ base who e1 := ⟨h.inside.acts acts1 silent1.locked, h.mine⟩
    rw [look_bind]
    split
    · exact ok a.2 e1 h1
    · rw [bind_assoc]
      exact h1.work ((Marking.quiet_markTxn _).run _) (fun b e2 h2 => ok b.2 e2 h2)
        fun v e2 h2 => h2.over _
  · -- The stack stays locked.
    refine ⟨⟨fun m hm => ?_, fun m hm => ?_, h.inside.calm, h.inside.pausing⟩,
      acts1.fits h.inside.fits, h.mine⟩
    · exact .tail _ (by rwa [h.inside.held])
    · obtain rfl | hm := List.mem_cons.1 hm
      · exact .inr ⟨t, rfl⟩
      · exact .inl (by rw [h.inside.held] at hm; exact hm)

theorem walks_markThreads (h : Pausing σ base who e) (threads : List ThreadId) (m : Marking)
    (ok : ∀ m e', Pausing σ base who e' → Walks (Paused base who) σ e' (f m e')) :
    Walks (Paused base who) σ e ((Marking.markThreads threads m >>= f) e) := by
  induction threads generalizing e m with
  | nil => exact ok m e h
  | cons t rest ih =>
    rw [Marking.markThreads, bind_assoc]
    exact walks_markThread h t m fun m e1 h1 => ih h1 m

theorem walks_collectOld (h : Pausing σ base who e) :
    Walks (Paused base who) σ e (collectOld e) := by
  have fails : ∀ (v : Raise) e', Pausing σ base who e' →
      Paused base who σ (.error v : Except Raise Unit) e' :=
    fun _ _ h => h.over _
  unfold collectOld
  rw [look_bind, look_bind]
  refine h.work (quiet_logInfo ..) (fun _ e1 h1 => ?_) fails
  rw [look_bind, look_bind]
  refine h1.work ((Marking.quiet_markAll _).run _) (fun a e2 h2 => ?_) fails
  dsimp only
  rw [look_bind]
  refine walks_markThreads h2 _ _ fun m e3 h3 => ?_
  refine h3.work (Marking.quiet_markReachable.run _) (fun b e4 h4 => ?_) fails
  have sweep := h4.work (f := pure) (quiet_sweepUnmarked b.2)
    (fun _ e5 h5 => .ok (h5.over _)) fails
  rwa [bind_pure] at sweep

end Marking

section Pauses

theorem walks_beginPause {f : Unit → EngineCall β} (h : σ.Inside base none e)
    (apart : .bracket ∉ base) (mine : σ.For e who) (mode : PauseMode)
    (nested : ∀ τ v b, Since σ e τ b → τ.Inside base none b → P τ (.error v) b)
    (next : ∀ τ b, Since σ e τ b → Pausing τ base who b → b.Stopped who mode →
      Walks P τ b (f () b)) :
    Walks P σ e ((beginPause who mode >>= f) e) := by
  unfold beginPause
  simp only [bind_assoc]
  refine walks_park h mine fun τ b since inside free _ => ?_
  rw [look_bind]
  split
  · exact .error (nested τ _ b since inside)
  · next other =>
    have unasked := (pausedFor_false.1 free).resolve_right fun own => other (by simp [own])
    have mine' : τ.For b who := by
      cases who with
      | thread t => exact since.tracks t mine
      | system | outside => trivial
    have ask : Acts τ b { τ with pausing := some who } (b.paused who mode) :=
      .single (.pause who mode mine'.mine unasked)
    have since' : Since σ e { τ with pausing := some who } (b.paused who mode) :=
      since.trans ((alike_paused b who mode).since rfl (.inl inside.pausing) rfl rfl rfl)
        (by rw [h.pausing]; exact nofun)
    have inside' : ({ τ with pausing := some who } : Stance).Inside base (some who)
        (b.paused who mode) :=
      ⟨inside.held, inside.calm, rfl, ask.fits inside.fits, inside.loose⟩
    have mine'' : ({ τ with pausing := some who } : Stance).For (b.paused who mode) who := by
      cases who with
      | thread t => exact since'.tracks t mine
      | system | outside => trivial
    refine .prepend ask (walks_await inside' apart mine'' (pausedFor_own rfl) rfl
      (fun holds => ?_) ?_)
    · exact next _ _ since' ⟨inside', mine''.mine⟩ ⟨rfl, rfl, by cases who <;> exact holds⟩
    · intro ρ c later held pausing seeking fits loose going holds
      refine next ρ c (since'.trans later (by rw [h.pausing]; exact nofun))
        ⟨⟨held, seeking, pausing, fits, loose⟩, ?_⟩
        ⟨fits.pauses who pausing, later.pauseMode who rfl, by cases who <;> exact holds⟩
      cases who with
      | thread t => exact (later.tracks t mine'').mine
      | system | outside => trivial

variable {x : EngineCall β}

theorem walks_endPause
    (h : Walks (fun τ out b => τ.pausing = some who ∧ τ.Fits b ∧ τ.Mine who ∧
      P { τ with pausing := none } out b.resumed) σ e
      (x e)) : Walks P σ e (x.ending (endPause who) e) := by
  refine .bindOutcome (h.mono fun τ out b post => ?_)
  obtain ⟨pausing, fits, mine, post⟩ := post
  have pauser := fits.pauses who pausing
  have run : endPause who b = .ok () b.resumed := by
    simp [endPause, pauser, resumed]
  have release : Acts τ b { τ with pausing := none } b.resumed :=
    .single (.release who mine pausing pauser)
  simp only [run]
  cases out with
  | ok => exact .done release post
  | error => exact .raised release post

def Locked (base : List Mutex) (τ : Stance) (out : Except Raise α) (e : Engine) : Prop :=
  match out with
  | .ok _ => τ.Inside base none e
  | .error _ => τ.Holding (.engine :: base) none ∧ τ.Fits e

theorem Stance.Inside.locked (h : σ.Inside base none e) (out : Except Raise α) :
    Locked base σ out e := by
  cases out with
  | ok => exact h
  | error => exact ⟨h.holding, h.fits⟩

theorem walks_whilePaused (h : σ.Inside base none e) (apart : .bracket ∉ base) (mine : σ.For e who)
    (mode : PauseMode)
    (body : ∀ τ b, Pausing τ base who b → b.Stopped who mode → Walks (Paused base who) τ b (x b)) :
    Walks (Locked base) σ e (whilePaused who mode x e) := by
  refine walks_beginPause h apart mine mode (fun τ v b _ inside => inside.locked _)
    fun τ b _ pausing stopped => ?_
  refine walks_endPause ((body τ b pausing stopped).mono fun ρ out c post => ?_)
  have release : ∀ {ρ : Stance} {c : Engine}, ρ.pausing = some who → ρ.Fits c → ρ.Mine who →
      ({ ρ with pausing := none } : Stance).Fits c.resumed := fun pausing fits mine =>
    (Acts.single (.release who mine pausing (fits.pauses who pausing))).fits fits
  cases out with
  | ok =>
    obtain ⟨inside, mine⟩ := post
    exact ⟨inside.pausing, inside.fits, mine, inside.held, inside.calm, rfl,
      release inside.pausing inside.fits mine,
      inside.loose⟩
  | error =>
    obtain ⟨holding, fits, mine⟩ := post
    exact ⟨holding.pausing, fits, mine, ⟨holding.all, holding.only, holding.calm, rfl⟩,
      release holding.pausing fits mine⟩

def Bare (base : List Mutex) (τ : Stance) (out : Except Raise α) (e : Engine) : Prop :=
  match out with
  | .ok _ => τ.Outside base e
  | .error _ => τ.Holding base none

theorem Bare.holding {out : Except Raise α} (h : Bare base σ out e) : σ.Holding base none := by
  cases out with
  | ok => exact Stance.Outside.holding h
  | error => exact h

theorem walks_withLock (h : σ.Outside base e) (apart : .engine ∉ base)
    (body : (σ.take .engine).Inside base none (e.acquire .engine) →
      Walks (Locked base) (σ.take .engine) (e.acquire .engine) (x (e.acquire .engine))) :
    Walks (Bare base) σ e (withLock .engine x e) := by
  refine walks_engine h apart fun _ inside =>
    walks_ending ((body inside).mono fun τ out b post => ?_)
  cases out with
  | ok =>
    have inside : τ.Inside base none b := post
    exact ⟨by rw [inside.held]; exact .head _, inside.giveUp⟩
  | error => exact ⟨post.1.all _ (.head _), post.1.drop post.2.holds.held apart⟩

theorem Stance.For.acquire (h : σ.For e who) (m : Mutex) : (σ.take m).For (e.acquire m) who :=
  h.congr rfl rfl le_rfl

theorem walks_collect (h : σ.Outside [] e) (mine : σ.Tracks e t) :
    Walks (Bare []) σ e (collect t e) := by
  unfold collect
  rw [look_bind]
  split
  · exact .error h.holding
  · refine walks_withLock h (nofun) fun inside => ?_
    refine walks_look looks_checkOpen (fun _ _ => ?_) fun v _ _ => inside.locked _
    exact walks_whilePaused inside (by simp) (mine.serves.acquire _) _ fun τ b pausing _ =>
      walks_collectOld pausing

theorem walks_collectIfDue (h : σ.Outside [] e) (mine : σ.Tracks e t) :
    Walks (Bare []) σ e (collectIfDue t e) := by
  refine walks_withLock h nofun fun inside => ?_
  rw [look_bind, look_bind]
  split
  · refine walks_whilePaused inside (by simp) (mine.serves.acquire _) _ fun τ b pausing _ => ?_
    rw [look_bind]
    split
    · exact walks_collectOld pausing
    · exact .ok (pausing.over _)
  · exact .ok (inside.locked _)

theorem walks_checkHeap (h : σ.Outside [] e) : Walks (Bare []) σ e (checkHeap e) := by
  refine walks_withLock h nofun fun inside => ?_
  refine walks_look looks_checkOpen (fun _ _ => ?_) fun v _ _ => inside.locked _
  refine walks_whilePaused inside nofun Stance.for_system _ fun τ b pausing _ => ?_
  have audits := pausing.work (f := pure) looks_audit.quiet (fun _ e1 h1 => .ok (h1.over _))
    fun v e1 h1 => h1.over _
  rwa [bind_pure] at audits

theorem walks_pause (h : σ.Outside [] e) (mine : σ.Tracks e t) (mode : PauseMode) :
    Walks (fun τ out b => match out with
      | .ok _ => τ.Holding [] (some (.thread t)) ∧ b.Stopped (.thread t) mode
      | .error _ => τ.Holding [] none) σ e (withLock .engine (beginPause (.thread t) mode) e) := by
  refine walks_engine h nofun fun _ inside => walks_ending ?_
  rw [← bind_pure (beginPause (.thread t) mode)]
  refine walks_beginPause inside (by simp) (mine.serves.acquire _) mode (fun τ v b _ inside => ?_)
    fun τ b _ pausing stopped => .ok ?_
  · exact ⟨inside.holding.all _ (.head _), inside.holding.drop inside.fits.holds.held (by simp)⟩
  · have inside := pausing.inside
    exact ⟨inside.holding.all _ (.head _), inside.holding.drop inside.fits.holds.held (by simp),
      stopped.pauser, stopped.pauseMode, stopped.others⟩

end Pauses

section Threads

theorem checkOpen_error {v : Raise} (h : checkOpen e = .error v e') :
    v = .violation .engineClosed := by
  unfold checkOpen at h
  rw [get_bind] at h
  split at h
  · cases h
    rfl
  · cases h

theorem acts_register (σ : Stance) (free : e.pausedFor .outside = false) :
    Acts σ e σ { e with threads := e.threads.push { registered := true } } := by
  refine .single (.work .outside trivial (.inl free)
    ⟨rfl, rfl, rfl, rfl, rfl, rfl, rfl, fun _ => ⟨rfl, rfl⟩, fun u => ?_⟩
    ⟨by simp, fun _ _ => rfl, fun c f hf => .inl ⟨f, hf, rfl⟩, fun y hy _ => ⟨hy, rfl⟩⟩)
  have threads : thread { e with threads := e.threads.push { registered := true } } u =
      if u = e.threads.size then { registered := true } else e.thread u := getD_push ..
  rw [threads]
  split
  · next h =>
    subst h
    rw [thread, getD_out le_rfl]
  · rfl

structure Joins (σ : Stance) (base : List Mutex) (e : Engine) (τ : Stance)
    (out : Except Raise ThreadId) (b : Engine) : Prop where
  outside : τ.Outside base b
  control : τ.control = σ.control
  foreign : ∀ c, σ.control = some c → b.foreign.lookup c = e.foreign.lookup c
  thread : ∀ t, out = .ok t → τ.known ≤ t ∧ t < b.threads.size ∧ b.thread t = { registered := true }
  closed : ∀ v, out = .error v → v = .violation .engineClosed
  core : e.Core → b.Core

theorem walks_register (h : σ.Outside base e) (apart : .engine ∉ base) :
    Walks (Joins σ base e) σ e (register e) := by
  have engine : ∀ {τ : Stance} {b : Engine}, τ.Inside base none b → .engine ∈ τ.held :=
    fun inside => by
    rw [inside.held]
    exact .head _
  have alike := alike_acquire e .engine
  refine walks_engine h apart fun _ inside =>
    walks_ending (walks_look looks_checkOpen (fun _ _ => ?_) fun v _ refused => ?_)
  · refine walks_park inside Stance.for_outside fun τ b since inside' free _ => ?_
    have locked : Since σ e (σ.take .engine) (e.acquire .engine) :=
      alike.since rfl (.inr rfl) rfl rfl rfl
    have since' := locked.trans since fun _ => id
    rw [look_bind]
    have joins := acts_register τ free
    have inside'' := inside'.acts joins rfl
    refine .done joins ⟨engine inside', inside''.giveUp, since'.control, since'.foreign, ?_,
      by rintro _ ⟨⟩, fun core => ?_⟩
    · rintro _ ⟨⟩
      have threads : thread { b with threads := b.threads.push { registered := true } }
          b.threads.size =
          if b.threads.size = b.threads.size then { registered := true }
            else b.thread b.threads.size := getD_push ..
      exact ⟨inside'.fits.known, by simp [giveUp], threads.trans (if_pos rfl)⟩
    · exact ((idles_register b).core (since'.core core)).alike (alike_giveUp _ _)
  · refine ⟨engine inside, inside.giveUp, rfl, fun _ _ => rfl, by rintro _ ⟨⟩, ?_, fun core => ?_⟩
    · rintro _ ⟨⟩
      exact checkOpen_error refused
    · exact (core.alike alike).alike (alike_giveUp _ _)

section
variable (h : σ.Outside [] e)
include h

theorem walks_unregister (mine : σ.Tracks e t) : Walks (Bare []) σ e (unregister t e) := by
  unfold unregister
  rw [look_bind]
  split
  · exact .error h.holding
  · refine walks_withLock h nofun fun inside => ?_
    refine walks_park inside (mine.serves.acquire _) fun τ b since inside free _ => ?_
    have tracks := since.tracks t (mine.congr rfl rfl le_rfl)
    have still := still_setThread (σ := τ) (e := b) t
      (g := fun th => { th with registered := false }) fun _ => rfl
    have leave : Acts τ b τ _ := .single (.work (.thread t) tracks.mine (.inl free) still.1 still.2)
    have stack := acts_stack τ (b.setThread t fun th => { th with registered := false }) t
      fun _ => #[]
    have locked : lock (.stack t) (b.setThread t fun th => { th with registered := false }) =
        .done () _ :=
      lock_free (inside.loose t)
    rw [lift_done (updateThread_run ..), bind_done locked,
      lift_done (updateThread_run ..), lift_ok (unlock_run ..), giveUp_setThread_acquire]
    have acts := leave.trans stack
    exact .done acts ((inside.acts acts rfl).locked _)

theorem walks_allocPrebuilt (size : UInt64) (words : List (Nat × UInt64)) :
    Walks (Bare []) σ e (allocPrebuilt size words e) := by
  unfold allocPrebuilt
  rw [look_bind]
  cases e.roundSize? size with
  | none => exact .ok h
  | some n =>
    refine walks_withLock h nofun fun inside => ?_
    refine walks_look looks_checkOpen (fun _ _ => ?_) fun v _ _ => inside.locked _
    refine walks_park inside Stance.for_outside fun τ b since inside free _ => ?_
    have fails : ∀ (v : Raise) e', τ.Inside [] none e' →
        Locked [] τ (.error v : Except Raise (Except Error Ref)) e' :=
      fun _ _ inside => inside.locked _
    refine inside.work Stance.mine_outside free (quiet_mallocOld n)
      (fun r e1 inside1 free1 => ?_) fails
    split
    · exact .ok (inside1.locked _)
    · refine inside1.work Stance.mine_outside free1 (quiet_setWords ..)
        (fun _ e2 inside2 free2 => ?_) fails
      refine inside2.work Stance.mine_outside free2 (quiet_setHeader ..)
        (fun _ e3 inside3 free3 => ?_) fails
      have silent : Silent e3 { e3 with prebuilt := e3.prebuilt.push r } :=
        { Silent.refl _ with }
      have acts : Acts τ e3 τ _ :=
        .single (.work .outside trivial (.inl free3) silent.toStill silent.tidy)
      exact .done acts ((inside3.acts acts rfl).locked _)

theorem walks_stats : Walks (Bare []) σ e (stats e) :=
  walks_withLock h nofun fun inside => .ok (inside.locked _)

theorem walks_close : Walks (Bare []) σ e (close e) := by
  refine walks_withLock h nofun fun inside => ?_
  rw [look_bind]
  split
  · rw [look_bind]
    split
    · exact .error (inside.locked _)
    · have log : ∀ c, (σ.take .engine).Inside [] none c → Walks (Locked []) (σ.take .engine) c
          ((do if (← look (·.ownsLog)) then updateLog (·.close) : EngineCall Unit) c) := by
        intro c inside
        rw [look_bind]
        split
        · exact walks_lastNote (notes_log _) fun e' silent acts => inside.acts acts silent.locked
        · exact .ok (inside.locked _)
      have acts : Acts (σ.take .engine) (e.acquire .engine) (σ.take .engine)
          { e.acquire .engine with closed := true } :=
        .single (.idle { Still.refl _ with }
          ⟨rfl, rfl, rfl, rfl, rfl, rfl, rfl, fun _ => rfl, rfl, fun _ => .refl _⟩
            (tidy_of_eq rfl rfl rfl))
      exact .prepend acts (log _ (inside.acts acts rfl))
  · exact .ok (inside.locked _)

theorem walks_poll {f : Unit → EngineCall β} (mine : σ.For e who)
    (next : ∀ τ b, Since σ e τ b → τ.Outside [] b →
      ((.engine ∉ e.locked → ∀ k, e.WeakOk k) → .engine ∉ b.locked → ∀ k, b.WeakOk k) →
      Walks P τ b (f () b)) :
    Walks P σ e ((poll who >>= f) e) := by
  unfold poll
  rw [bind_assoc, look_bind]
  split
  · simp only [bind_assoc]
    have before := alike_acquire e .engine
    refine walks_engine h nofun fun free inside => walks_park inside (mine.acquire _)
      fun τ b since inside _ weak => ?_
    have after := alike_giveUp b .engine
    refine walks_unlock inside fun outside => next _ _ ?_ outside fun known _ k => ?_
    · have taken : Since σ e (σ.take .engine) (e.acquire .engine) :=
        before.since rfl (.inr rfl) rfl rfl rfl
      have given : Since τ b (τ.drop .engine) (b.giveUp .engine) :=
        after.since rfl (.inr rfl) rfl rfl rfl
      exact (taken.trans since fun _ => id).trans given (by rw [h.idle]; exact nofun)
    · exact (weak (fun k => (known free k).alike before) k).alike after
  · exact next σ e (.refl σ e) h id

end
end Threads

section Stack

theorem acts_restack (σ : Stance) (e : Engine) (t : ThreadId) (g : Array Ref → Array Ref) :
    Acts (σ.take (.stack t)) (e.acquire (.stack t)) σ
    (e.setThread t fun th => { th with stack := g th.stack }) := by
  have act : Act (σ.take (.stack t))
      ((e.acquire (.stack t)).setThread t fun th => { th with stack := g th.stack })
    ((σ.take (.stack t)).drop (.stack t)) _ := .unlock (.stack t) (.head _)
  rw [Stance.drop_take, giveUp_setThread_acquire] at act
  exact (acts_stack _ _ t g).step act

def Kept (σ : Stance) (e : Engine) (τ : Stance) (_ : Except Raise α) (b : Engine) : Prop :=
  τ = σ ∧ Silent e b ∧ σ.Outside [] b

section
variable (h : σ.Outside [] e)
include h

theorem Stance.Outside.kept (out : Except Raise α) : Kept σ e σ out e := ⟨rfl, .refl e, h⟩

theorem Stance.Outside.restacked (t : ThreadId) (g : Array Ref → Array Ref) (out : Except Raise α) :
    Kept σ e σ out (e.setThread t fun th => { th with stack := g th.stack }) :=
  ⟨rfl, silent_setThread t fun _ => ⟨rfl, rfl, rfl⟩, h.acts (acts_stack σ e t g) rfl⟩

theorem walks_push {f : Unit → EngineCall β} (t : ThreadId) (r : Ref)
    (next : ∀ e', e' = (e.setThread t fun th => { th with stack := th.stack.push r }) →
      Silent e e' → σ.Outside [] e' →
      Walks P σ e' (f () e')) : Walks P σ e ((push t r >>= f) e) := by
  unfold push
  simp only [bind_assoc]
  refine walks_stack h fun _ => ?_
  rw [lift_done (updateThread_run ..), unlock_bind, giveUp_setThread_acquire]
  obtain ⟨-, silent, outside⟩ := h.restacked t (·.push r) (.ok () : Except Raise Unit)
  exact .prepend (acts_restack σ e t (·.push r)) (next _ rfl silent outside)

theorem walks_pop (t : ThreadId) : Walks (Kept σ e) σ e (pop t e) := by
  refine walks_stack h fun _ => walks_ending ?_
  have ends := ends_popTop t (e.acquire (.stack t))
  unfold Ends at ends
  split at ends
  · next r e' run =>
    obtain ⟨-, rfl⟩ := ends
    rw [lift_ok run]
    refine .done (acts_stack _ _ t (·.pop)) ⟨.head _, ?_⟩
    rw [Stance.drop_take, giveUp_setThread_acquire]
    exact h.restacked t (·.pop) _
  · next v e' run =>
    subst ends
    rw [lift_error run]
    refine .error ⟨.head _, ?_⟩
    rw [Stance.drop_take, giveUp_acquire]
    exact h.kept _

theorem walks_root (t : ThreadId) (i : Int) : Walks (Kept σ e) σ e (root t i e) := by
  have kept : ∀ out : Except Raise Ref, .stack t ∈ (σ.take (.stack t)).held ∧
      Kept σ e ((σ.take (.stack t)).drop (.stack t)) out
        ((e.acquire (.stack t)).giveUp (.stack t)) := fun out => by
    rw [Stance.drop_take, giveUp_acquire]
    exact ⟨.head _, h.kept out⟩
  refine walks_stack h fun _ => walks_ending ?_
  rw [← bind_pure (liftM _ : EngineCall Ref)]
  exact walks_look (.inspect _) (fun r _ => .ok (kept _)) fun v _ _ => kept _

theorem walks_depth (t : ThreadId) : Walks (Kept σ e) σ e (depth t e) := by
  refine walks_stack h fun _ => walks_ending (.ok ⟨.head _, ?_⟩)
  rw [Stance.drop_take, giveUp_acquire]
  exact h.kept _

theorem walks_setRoot (t : ThreadId) {i : Int} (r : Ref) (least : 0 ≤ i)
    (most : i.toNat < (e.thread t).stack.size) : Walks (Kept σ e) σ e (setRoot t i r e) := by
  refine walks_stack h fun _ => ?_
  rw [lift_done (stackEntry_run least most), lift_done (updateThread_run ..),
    lift_ok (unlock_run ..),
    giveUp_setThread_acquire]
  exact .done (acts_restack σ e t (·.setIfInBounds i.toNat r))
    (h.restacked t (·.setIfInBounds i.toNat r) _)

end
end Stack
end TxHeap
