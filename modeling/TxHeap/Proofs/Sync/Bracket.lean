import TxHeap.Proofs.CallbackTable
import TxHeap.Proofs.Sync.Lifecycle

/-! Lasting pauses, and the brackets of foreign callers, act by act. The table of foreign callers
has a mutex of its own, which one holds while it waits to become a thread. -/

namespace TxHeap
open Engine TxHeap.Action

variable {e0 : Engine}

variable {α β : Type} {σ : Stance} {e : Engine} {x : TxnId} {t : ThreadId} {c : Nat} {f : Foreign}
  {P : Stance → Post β}

theorem walks_release (held : σ.held = []) (calm : σ.seeking = false)
    (pausing : σ.pausing = if .engine ∉ e.locked ∧ e.pauser = some (.thread t) then
      some (.thread t) else none) (mine : σ.mine t) :
    Walks (fun τ _ b => τ.Holding [] none ∧ b.pauser ≠ some (.thread t)) σ e
      (withLock .engine (liftM (endPause (.thread t))) e) := by
  refine walks_lock calm (fun taken => ?_) (.inr held) id fun free => walks_ending ?_
  · rw [pausing, if_neg fun own => own.1 taken]
  by_cases own : e.pauser = some (.thread t)
  · rw [if_pos ⟨free, own⟩] at pausing
    have run : endPause (.thread t) (e.acquire .engine) = .ok () (e.acquire .engine).resumed := by
      simp [endPause, resumed, acquire, own]
    rw [lift_ok run]
    refine .done (.single (.release (.thread t) mine pausing own))
      ⟨by simp [held], ?_, by rintro ⟨⟩⟩
    exact ⟨by rintro _ ⟨⟩, by simp [held], calm, rfl⟩
  · rw [if_neg fun both => own both.2] at pausing
    have run : endPause (.thread t) (e.acquire .engine) = .error
        (.violation (.pauseNotOwned (.thread t))) (e.acquire .engine) := by
      unfold endPause
      rw [get_bind, if_pos (by simpa [acquire] using own)]
      rfl
    rw [lift_error run]
    exact .error ⟨by simp [held], ⟨by rintro _ ⟨⟩, by simp [held], calm, pausing⟩, own⟩

section Table

theorem lookup_setForeign (c : Nat) (f : Foreign) (l : List (Nat × Foreign)) (d : Nat) :
    (setForeign c f l).lookup d = if d = c then some f else l.lookup d :=
  lookup_put (setForeign c f) rfl (fun _ _ _ => rfl) l d

theorem acts_foreign (own : σ.control = some c) {entries : List (Nat × Foreign)}
    (others : ∀ d, d ≠ c → entries.lookup d = e.foreign.lookup d)
    (mine : ∀ f, entries.lookup c = some f →
      (∃ g, e.foreign.lookup c = some g ∧ g.thread = f.thread) ∨
      σ.mine f.thread ∧ f.thread < e.threads.size) :
    Acts σ e σ { e with foreign := entries } := by
  refine .single (.idle { Still.refl _ with }
    ⟨rfl, rfl, rfl, rfl, rfl, rfl, rfl, fun _ => rfl, rfl, fun _ => .refl _⟩
    ⟨le_rfl, fun d hd => others d ?_, fun d f hf => ?_, fun y hy _ => ⟨hy, rfl⟩⟩)
  · rintro rfl
    exact hd own
  · by_cases hd : d = c
    · subst hd
      exact mine f hf
    · exact .inl ⟨f, (others d hd).symm.trans hf, rfl⟩

theorem acts_updateForeign (own : σ.control = some c)
    (mine : (∃ g, e.foreign.lookup c = some g ∧ g.thread = f.thread) ∨
      σ.mine f.thread ∧ f.thread < e.threads.size) :
    Acts σ e σ { e with foreign := setForeign c f e.foreign } := by
  refine acts_foreign own (fun d hd => by rw [lookup_setForeign, if_neg hd]) fun g hg => ?_
  rw [lookup_setForeign, if_pos rfl] at hg
  cases hg
  exact mine

theorem updateForeign_run (c : Nat) (f : Foreign) (e : Engine) :
    updateForeign c f e = .ok () { e with foreign := setForeign c f e.foreign } := rfl

theorem lull_foreign (e : Engine) (entries : List (Nat × Foreign)) :
    Lull e { e with foreign := entries } :=
  ⟨{ Alike.refl _ with }, rfl⟩

theorem Stance.Outside.unbracket (h : σ.Outside [.bracket] e) :
    (σ.drop .bracket).Outside [] (e.giveUp .bracket) where
  held := by simp [h.held]
  calm := h.calm
  idle := h.idle
  fits := (Acts.single (.unlock .bracket (by rw [h.held]; exact (.head _)))).fits h.fits
  locks t taken := (List.mem_erase_of_ne (by decide)).2 (h.locks t (List.mem_of_mem_erase taken))

theorem walks_unbracket {f : Unit → EngineCall β} (h : σ.Outside [.bracket] e)
    (next : (σ.drop .bracket).Outside [] (e.giveUp .bracket) →
      Walks P (σ.drop .bracket) (e.giveUp .bracket) (f () (e.giveUp .bracket))) :
    Walks P σ e ((liftM (unlock .bracket) >>= f) e) := by
  rw [lift_done (unlock_run e .bracket)]
  exact Walks.prepend (.single (.unlock .bracket (by rw [h.held]; exact (.head _))))
    (next h.unbracket)

end Table

section Bracket

def Entered (c : Nat) (τ : Stance) (out : Except Raise α) (b : Engine) : Prop :=
  match out with
  | .ok _ => τ.Outside [] b
  | .error v => τ.Outside [] b ∨
    v = .violation .engineClosed ∧
      (τ.Holding [.engine] none ∨ τ.Holding [.bracket] none ∧ b.foreign.lookup c = none)

section
variable (core : e.Core) (h : σ.Outside [] e) (control : σ.control = some c)
include core h control

theorem walks_frame (own : σ.Tracks e (e.txn x).thread) (started : Bool) (token : Token) :
    Walks (Entered c) σ e ((becomeInevitable x "callback" >>= fun _ =>
      noteBracket c (e.txn x).thread token started) e) := by
  refine .bind ((walks_becomeInevitable core h own "callback").keeps.mono fun τ out b post => ?_)
  obtain ⟨outside, same, tracks⟩ := post
  cases out with
  | error => exact .inl outside
  | ok =>
    have tracks := tracks _ own
    rw [noteBracket, look_bind]
    have acts : ∀ frames, Acts τ b τ
        { b with foreign := setForeign c ⟨(e.txn x).thread, frames⟩ b.foreign } := fun frames =>
      acts_updateForeign (same.trans control) (.inr ⟨tracks.mine, tracks.known⟩)
    exact .done (acts _) (outside.acts (acts _) rfl)

theorem walks_join (own : σ.Tracks e t) (token : Token) :
    Walks (Entered c) σ e (openBracket c t token e) := by
  rw [openBracket, look_bind]
  split
  · dsimp only
    refine .bind ((walks_begin core h own).keeps.mono fun τ out b post => ?_)
    obtain ⟨post, same, -⟩ := post
    cases out with
    | error => exact post.symm.imp And.right fun closed => ⟨closed.1, .inl closed.2⟩
    | ok =>
      obtain ⟨minding, rfl, core⟩ := post
      rw [look_bind, minding.engaged.txn]
      exact walks_frame core minding.outside (same.trans control) minding.engaged.tracks _ token
  · next busy =>
    dsimp only
    rw [look_bind]
    cases held : (e.thread t).txn with
    | none =>
      rw [held] at busy
      exact absurd rfl busy
    | some x =>
      obtain ⟨-, rfl, -⟩ := core.life.txn t x held
      exact walks_frame core h control own _ token

theorem walks_enter (own : ∀ f, e.foreign.lookup c = some f → σ.Tracks e f.thread) :
    Walks (Entered c) σ e (enter c e) := by
  refine walks_bracket h fun τ b since outside => ?_
  have same := since.foreign c control
  have control1 := since.control.trans control
  rw [look_bind, same]
  cases found : e.foreign.lookup c with
  | some f =>
    dsimp only
    rw [pure_bind]
    refine walks_unbracket outside fun outside => ?_
    exact walks_join ((since.core core).alike (alike_giveUp b .bracket)) outside control1
      ((since.tracks _ (own f found)).congr rfl rfl le_rfl) _
  | none =>
    rw [found] at same
    refine .bind ((walks_register outside (by decide)).mono fun ρ out b1 joins => ?_)
    have foreign := (joins.foreign c control1).trans same
    cases out with
    | error v => exact .inr ⟨joins.closed v rfl, .inr ⟨joins.outside.holding, foreign⟩⟩
    | ok t =>
      obtain ⟨fresh, known, -⟩ := joins.thread t rfl
      have control2 := joins.control.trans control1
      have acts := acts_updateForeign (f := { thread := t }) control2 (.inr ⟨.inr fresh, known⟩)
      dsimp only
      rw [lift_done (updateForeign_run ..), pure_bind]
      refine .prepend acts (walks_unbracket (joins.outside.acts acts rfl) fun outside => ?_)
      refine walks_join ((joins.core (since.core core)).alike ?_) outside control2
        ⟨.inr fresh, known⟩ _
      exact (lull_foreign b1 _).alike.trans (alike_giveUp _ .bracket)

end

def Left (c : Nat) (e : Engine) (τ : Stance) (out : Except Raise α) (b : Engine) : Prop :=
  match out with
  | .ok _ => τ.Holding [] none
  | .error v => τ.Holding [] none ∨
    ∃ f x, e.foreign.lookup c = some f ∧ (e.thread f.thread).txn = some x ∧ Stuck x v τ b

theorem walks_retire (h : σ.Outside [] e) (control : σ.control = some c) (own : σ.Tracks e t)
    (token : Token) :
    Walks (Left c e0) σ e (retire c t token e) := by
  unfold retire
  split
  · rw [look_bind]
    split
    · exact .error (.inl h.holding)
    refine walks_bracket h fun τ b since outside => ?_
    have acts : Acts τ b τ { b with foreign := b.foreign.filter (·.1 != c) } := by
      refine acts_foreign (since.control.trans control)
        (fun d hd => by rw [lookup_forget, if_neg hd]) fun f hf => ?_
      rw [lookup_forget, if_pos rfl] at hf
      cases hf
    rw [Action.modify_bind]
    refine .prepend acts (walks_unbracket (outside.acts acts rfl) fun outside => ?_)
    refine (walks_unregister outside ((since.tracks t own).congr rfl rfl le_rfl)).mono
      fun ρ out a bare => ?_
    cases out with
    | ok => exact bare.holding
    | error => exact .inl bare.holding
  · exact .ok h.holding

theorem walks_settle (core : e.Core) (h : σ.Outside [] e) (control : σ.control = some c)
    (own : σ.Tracks e t) (found : e0.foreign.lookup c = some f)
    (same : f.thread = t ∧ e.thread t = e0.thread t) (started : Bool) (token : Token) :
    Walks (Left c e0) σ e (closeBracket c t token started e) := by
  cases started with
  | false => exact walks_retire h control own token
  | true =>
    rw [closeBracket, if_pos rfl, look_bind]
    cases held : (e.thread t).txn with
    | none => exact walks_retire h control own token
    | some x =>
      obtain ⟨-, mine, -⟩ := core.life.txn t x held
      refine .bind ((walks_commit core h (by rwa [mine])).keeps.mono fun ρ out a post => ?_)
      obtain ⟨settled, control', own'⟩ := post
      cases out with
      | error =>
        refine settled.imp And.left fun stuck => ⟨f, x, found, ?_, stuck⟩
        rw [same.1, ← same.2, held]
      | ok refused =>
        cases refused with
        | some => exact .error (.inl settled.1.holding)
        | none => exact walks_retire settled.1 (control'.trans control) (own' t own) token

theorem walks_leave (core : e.Core) (h : σ.Outside [] e) (control : σ.control = some c)
    (own : ∀ f, e.foreign.lookup c = some f → σ.Tracks e f.thread) (token : Token) :
    Walks (Left c e) σ e (leave c token e) := by
  refine walks_bracket h fun τ b since outside => ?_
  rw [look_bind, since.foreign c control]
  refine walks_unbracket outside fun outside => ?_
  cases found : e.foreign.lookup c with
  | none => exact .error (.inl outside.holding)
  | some f =>
    obtain ⟨t, _ | ⟨started, rest⟩⟩ := f
    · exact .error (.inl outside.holding)
    · have own := own _ found
      have acts := acts_updateForeign (f := ⟨t, rest⟩) (σ := τ.drop .bracket)
        (e := b.giveUp .bracket)
        (since.control.trans control) (.inl ⟨_, (since.foreign c control).trans found, rfl⟩)
      have alike := (alike_giveUp b .bracket).trans
        (lull_foreign _ (setForeign c ⟨t, rest⟩ b.foreign)).alike
      have outside := outside.acts acts rfl
      dsimp only
      rw [lift_done (updateForeign_run ..)]
      refine .prepend acts ?_
      split
      · exact .error (.inl outside.holding)
      · refine walks_settle ((since.core core).alike alike) outside (since.control.trans control)
          ((since.tracks t own).congr rfl rfl le_rfl) found ⟨rfl, ?_⟩ started token
        rw [← since.thread t own]
        exact alike.thread t

end Bracket
end TxHeap
