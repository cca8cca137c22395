import TxHeap.Proofs.Call.Lifecycle
import TxHeap.Proofs.Life.Pauses

/-! How transactions end in outline. A rollback or a commit lets the thread go and empties its
tables, and what was in the one that matters is called once the engine's mutex is given up. -/

namespace TxHeap
open Engine TxHeap.Action

variable {v : Raise} {e : Engine} {phase : Phase}

section Outlines
variable {E : Raise → Prop} {x : TxnId}

theorem poised_counters (f : Counters → Counters) : Preserves E Poised (updateCounters f) :=
  ⟨fun _ => ⟨rfl, rfl⟩⟩

theorem poised_countConflict (x : TxnId) (r : Ref) (kind : String) :
    Preserves E Poised (countConflict x r kind) :=
  .get fun _ => .bind (.log _) fun _ => poised_counters _

def Engine.Unwilling (e : Engine) (x : TxnId) (cause : Error) (v : Raise) : Prop :=
  v.BadObject ∨ (e.txn x).phase = .inevitable ∧ v = e.Refusal x cause

theorem Engine.Unwilling.plain {cause : Error} (h : e.Unwilling x cause v) : v.Plain := by
  obtain badObject | ⟨-, rfl⟩ := h
  · exact badObject.plain
  · exact id

variable (sound : e.outline.Sound) (held : (e.thread (e.txn x).thread).txn = some x)
include sound held

theorem finish_outline {e1 : Engine} (same : Poised e e1) (phase : Phase) :
    ∃ e', finish x phase (e1.setThread (e.txn x).thread fun th =>
      { th with onAbort := .empty, onCommit := .empty }) = .ok () e' ∧
      e'.outline = e.outline.ended x phase ∧ e'.locked = e.locked := by
  have own := (txn_of_outline same.outline x).1
  have life := life_of_outline same.outline (e.txn x).thread
  obtain ⟨known, -, -, seat, -⟩ := sound.held _ x held
  have lt : (e.txn x).thread < e1.threads.size := by
    rw [threads_size_of_outline same.outline]
    exact sound.lt (by rw [show (e.outline.thread _).txn = some x from held]; nofun)
  obtain ⟨k, seat⟩ := Option.isSome_iff_exists.1 seat
  refine ⟨_, finish_run own (k := k) ?_, ?_, ?_⟩
  · rw [thread_setThread, if_pos ⟨rfl, lt⟩]
    exact (congrArg Life.segment life).trans seat
  · rw [outline_finished (by rwa [txns_size_of_outline same.outline]) lt own, same.outline]
  · rw [← same.locked]
    simp [finished]

theorem discard_outline (loose : ∀ t, .stack t ∉ e.locked) (cause : Error) :
    (discard x cause e).Finishes
    (fun callbacks e' => e'.outline = e.outline.ended x .aborted ∧ e'.locked = e.locked ∧
      callbacks = (e.outline.thread (e.txn x).thread).due .aborted ∧ (e.txn x).phase ≠ .inevitable)
      fun v e' => e.Unwilling x cause v ∧ Poised e e' := by
  unfold discard
  rw [look_bind]
  split
  · next inevitable => exact ⟨.inr ⟨by simpa using inevitable, rfl⟩, .refl e⟩
  next evitable =>
  dsimp only
  rw [look_bind, look_bind, look_bind]
  refine .bind (.lift (((quiet_freeAll _).ends e).mono (fun _ e1 same1 => ?_) fun v e1 post =>
    ⟨.inl post.1, post.2⟩))
  refine .bind (.lift (((quiet_resetNursery _).ends e1).mono (fun _ e2 same2 => ?_) fun v e2 post =>
    ⟨.inl post.1, same1.trans post.2⟩))
  rw [lift_done (updateSegment_run ..)]
  have same3 : Poised e (e2.setSegment (e.txn x).segment fun s => { s with weakrefs := #[] }) :=
    (same1.trans same2).trans ⟨rfl, rfl⟩
  generalize e2.setSegment _ _ = e3 at same3 ⊢
  rw [bind_done (lock_free (by rw [same3.locked]; exact loose _)), look_bind,
    lift_done (updateThread_run ..),
    unlock_bind, giveUp_setThread_acquire, txn_acquire]
  have same : Poised e (e3.setThread (e.txn x).thread fun th =>
    { th with stack := (e3.txn x).stackAtBegin }) :=
    same3.trans (Hushed.poised (hushed_setThread _ fun _ => ⟨rfl, rfl, rfl, rfl, rfl⟩))
  generalize e3.setThread _ _ = e4 at same ⊢
  obtain ⟨e5, finished, outline, locked⟩ := finish_outline sound held same .aborted
  rw [look_bind, lift_done (clearTables_run ..), lift_done finished]
  refine ⟨outline, locked, ?_, by simpa using evitable⟩
  have life := life_of_outline same.outline (e.txn x).thread
  exact congrArg (fun l : Life => l.onAbort.entries.map (·.2)) life

theorem settleCommit_outline :
    Ends (settleCommit x) e (fun done e' => e'.outline = e.outline.ended x .committed ∧
    e'.locked = e.locked ∧ done.callbacks = (e.outline.thread (e.txn x).thread).due .committed)
    fun v e' => v.BadObject ∧ Poised e e' := by
  refine .get_bind
    (.get_bind (.bind (((quiet_publishAll x).ends e).mono (fun version e1 same1 => ?_)
    fun _ _ => id)))
  have finished : ∀ e2, Poised e e2 → ∀ g : Unit → EngineM Committed,
      (∀ b, ∃ done, g () b = .ok done b ∧
        done.callbacks = (e2.thread (e.txn x).thread).onCommit.entries.map (·.2)) →
      Ends (finish x .committed >>= g)
        (e2.setThread (e.txn x).thread fun th => { th with onAbort := .empty, onCommit := .empty })
        (fun done e' => e'.outline = e.outline.ended x .committed ∧ e'.locked = e.locked ∧
          done.callbacks = (e.outline.thread (e.txn x).thread).due .committed) fun v e' =>
            v.BadObject ∧ Poised e e' := by
    intro e2 same g last
    obtain ⟨e3, finished, outline, locked⟩ := finish_outline sound held same .committed
    obtain ⟨done, returns, callbacks⟩ := last e3
    refine .of_ok (by rw [bind_ok finished, returns]) ⟨outline, locked, callbacks.trans ?_⟩
    exact congrArg (fun l : Life => l.onCommit.entries.map (·.2))
      (life_of_outline same.outline (e.txn x).thread)
  refine .get_bind (.bind (.of_ok (modify_run _) ?_))
  refine .bind (.of_ok (updateSegment_run ..) (.get_bind ?_))
  dsimp only
  split
  · refine .bind (.of_ok (modify_run _) ?_)
    refine .bind (.of_ok (updateCounters_run ..) ?_)
    refine .bind (.of_ok (updateCounters_run ..) (.get_bind ?_))
    refine .bind (.of_ok (clearTables_run ..) (.get_bind (.get_bind (.get_bind ?_))))
    refine finished _ ?_ _ fun b => ⟨_, rfl, rfl⟩
    exact same1.trans ⟨rfl, rfl⟩
  · refine .bind (.of_ok (updateCounters_run ..) (.get_bind ?_))
    refine .bind (.of_ok (clearTables_run ..) (.get_bind (.get_bind (.get_bind ?_))))
    refine finished _ ?_ _ fun b => ⟨_, rfl, rfl⟩
    exact same1.trans ⟨rfl, rfl⟩

end Outlines

variable {α β : Type} {L : Licence} {p q r : Point} {x : TxnId} {t : ThreadId}
  {P : CallPart → Post β}

structure Ready (L : Licence) (p : Point) (x : TxnId) : Prop where
  lic : Licensed L p
  first : p.ended = none
  unspent : p.spent = false
  tends : p.Tends x
  may : L.ends (p.here.txn x).thread

/-- The call has ended a transaction of `t` and has called back. If there was nothing to call, the
thread is free and the foreign entry as it was; else the call relies on what has been found. -/
structure Rejoined (L : Licence) (p : Point) (t : ThreadId) (q : Point) :
    Prop extends Later p q where
  since : ∃ a : Engine, ((a.thread t).txn = none ∧
    (∀ c, L.control = some c → a.foreign.lookup c = p.here.foreign.lookup c) ∨
    L.back a ∧ q.spent = true) ∧ (q.here.thread t).life = (a.thread t).life ∧
    ∀ c, L.control = some c → q.here.foreign.lookup c = a.foreign.lookup c

namespace Rejoined

theorem along (h : Rejoined L p t q) (tracks : p.Tracks t) (along : Along L q r) :
    Rejoined L p t r := by
  obtain ⟨a, found, life, foreign⟩ := h.since
  exact ⟨h.toLater.trans along.toLater, a, found.imp id (.imp id along.spent),
    (along.life t (h.tracks t tracks)).trans life,
    fun c hc => (along.foreign c hc).trans (foreign c hc)⟩

theorem since_along (h : Rejoined L q t r) (along : Along L p q) : Rejoined L p t r := by
  obtain ⟨a, found, life, foreign⟩ := h.since
  refine ⟨along.toLater.trans h.toLater, a, found.imp (fun kept => ⟨kept.1, fun c hc => ?_⟩) id,
    life, foreign⟩
  exact (kept.2 c hc).trans (along.foreign c hc)

theorem kept (h : Rejoined L p t q) (unspent : q.spent = false) :
    ∀ c, L.control = some c → q.here.foreign.lookup c = p.here.foreign.lookup c := by
  obtain ⟨a, ⟨-, kept⟩ | ⟨-, spent⟩, -, foreign⟩ := h.since
  · exact fun c hc => (foreign c hc).trans (kept c hc)
  · rw [unspent] at spent
    cases spent

end Rejoined

namespace Ready
section
variable (h : Ready L p x)
include h

theorem keep (same : e.outline = p.here.outline)
    (locks : ∀ t, .stack t ∈ e.locked → .engine ∈ e.locked) : Ready L (p.go e) x where
  lic := h.lic.keep same locks
  first := h.first
  unspent := h.unspent
  tends := h.tends.keep same
  may := by
    rw [Point.here_go, (txn_of_outline same x).1]
    exact h.may

theorem poised (same : Poised p.here e) : Ready L (p.go e) x :=
  h.keep same.outline (by rw [same.locked]; exact h.lic.locks)

theorem onward (lic : Licensed L q) (onward : Onward L p q) : Ready L q x where
  lic := lic
  first := onward.none h.first
  unspent := (onward.unspent h.first).trans h.unspent
  tends := onward.tends h.lic h.tends
  may := by
    rw [(onward.blanks h.lic h.tends).keeps.thread]
    exact h.may

theorem finish (how : (p.here.txn x).phase.EndsIn phase)
    (same : e.outline = p.here.outline.ended x phase)
    (locks : ∀ t, .stack t ∈ e.locked → .engine ∈ e.locked) :
    Licensed L ⟨p.toCallPart,
      some ⟨x, phase, (p.here.outline.thread (p.here.txn x).thread).due phase⟩, e⟩ := by
  have turns := h.lic.turns
  rw [h.first] at turns
  exact ⟨by rw [same]; exact .finish turns h.unspent h.tends.held how h.may, h.lic.sound, locks⟩

theorem callsBack {y : EngineCall β} (settles : L.SettlesAt p.here.foreign) (mute : Action.Mute y)
    (how : (p.here.txn x).phase.EndsIn phase) (same : e.outline = p.here.outline.ended x phase)
    (locks : ∀ t, .stack t ∈ e.locked → .engine ∈ e.locked)
    (next : ∀ q, Licensed L q → Rejoined L p (p.here.txn x).thread q → q.Clear L →
      (q.here.txn x).phase = phase →
      Turning L P q.toCallPart (y q.here)) :
    Turning L P p.toCallPart
    ((callAll ((p.here.outline.thread (p.here.txn x).thread).due phase) >>= fun _ => y) e) := by
  have foreign := congrArg Outline.foreign same
  have lic := h.finish how same locks
  have later : Later p ⟨p.toCallPart,
      some ⟨x, phase, (p.here.outline.thread (p.here.txn x).thread).due phase⟩, e⟩ := by
    refine ⟨id, fun t ht => ⟨ht.acting, ?_⟩, ?_⟩
    · exact Nat.lt_of_lt_of_eq ht.known (congrArg Outline.threads same).symm
    · exact same ▸ .of_held h.lic.outline h.tends.held
  have record : (e.outline.txn x).2 = phase := by rw [same, Outline.txn_ended]
  refine turning_callAll lic rfl mute (settles.congr fun c _ => congrArg (List.lookup c) foreign)
    fun q lic' onward clear back => ?_
  have ages := later.ages.trans onward.ages
  have known := (h.lic.outline.held _ x h.tends.held).1.trans_le later.ages.txns
  refine next q lic' ⟨later.trans onward, q.here, ?_, rfl, fun _ _ => rfl⟩ clear ?_
  · obtain rfl | back := back
    · refine .inl ⟨?_, fun c _ => congrArg (List.lookup c) foreign⟩
      change (e.outline.thread (p.here.outline.txn x).1).txn = none
      rw [same, Outline.thread_ended]
    · exact .inr back
  · exact (onward.ages.past x known (by rw [record]; exact how.past)).trans record

theorem rollsBack {y : EngineCall β} (inner : p.here.Inner) (settles : L.SettlesAt p.here.foreign)
    (mute : Action.Mute y) (cause : Error)
    (error : ∀ v e, p.here.Unwilling x cause v → Poised p.here e → P p.toCallPart (.error v) e)
    (next : ∀ q, Licensed L q → Rejoined L p (p.here.txn x).thread q → q.Clear L →
      (q.here.txn x).phase = .aborted →
      Turning L P q.toCallPart (y q.here)) :
    Turning L P p.toCallPart ((do
      let callbacks ← discard x cause
      liftM (unlock .engine)
      callAll callbacks
      y : EngineCall β) p.here) := by
  have ends := discard_outline h.lic.outline h.tends.held inner.loose cause
  rw [bind_run]
  generalize discard x cause p.here = course at ends
  cases course with
  | done callbacks e =>
    obtain ⟨same, locked, rfl, evitable⟩ := ends
    rw [Course.bind_done, unlock_bind]
    exact h.callsBack settles mute (.inr ⟨rfl, evitable⟩) same
      (fun t taken => absurd (locked ▸ List.mem_of_mem_erase taken) (inner.loose t)) next
  | raised v e => exact .error h.lic (.of_none h.first) ends.2.outline (error v e ends.1 ends.2)
  | waiting | calling => exact ends.elim

end
end Ready

theorem turning_check {f : Unit → EngineCall β} (lic : Licensed L p) (clear : p.Clear L)
    (refused : (p.here.thread (p.here.txn x).thread).txn ≠ some x →
      P p.toCallPart (.error (.violation (.noTransaction (p.here.txn x).phase))) p.here)
    (next : (p.here.thread (p.here.txn x).thread).txn = some x →
      Turning L P p.toCallPart (f () p.here)) :
    Turning L P p.toCallPart ((liftM (check x) >>= f) p.here) := by
  by_cases held : (p.here.thread (p.here.txn x).thread).txn = some x
  · have run : check x p.here = .ok () p.here := by
      have active : (p.here.txn x).phase.isActive = true := (lic.outline.held _ x held).2.2.1
      simp [check, heldBy, held, active]
    rw [lift_done run]
    exact next held
  · have run : check x p.here = .error
        (.violation (.noTransaction (p.here.txn x).phase)) p.here := by
      rw [check, get_bind, get_bind, heldBy, beq_false_of_ne held]
      rfl
    rw [lift_bind_error run]
    exact .error lic clear rfl (refused held)

theorem turning_abortWith {f : α → EngineCall β} (h : Ready L p x)
    (settles : L.SettlesAt p.here.foreign) (cause : Error)
    (unwilling : ∀ v e, p.here.Unwilling x cause v → P p.toCallPart (.error v) e)
    (unwound : ∀ z e, P z (.error (.abort cause)) e) :
    Turning L P p.toCallPart ((abortWith x cause >>= f) p.here) := by
  unfold abortWith rollBack
  simp only [bind_assoc]
  refine turning_engine h.lic (.of_none h.first) fun free lic inner => ?_
  have ready : Ready L (p.go (p.here.acquire .engine)) x := h.keep rfl lic.locks
  refine ready.rollsBack inner settles ?_ cause (fun v e why _ => unwilling v e why)
    fun q lic _ clear _ => ?_
  · exact ⟨fun _ => rfl⟩
  · exact .error lic clear rfl (unwound _ _)

/-- Why a commit fails with its transaction running: it has met something that is no object, or
there is no room for one that cannot abort. -/
def Engine.Obstructed (e : Engine) (x : TxnId) (v : Raise) : Prop :=
  v.BadObject ∨ (e.txn x).phase = .inevitable ∧ ∃ cause : Error, cause.matchesError .heapExhausted =
    true ∧ v = e.Refusal x cause

theorem Engine.Obstructed.plain (h : e.Obstructed x v) : v.Plain := by
  obtain badObject | ⟨-, _, -, rfl⟩ := h
  · exact badObject.plain
  · exact id

section Committing
variable {f : Option Error → EngineCall β}

def Resolved (x : TxnId) (e : Engine) (answer : Option Error) (e' : Engine) : Prop :=
  match answer with
  | none => (e'.txn x).phase = .committed
  | some _ => (e'.txn x).phase = .aborted ∧ (e.txn x).phase ≠ .inevitable

variable (settles : L.SettlesAt p.here.foreign) (mute : ∀ answer, Action.Mute (f answer))
  (next : ∀ q answer, Licensed L q → Rejoined L p (p.here.txn x).thread q → q.Clear L →
    Resolved x p.here answer q.here →
    Turning L P q.toCallPart (f answer q.here))
include settles mute next

section
variable (h : Ready L p x) (inner : p.here.Inner)
include h inner

theorem turning_refuse (cause : Error)
    (fails : ∀ v e, p.here.Unwilling x cause v → Poised p.here e → P p.toCallPart (.error v) e) :
    Turning L P p.toCallPart ((refuse x cause >>= f) p.here) := by
  unfold refuse
  simp only [bind_assoc]
  by_cases inevitable : (p.here.txn x).phase = .inevitable
  · have run : discard x cause p.here = .raised (p.here.Refusal x cause) p.here := by
      unfold discard
      rw [look_bind, if_pos (by simp [inevitable])]
      rfl
    rw [bind_run, run]
    exact .error h.lic (.of_none h.first) rfl (fails _ _ (.inr ⟨inevitable, rfl⟩) (.refl _))
  · refine h.rollsBack inner settles ?_ cause fails fun q lic joined clear phase => ?_
    · exact mute _
    · exact next q (some cause) lic joined clear ⟨phase, inevitable⟩

theorem turning_succeed (fails : ∀ v e, v.BadObject → Poised p.here e → P p.toCallPart (.error v) e)
    (late : ∀ q v, Rejoined L p (p.here.txn x).thread q →
      Hindered (.thread (p.here.txn x).thread) v q.here → P q.toCallPart (.error v) q.here) :
    Turning L P p.toCallPart ((succeed x (p.here.txn x).thread >>= f) p.here) := by
  have ends := settleCommit_outline h.lic.outline h.tends.held
  unfold succeed
  simp only [bind_assoc]
  unfold Ends at ends
  split at ends
  · next done e run =>
    obtain ⟨same, locked, callbacks⟩ := ends
    rw [lift_done run, unlock_bind, lift_done (logInfo_run ..), callbacks]
    refine h.callsBack settles ?_ (.inl rfl) same ?_ fun q lic joined clear phase => ?_
    · exact .bind (.ite ((mute_collectIfDue _).bind fun _ => .pure _) (.pure _)) mute
    · intro t taken
      refine absurd (List.mem_of_mem_erase taken) ?_
      rw [locked]
      exact inner.loose t
    · have known := (h.lic.outline.held _ x h.tends.held).1.trans_le joined.ages.txns
      have settled : ∀ r, Along L q r → Rejoined L p (p.here.txn x).thread r :=
        fun _ along => joined.along (h.lic.tracks h.tends) along
      split
      · rw [bind_assoc]
        refine turning_collectIfDue lic clear (L.collects _ h.may) (mute none)
          (fun r v along why => late r v (settled r along) why)
          fun r lic' along clear' => next r none lic' (settled r along) clear' ?_
        exact (along.ages.past x known
          (by rw [show (q.here.outline.txn x).2 = _ from phase]; rfl)).trans phase
      · exact next q none lic joined clear phase
  · next v e run =>
    rw [lift_bind_error run]
    exact .error h.lic (.of_none h.first) ends.2.outline (fails v e ends.1 ends.2)

theorem turning_commitAlone (whole : p.here.Whole)
    (fails : ∀ v e, p.here.Obstructed x v → e.outline = p.here.outline →
      P p.toCallPart (.error v) e)
    (late : ∀ q v, Rejoined L p (p.here.txn x).thread q →
      Hindered (.thread (p.here.txn x).thread) v q.here → P q.toCallPart (.error v) q.here) :
    Turning L P p.toCallPart ((commitAlone x (p.here.txn x).thread >>= f) p.here) := by
  have minor := collectMinor_spec whole.core (h.lic.active h.tends) (inner.loose _) (whole.weak _)
  unfold commitAlone
  rw [bind_assoc]
  refine turning_smooth h.lic inner (.of_none h.first) (smooth_collectMinor x)
    (fun failure e run same => ?_) fun v e badObject same => fails v e (.inl badObject) same
  rw [run] at minor
  obtain ⟨minor, -, known⟩ := minor
  have own : ∀ {e}, Poised p.here e → (e.txn x).thread = (p.here.txn x).thread ∧
      (e.txn x).phase = (p.here.txn x).phase :=
    fun same => txn_of_outline same.outline x
  have along : ∀ {e}, Poised p.here e → Along L p (p.go e) := fun same => .keep same.outline
  have resolved : ∀ {e}, Poised p.here e → ∀ q answer, Licensed L q →
      Rejoined L (p.go e) (e.txn x).thread q → q.Clear L →
      Resolved x e answer q.here → Turning L P q.toCallPart (f answer q.here) := by
    intro e same q answer lic joined clear post
    refine next q answer lic ((own same).1 ▸ joined.since_along (along same)) clear ?_
    cases answer with
    | none => exact post
    | some => exact ⟨post.1, (own same).2 ▸ post.2⟩
  have kept : ∀ {e}, Poised p.here e → L.SettlesAt e.foreign := fun same =>
    settles.congr fun c _ => congrArg (List.lookup c) (congrArg Outline.foreign same.outline)
  cases failure with
  | some cause =>
    refine turning_refuse (kept same) mute (resolved same) (h.poised same)
      (inner.congr same.locked) cause fun v e' why same' => ?_
    refine fails v e' (why.imp id fun why => ⟨(own same).2 ▸ why.1, cause, known cause rfl, ?_⟩)
      (same'.outline.trans same.outline)
    rw [why.2, Point.here_go, Refusal, Refusal, minor.serves.works.own.reason]
  | none =>
    rw [bind_assoc]
    have looks := (looks_validate? (E := Raise.BadObject) x).ends e
    unfold Ends at looks
    split at looks
    · next stale e1 valid =>
      subst looks
      rw [lift_done valid]
      cases stale with
      | some =>
        have running : (p.here.txn x).phase ≠ .inevitable := by
          intro inevitable
          rw [validate?, get_bind, (own same).2, inevitable] at valid
          cases valid
        rw [bind_assoc]
        refine turning_work (h.poised same).lic (.of_none h.first)
          (poised_countConflict ..) (fun _ e2 _ same2 => ?_) fun v e2 badObject same2 =>
            fails v e2 (.inl badObject) (same2.outline.trans same.outline)
        replace same2 := same.trans same2
        refine turning_refuse (kept same2) mute (resolved same2) (h.poised same2)
          (inner.congr same2.locked) .conflict
          fun v e' why same' => fails v e' (why.imp id fun why => ?_)
            (same'.outline.trans same2.outline)
        exact absurd ((own same2).2.symm.trans why.1) running
      | none =>
        have late' := late
        rw [← (own same).1] at late' ⊢
        exact turning_succeed (p := p.go e1) (kept same) mute (resolved same) (h.poised same)
          (inner.congr same.locked)
          (fun v e' badObject same' => fails v e' (.inl badObject)
            (same'.outline.trans same.outline))
          fun q v joined why => late' q v (joined.since_along (along same)) why
    · next v e1 invalid =>
      rw [lift_bind_error invalid]
      obtain ⟨badObject, rfl⟩ := looks
      exact .error h.lic (.of_none h.first) same.outline (fails v e1 (.inl badObject) same.outline)

end

theorem turning_commit (lic : Licensed L p) (first : p.ended = none) (unspent : p.spent = false)
    (orderly : p.here.Orderly)
    (acting : p.Acting (p.here.txn x).thread) (may : L.ends (p.here.txn x).thread)
    (refused : (p.here.thread (p.here.txn x).thread).txn ≠ some x →
      P p.toCallPart (.error (.violation (.noTransaction (p.here.txn x).phase))) p.here)
    (fails : ∀ q v e, Onward L p q → q.here.Obstructed x v → e.outline = q.here.outline →
      P q.toCallPart (.error v) e)
    (late : ∀ q v, Rejoined L p (p.here.txn x).thread q →
      Hindered (.thread (p.here.txn x).thread) v q.here → P q.toCallPart (.error v) q.here) :
    Turning L P p.toCallPart ((commit x >>= f) p.here) := by
  unfold commit
  simp only [bind_assoc]
  refine turning_check lic (.of_none first) refused fun held => ?_
  have ready : Ready L p x := ⟨lic, first, unspent, ⟨acting, held⟩, may⟩
  rw [look_bind]
  refine turning_engine lic (.of_none first) fun free lic1 inner1 => ?_
  have whole1 : (p.here.acquire .engine).Whole :=
    ⟨orderly.core.alike (alike_acquire ..), fun k => (orderly.weak free k).alike (alike_acquire ..)⟩
  refine turning_park lic1 inner1 (.of_none first) fun q lic2 onward2 inner2 whole2 _ => ?_
  replace onward2 := Onward.acquire.trans onward2
  have alone : ∀ r, Licensed L r → Onward L p r → r.here.Inner → r.here.Whole →
      Turning L P r.toCallPart ((commitAlone x (p.here.txn x).thread >>= f) r.here) := by
    intro r lic3 onward3 inner3 whole3
    have ready3 := ready.onward lic3 onward3
    have blanks := (onward3.blanks lic ready.tends).keeps
    rw [← blanks.thread]
    refine turning_commitAlone (settles.congr onward3.foreign) mute
      (fun q answer lic joined clear post => ?_) ready3 inner3 whole3
      (fun v e why same => fails r v e onward3 why same) fun q v joined why => ?_
    · refine next q answer lic (blanks.thread ▸ joined.since_along onward3.along) clear ?_
      cases answer with
      | none => exact post
      | some => exact ⟨post.1, blanks.phase ▸ post.2⟩
    · exact late q v (blanks.thread ▸ joined.since_along onward3.along) (blanks.thread ▸ why)
  rw [look_bind]
  split
  · rw [bind_assoc]
    refine turning_awaited lic2 inner2 (.of_none (onward2.none first))
      fun r lic3 onward3 inner3 whole3 => ?_
    exact alone r lic3 (onward2.trans onward3) inner3 (whole3 (whole2 whole1))
  · exact alone q lic2 onward2 inner2 (whole2 whole1)

end Committing
end TxHeap
