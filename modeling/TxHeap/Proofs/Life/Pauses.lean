import TxHeap.Proofs.Life.Turning
import TxHeap.Proofs.Sync.Ending

/-! Pauses in outline. Whoever asks for one waits for those of others, and has its own when it goes
on. -/

namespace TxHeap
open Engine TxHeap.Action

variable {e : Engine}

section Ending
variable {σ α β : Type} {s s' : σ} {last : EStateM Raise σ Unit}

theorem Action.ending_look (h : σ → α) (g : α → Action σ β) :
    Action.ending (look h >>= g) last = look h >>= fun a => (g a).ending last := rfl

theorem Action.ending_ok {y : EStateM Raise σ α} {g : α → Action σ β} {a : α}
    (run : y s = .ok a s') :
    Action.ending (liftM y >>= g) last s = (g a).ending last s' := by
  rw [ending, lift_done run]
  rfl

theorem Action.ending_pure (a : α) (run : last s = .ok () s') :
    Action.ending (pure a) last s = .done a s' := by
  change Action.ending (fun s => .done a s) last s = _
  simp [Action.ending, Course.bindOutcome, run]

theorem Action.ending_raised {y : Action σ α} {v : Raise} (h : y s = .raised v s') {s'' : σ}
    (run : last s' = .ok () s'') :
    y.ending last s = .raised v s'' := by
  simp [Action.ending, h, Course.bindOutcome, run]

theorem Action.ending_done {y : Action σ α} {a : α} (h : y s = .done a s') {s'' : σ}
    (run : last s' = .ok () s'') :
    y.ending last s = .done a s'' := by
  simp [Action.ending, h, Course.bindOutcome, run]

theorem ending_park (who : Caller) (g : Unit → EngineCall α) (last : EngineM Unit) :
    (park who >>= g).ending last = park who >>= fun u => (g u).ending last := by
  funext e
  rw [ending, bind_run, bind_run, park]
  split <;> rfl

theorem ending_await (who : Caller) (goal : Goal) (g : Unit → EngineCall α) (last : EngineM Unit) :
    (await who goal >>= g).ending last = await who goal >>= fun u => (g u).ending last := by
  funext e
  rw [ending, bind_run, bind_run, await]
  split <;> rfl

end Ending

variable {α β : Type} {L : Licence} {p q r : Point} {t : ThreadId} {who : Caller} {mode : PauseMode}
  {P : CallPart → Post β}

structure Along (L : Licence) (p q : Point) : Prop extends Later p q where
  life : ∀ t, p.Tracks t → (q.here.thread t).life = (p.here.thread t).life
  foreign : ∀ c, L.control = some c → q.here.foreign.lookup c = p.here.foreign.lookup c

theorem Later.trans (h : Later p q) (h' : Later q r) : Later p r :=
  ⟨fun spent => h'.spent (h.spent spent), fun t ht => h'.tracks t (h.tracks t ht),
    h.ages.trans h'.ages⟩

namespace Along

theorem trans (h : Along L p q) (h' : Along L q r) : Along L p r where
  toLater := h.toLater.trans h'.toLater
  life t ht := (h'.life t (h.tracks t ht)).trans (h.life t ht)
  foreign c hc := (h'.foreign c hc).trans (h.foreign c hc)

theorem pause (pauser : Option Caller) (same : e.outline = { p.here.outline with pauser }) :
    Along L p (p.go e) where
  spent := id
  tracks t ht := ⟨ht.acting, Nat.lt_of_lt_of_eq ht.known (congrArg Outline.threads same).symm⟩
  ages := by
    rw [Point.here_go, same]
    exact ⟨le_rfl, le_rfl, fun _ _ _ => rfl⟩
  life t _ := congrFun (congrArg Outline.thread same) t
  foreign c _ := congrArg (List.lookup c) (congrArg Outline.foreign same)

theorem keep (same : e.outline = p.here.outline) : Along L p (p.go e) := pause p.here.pauser same

end Along

theorem Onward.along (h : Onward L p q) : Along L p q :=
  ⟨h.toLater, fun t ht => by rw [h.thread t ht], h.foreign⟩

theorem endPause_run (own : e.pauser = some who) : endPause who e = .ok () e.resumed := by
  simp [endPause, own, resumed]

theorem checkOpen_ok (h : e.closed = false) : checkOpen e = .ok () e := by
  simp [checkOpen, h]

theorem checkOpen_closed (h : e.closed = true) :
    checkOpen e = .error (.violation .engineClosed) e := by
  rw [checkOpen, get_bind, h]
  rfl

section Asking
variable {g : Unit → EngineCall α} {f : α → EngineCall β}

/-- A pause is asked for, with the engine's mutex given up later. Unless that fails, it is in effect
when the call goes on. -/
theorem turning_beginPause (lic : Licensed L p) (inner : p.here.Inner) (clear : p.Clear L)
    (asks : L.asks who) (mute : Action.Mute (g ())) (last : ∀ a, Action.Mute (f a))
    (nested : ∀ q, Onward L p q → q.here.pauser = some who →
      P q.toCallPart (.error (.violation (.nestedPause who))) (q.here.giveUp .engine))
    (next : ∀ q, Licensed L q → Along L p q → q.Clear L → q.here.Inner → q.here.Stopped who mode →
      Turning L P q.toCallPart (((g ()).ending (unlock .engine) >>= f) q.here)) :
    Turning L P p.toCallPart
    (((beginPause who mode >>= g).ending (unlock .engine) >>= f) p.here) := by
  unfold beginPause
  simp only [bind_assoc]
  rw [ending_park, bind_assoc]
  refine turning_park lic inner ⟨clear, fun _ => ?_⟩ fun q lic onward inner _ free => ?_
  · refine Action.Mute.bind
      (.ending (.look fun _ => Action.Mute.bind (.ite ?_ ?_) fun _ => mute) _) last
    · exact (Action.Mute.lift _).bind fun _ => (Action.Mute.modify _).bind fun _ => mute_await ..
    · exact (Action.Mute.modify _).bind fun _ => mute_await ..
  have clear := onward.clear clear
  rw [ending_look, bind_assoc, look_bind]
  split
  · next own =>
    exact .error lic clear rfl (nested q onward (by simpa using own))
  · next other =>
    have asked : Licensed L (q.go (q.here.paused who mode)) :=
      lic.turn (.pause (some who) (by rintro _ ⟨⟩; exact asks)) lic.locks
    have along : Along L q (q.go (q.here.paused who mode)) := .pause (some who) rfl
    change Turning L P (q.go (q.here.paused who mode)).toCallPart
      ((ending (await who .othersStopped >>= g) (unlock .engine) >>= f) (q.here.paused who mode))
    rw [ending_await, bind_assoc]
    have clear' := clear.congr (.inl rfl) along.foreign
    refine turning_await asked ⟨clear', fun _ => (mute.ending _).bind last⟩ (fun holds => ?_)
      fun r lic' onward' inner' _ stopped => ?_
    · exact next _ asked (onward.along.trans along) clear' (inner.congr rfl)
        ⟨rfl, rfl, by cases who <;> exact holds⟩
    · exact next r lic' (onward.along.trans (along.trans onward'.along))
        (onward'.clear clear') inner' (stopped rfl)

theorem turning_whilePaused {y : EngineCall α} (lic : Licensed L p) (inner : p.here.Inner)
    (clear : p.Clear L) (asks : L.asks who)
    (smooth : Smooth Raise.BadObject y) (mute : Action.Mute y) (last : ∀ a, Action.Mute (f a))
    (nested : ∀ q, Onward L p q → q.here.pauser = some who →
      P q.toCallPart (.error (.violation (.nestedPause who))) (q.here.giveUp .engine))
    (error : ∀ q v, Along L p q → v.BadObject → P q.toCallPart (.error v) q.here)
    (next : ∀ q a e e', Licensed L q → Along L p q → q.Clear L → e.Stopped who mode →
      y e = .done a e' →
      q.here = e'.resumed.giveUp .engine → Turning L P q.toCallPart (f a q.here)) :
    Turning L P p.toCallPart (((whilePaused who mode y).ending (unlock .engine) >>= f) p.here) := by
  refine turning_beginPause lic inner clear asks (mute.ending _) last nested
    fun q lic along clear inner stopped => ?_
  have ends := (smooth.ends q.here inner.loose).known
  rw [bind_run]
  cases run : y q.here with
  | done a e =>
    rw [run] at ends
    obtain ⟨same, -⟩ := ends
    have own := (congrArg Outline.pauser same.outline).trans stopped.pauser
    rw [ending_done (ending_done run (endPause_run own)) (unlock_run ..), Course.bind_done]
    have outline : (e.resumed.giveUp .engine).outline = { q.here.outline with pauser := none } := by
      rw [← same.outline]
      rfl
    have released : Licensed L (q.go (e.resumed.giveUp .engine)) := by
      refine lic.turn (outline ▸ .pause none (by rintro _ ⟨⟩)) fun t taken =>
        absurd (List.mem_of_mem_erase taken) ?_
      rw [show e.resumed.locked = q.here.locked from same.locked]
      exact inner.loose t
    have paused : Along L q (q.go (e.resumed.giveUp .engine)) := .pause none outline
    exact next _ a q.here e released (along.trans paused)
      (clear.congr (.inl rfl) paused.foreign) stopped run rfl
  | raised v e =>
    rw [run] at ends
    obtain ⟨⟨badObject, same, -⟩, -⟩ := ends
    have own := (congrArg Outline.pauser same).trans stopped.pauser
    rw [ending_raised (ending_raised run (endPause_run own)) (unlock_run ..), Course.bind_raised]
    have outline : (e.resumed.giveUp .engine).outline = { q.here.outline with pauser := none } := by
      rw [← same]
      rfl
    exact ⟨⟨q.ended, outline ▸ lic.turns.turn (.pause none (by rintro _ ⟨⟩)),
      fun d hd => (clear d hd).1⟩,
      error (q.go _) v (along.trans (.pause none outline)) badObject⟩
  | waiting | calling =>
    rw [run] at ends
    exact ends.elim

end Asking

section Collections

def Hindered (who : Caller) (v : Raise) (e : Engine) : Prop :=
  v.BadObject ∨ v = .violation (.nestedPause who) ∧ e.pauser = some who

theorem mute_whilePaused {y : EngineCall α} (mute : Action.Mute y) :
    Action.Mute (whilePaused who mode y) :=
  (mute_beginPause ..).bind fun _ => mute.ending _

theorem turning_collectIfDue {f : Unit → EngineCall β} (lic : Licensed L p) (clear : p.Clear L)
    (asks : L.asks (.thread t)) (mute : Action.Mute (f ()))
    (error : ∀ q v, Along L p q → Hindered (.thread t) v q.here → P q.toCallPart (.error v) q.here)
    (next : ∀ q, Licensed L q → Along L p q → q.Clear L → Turning L P q.toCallPart (f () q.here)) :
    Turning L P p.toCallPart ((collectIfDue t >>= f) p.here) := by
  have collects : Smooth Raise.BadObject
      (do if (← look fun e : Engine => e.majorDue) then collectOld) :=
    .look fun _ => .ite smooth_collectOld (.pure _)
  have quiet : Mute (do if (← look fun e : Engine => e.majorDue) then collectOld) :=
    .look fun _ => .ite mute_collectOld (.pure _)
  unfold collectIfDue withLock
  rw [bind_assoc]
  refine turning_engine lic ⟨clear, fun _ => ?_⟩ fun free lic' inner => ?_
  · refine .bind (.ending (.look fun _ => .look fun _ => .ite (mute_whilePaused quiet) (.pure _)) _)
      fun _ => mute
  have along : Along L p (p.go (p.here.acquire .engine)) :=
    Onward.along (.keep (alike_acquire ..) rfl)
  rw [ending_look, bind_assoc, look_bind, ending_look, bind_assoc, look_bind]
  split
  · refine turning_whilePaused lic' inner (clear.congr (.inl rfl) along.foreign) asks collects quiet
      (fun _ => mute) (fun q onward own => ?_)
      (fun q v along' badObject => error q v (along.trans along') (.inl badObject))
      fun q a e e' lic'' along' clear' _ _ _ => next q lic'' (along.trans along') clear'
    exact error (q.go (q.here.giveUp .engine)) _
      (along.trans (onward.along.trans (Onward.along (.keep (alike_giveUp ..) rfl))))
      (.inr ⟨rfl, own⟩)
  · rw [bind_done (ending_pure () (unlock_run ..))]
    have along' := along.trans
      (Onward.along (.keep (alike_giveUp (p.here.acquire .engine) .engine) rfl))
    exact next (p.go ((p.here.acquire .engine).giveUp .engine)) (lic'.giveUp inner) along'
      (clear.congr (.inl rfl) along'.foreign)

end Collections
end TxHeap
