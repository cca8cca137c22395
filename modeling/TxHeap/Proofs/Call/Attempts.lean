import TxHeap.Engine.Retry
import TxHeap.Proofs.Call.Abort
import TxHeap.Proofs.Sync.Quiet

/-! How calls come to an outcome among other calls. While a call waits or calls back, anything may
happen by which transactions stay known and stay as they ended. A play is one way to an outcome;
what holds of every play is shown along the course. -/

namespace TxHeap

variable {e' : Engine} {cause error : Error} {inevitable : Bool}
open Engine

variable {who : Caller}

variable {τ α β : Type}

def Wait.Lets (w : Wait) (e e' : Engine) : Prop := ∃ e1, Ages e e1 ∧ w.Grants e1 e'

theorem Wait.Lets.ages {w : Wait} {e : Engine} (h : w.Lets e e') : Ages e e' := by
  obtain ⟨e1, ages, grants⟩ := h
  refine ages.trans ?_
  cases w with
  | mutex m => rw [grants.2]; exact (alike_acquire e1 m).ages
  | backoff =>
    rw [grants]
    exact (Alike.refl e1).ages
  | pause => exact (Enters.alike grants).ages
  | goal | pauseInGoal => exact grants.1.alike.ages

namespace Course

inductive Comes : Course (Engine × τ) α → Except Raise α → Engine × τ → Prop
  | done (a : α) (s : Engine × τ) : Comes (.done a s) (.ok a) s
  | raised (r : Raise) (s : Engine × τ) : Comes (.raised r s) (.error r) s
  | waiting {w : Wait} {s s' : Engine × τ} {resume : Engine × τ → Course (Engine × τ) α}
      {out : Except Raise α}
      (s1 : Engine × τ) (lets : w.Lets s.1 s1.1) (next : Comes (resume s1) out s') :
        Comes (.waiting w s resume) out s'
  | calling {c : Callback} {s s' : Engine × τ}
      {resume : Except Raise Unit → Engine × τ → Course (Engine × τ) α}
      {out : Except Raise α} (r : Except Raise Unit) (s1 : Engine × τ) (ages : Ages s.1 s1.1)
      (next : Comes (resume r s1) out s') : Comes (.calling c s resume) out s'

/-- However the course of a call on the engine goes, it ends within `Q`. -/
def Leads (Q : Post α) : Course Engine α → Prop
  | .done a e => Q (.ok a) e
  | .raised r e => Q (.error r) e
  | .waiting w e resume => ∀ e', w.Lets e e' → Leads Q (resume e')
  | .calling _ e resume => ∀ r e', Ages e e' → Leads Q (resume r e')

namespace Comes
variable {s s' : Engine × τ} {out : Except Raise β}

theorem of_bindOutcome {c : Course (Engine × τ) α}
    {f : Except Raise α → Engine × τ → Course (Engine × τ) β}
    (h : (c.bindOutcome f).Comes out s') : ∃ o s1, c.Comes o s1 ∧ (f o s1).Comes out s' := by
  induction c with
  | done a s => exact ⟨.ok a, s, .done a s, h⟩
  | raised r s => exact ⟨.error r, s, .raised r s, h⟩
  | waiting w s resume ih =>
    cases h with
    | waiting s1 lets next =>
      obtain ⟨o, s2, comes, after⟩ := ih s1 next
      exact ⟨o, s2, .waiting s1 lets comes, after⟩
  | calling c s resume ih =>
    cases h with
    | calling r s1 ages next =>
      obtain ⟨o, s2, comes, after⟩ := ih r s1 next
      exact ⟨o, s2, .calling r s1 ages comes, after⟩

/-- A call that goes on with an answer first comes to that, or raises what its first part raises. -/
theorem of_bind {c : Course (Engine × τ) α} {f : α → Engine × τ → Course (Engine × τ) β}
    (h : (c.bind f).Comes out s') :
    (∃ a s1, c.Comes (.ok a) s1 ∧ (f a s1).Comes out s') ∨
    ∃ r, c.Comes (.error r) s' ∧ out = .error r := by
  rw [bind_eq_bindOutcome] at h
  obtain ⟨r | a, s1, comes, after⟩ := of_bindOutcome h
  · cases after
    exact .inr ⟨r, comes, rfl⟩
  · exact .inl ⟨a, s1, comes, after⟩

end Comes

namespace Leads
variable {Q Q' : Post α} {P : Post β} {c : Course Engine α}

theorem comes (h : c.Leads Q) {rest : τ} {out : Except Raise α} {s' : Engine × τ}
    (play : (c.beside rest).Comes out s') : Q out s'.1 := by
  induction c generalizing rest with
  | done | raised =>
    cases play
    exact h
  | waiting w e resume ih =>
    cases play with
    | waiting s1 lets next => exact ih s1.1 (h s1.1 lets) next
  | calling c e resume ih =>
    cases play with
    | calling r s1 ages next => exact ih r s1.1 (h r s1.1 ages) next

theorem mono (h : c.Leads Q) (hQ : ∀ out e, Q out e → Q' out e) : c.Leads Q' := by
  induction c with
  | done | raised => exact hQ _ _ h
  | waiting w e resume ih => exact fun e' lets => ih e' (h e' lets)
  | calling c e resume ih => exact fun r e' ages => ih r e' (h r e' ages)

protected theorem bind {f : α → Engine → Course Engine β}
    (h : c.Leads fun out e => (∀ a, out = .ok a → (f a e).Leads P) ∧ ∀ r, out = .error r →
      P (.error r) e) :
    (c.bind f).Leads P := by
  induction c with
  | done a => exact h.1 a rfl
  | raised r => exact h.2 r rfl
  | waiting w e resume ih => exact fun e' lets => ih e' (h e' lets)
  | calling c e resume ih => exact fun r e' ages => ih r e' (h r e' ages)

end Leads
end Course

namespace Action
variable {Q : Post β} {e : Engine} {f : α → EngineCall β}

theorem leads_lift {y : EngineM α}
    (h : Ends y e (fun a e' => (f a e').Leads Q) fun r e' => Q (.error r) e') :
    ((liftM y >>= f) e).Leads Q := by
  unfold Ends at h
  split at h
  · next run => rwa [lift_done run]
  · next run => rwa [lift_bind_error run]

theorem leads_quiet {y : EngineM α} (hy : Quiet y) (h : ∀ a e', Silent e e' → (f a e').Leads Q)
    (fails : ∀ r e', r.Fatal → Silent e e' → Q (.error r) e') : ((liftM y >>= f) e).Leads Q :=
  leads_lift ((hy.ends e).mono (fun a e' silent => h a e' silent) fun r e' past =>
    fails r e' past.1 past.2)

variable {g : Unit → EngineCall β}

section
variable (h : ∀ e', Ages e e' → (g () e').Leads Q)
include h

theorem leads_lock {m : Mutex} : ((lock m >>= g) e).Leads Q := by
  rw [bind_run, lock]
  split
  · exact fun e' lets => h e' lets.ages
  · exact h _ (alike_acquire e m).ages

theorem leads_park : ((park who >>= g) e).Leads Q := by
  rw [bind_run, park]
  split
  · refine fun e' lets => h e' (.trans ?_ lets.ages)
    exact ((alike_setLog _ _).trans (rest_spec _ who _ _).1.alike).ages
  · exact h _ (Alike.refl e).ages

theorem leads_await {goal : Goal} : ((await who goal >>= g) e).Leads Q := by
  rw [bind_run, await]
  split
  · exact h _ (Alike.refl e).ages
  · refine fun e' lets => h e' (.trans ?_ lets.ages)
    exact ((alike_setLog _ _).trans (rest_spec _ who _ _).1.alike).ages

end
end Action

open Engine TxHeap.Action

abbrev Verdict := Except Raise (Option Error)

variable {r v : Raise} {a : Option Error}

variable {x : TxnId} {e : Engine} {phase : Phase}

def Undone {α : Type} (x : TxnId) (out : Except Raise α) (e : Engine) : Prop :=
  e.Ended x .aborted ∨ ∃ r, r.Fatal ∧ out = .error r

variable {α : Type}

theorem Undone.fatal (h : r.Fatal) : Undone x (.error r : Except Raise α) e := .inr ⟨r, h, rfl⟩

theorem Undone.ended {a : α} (h : Undone x (.ok a) e) : e.Ended x .aborted := by
  obtain ended | ⟨r, _, raised⟩ := h
  · exact ended
  · cases raised

theorem Undone.ended_of_abort (h : Undone x (.error (.abort cause) : Except Raise α) e) :
    e.Ended x .aborted := by
  obtain ended | ⟨r, fatal, raised⟩ := h
  · exact ended
  · cases raised
    exact fatal.elim

theorem Undone.raised (h : Undone x (.error r : Except Raise α) e) :
    Undone x (.error r : Except Raise β) e := by
  obtain ended | ⟨r', fatal, same⟩ := h
  · exact .inl ended
  · cases same
    exact .fatal fatal

theorem Engine.txn_lt (h : (e.txn x).phase ≠ .inactive) : x < e.txns.size := by
  refine not_not.1 fun unknown => h ?_
  rw [txn, getD_out (Nat.le_of_not_lt unknown)]

theorem Engine.Silent.ended (h : Silent e e') (past : e.Ended x phase) : e'.Ended x phase :=
  ⟨by rw [h.txns_size]; exact past.1, ((h.txn x).2.2).trans past.2.1, past.2.2⟩

section Calls
variable {P : Post β} {f : Unit → EngineCall β}

theorem leads_check (refused : ∀ r, r.Fatal → P (.error r) e)
    (next : e.Active x → (f () e).Leads P) :
    ((liftM (check x) >>= f) e).Leads P := by
  obtain ⟨granted, active⟩ | ⟨r, failed⟩ := check_spec e x
  · rw [lift_done granted]
    exact next active
  · have fatal := (looks_check (E := Raise.Fatal) x).ends e
    rw [Ends, failed] at fatal
    rw [lift_bind_error failed]
    exact refused r fatal.1

theorem leaveSegment_refused {t : ThreadId} (gone : (e.thread t).segment = none) :
    leaveSegment t e = .error (.violation (.segmentNotHeld t)) e := by
  rw [leaveSegment, get_bind, gone]
  rfl

theorem ends_finish (known : x < e.txns.size) (past : phase.isActive = false) :
    Ends (finish x phase) e (fun _ e' => e'.Ended x phase) fun r _ => r.Fatal := by
  cases hk : (e.thread (e.txn x).thread).segment with
  | some =>
    refine .of_ok (finish_run rfl hk) ⟨by simpa [finished] using known, ?_, past⟩
    rw [own_txn_finished known]
  | none =>
    have gone : (((e.setTxn x fun tx => { tx with phase }).setThread (e.txn x).thread fun th =>
        { th with last := phase, txn := none }).thread (e.txn x).thread).segment = none := by
      rw [thread_setThread]
      split
      · exact hk
      · exact hk
    rw [Ends, finish, get_bind, bind_ok (updateTxn_run ..), bind_ok (updateThread_run ..),
      bind_error (leaveSegment_refused gone)]
    trivial

theorem leads_discard (known : x < e.txns.size) (cause : Error) :
    (discard x cause e).Leads (Undone x) := by
  unfold discard
  rw [look_bind]
  split
  · exact .fatal trivial
  dsimp only
  rw [look_bind, look_bind, look_bind]
  refine leads_quiet (quiet_freeAll _) (fun _ e1 silent1 => ?_) fun r e' fatal _ => .fatal fatal
  refine leads_quiet (quiet_resetNursery _) (fun _ e2 silent2 => ?_) fun r e' fatal _ =>
    .fatal fatal
  refine leads_quiet (.segment _ fun _ => ⟨rfl, rfl⟩) (fun _ e3 silent3 => ?_) fun r e' fatal _ =>
    .fatal fatal
  refine leads_lock fun e4 ages => ?_
  have known4 : x < e4.txns.size := by
    refine Nat.lt_of_lt_of_le ?_ ages.txns_size
    rwa [silent3.txns_size, silent2.txns_size, silent1.txns_size]
  rw [look_bind]
  refine leads_quiet (.thread _ fun _ => ⟨rfl, rfl, rfl⟩) (fun _ e5 silent5 => ?_)
    fun r e' fatal _ => .fatal fatal
  rw [unlock_bind, look_bind]
  refine leads_quiet (quiet_clearTables _) (fun _ e6 silent6 => ?_) fun r e' fatal _ => .fatal fatal
  have known6 : x < e6.txns.size := by
    rwa [silent6.txns_size, (alike_giveUp e5 _).txns, silent5.txns_size]
  refine leads_lift ((ends_finish known6 rfl).mono (fun _ e7 past => ?_) fun r e' fatal =>
    .fatal fatal)
  refine leads_quiet (.counters _) (fun _ e8 silent8 => ?_) fun r e' fatal _ => .fatal fatal
  refine leads_quiet (quiet_logInfo ..) (fun _ e9 silent9 => ?_) fun r e' fatal _ => .fatal fatal
  exact .inl (silent9.ended (silent8.ended past))

theorem leads_callAll (past : e.Ended x phase) (callbacks : List Callback)
    (raised : ∀ r e', e'.Ended x phase → P (.error r) e')
    (next : ∀ e', e'.Ended x phase → (f () e').Leads P) :
    ((callAll callbacks >>= f) e).Leads P := by
  induction callbacks generalizing e with
  | nil => exact next e past
  | cons c rest ih =>
    refine fun out e' ages => ?_
    cases out with
    | error r => exact raised r e' (ages.keeps past)
    | ok => exact ih (ages.keeps past)

theorem leads_rolledBack (known : x < e.txns.size) (cause : Error)
    (raised : ∀ r e', Undone x (.error r : Except Raise β) e' → P (.error r) e')
    (next : ∀ e', e'.Ended x .aborted → (f () e').Leads P) :
    ((discard x cause >>= fun callbacks => liftM (unlock .engine) >>= fun _ =>
      callAll callbacks >>= f) e).Leads P := by
  refine Course.Leads.bind ((leads_discard known cause).mono fun out e1 undone => ⟨?_, ?_⟩)
  · rintro callbacks rfl
    have past := (alike_giveUp e1 .engine).ages.keeps undone.ended
    exact leads_callAll past callbacks (fun r e' past => raised r e' (.inl past)) next
  · rintro r rfl
    exact raised r e1 undone.raised

theorem leads_abort : (abort x e).Leads (Undone x) := by
  refine leads_check (fun r fatal => .fatal fatal) fun active => ?_
  rw [look_bind]
  split
  · exact .fatal trivial
  · refine leads_lock fun e1 ages => ?_
    have rolls := leads_rolledBack (f := pure) ((active_lt active).trans_le ages.txns_size)
      .abortRequested (fun r e' undone => undone) fun e' past => .inl past
    simpa using rolls

/-- How a part of a commit ends that comes before its transaction does. -/
def Unsettled (x : TxnId) (out : Except Raise α) (e : Engine) : Prop :=
  x < e.txns.size ∧ ∀ v, out = .error v → v.Fatal

theorem Engine.Silent.unsettled {a : α} (silent : Silent e e') (known : x < e.txns.size) :
    Unsettled x (.ok a) e' :=
  ⟨by rwa [silent.txns_size], by rintro _ ⟨⟩⟩

theorem Engine.Silent.hindered (silent : Silent e e') (known : x < e.txns.size) (fatal : r.Fatal) :
    Unsettled x (.error r : Except Raise α) e' :=
  ⟨by rwa [silent.txns_size], by rintro _ ⟨⟩; exact fatal⟩

theorem leads_evacuate (known : x < e.txns.size) (k : SegmentId) (t : ThreadId) :
    (Evacuation.evacuate x k t e).Leads (Unsettled x) := by
  unfold Evacuation.evacuate
  rw [look_bind]
  refine leads_lock fun e1 ages => ?_
  have known1 := known.trans_le ages.txns_size
  rw [look_bind]
  refine leads_quiet ((Evacuation.quiet_promoteStack ..).run _) (fun a e2 silent2 => ?_)
    fun r e2 fatal silent2 => silent2.hindered known1 fatal
  have known2 : x < (e2.giveUp (.stack t)).txns.size := by
    rw [(alike_giveUp e2 _).txns, silent2.txns_size]
    exact known1
  dsimp only
  rw [unlock_bind]
  exact leads_quiet ((Evacuation.quiet_promoteReachable ..).run _)
    (fun b e3 silent3 => silent3.unsettled known2)
    fun r e3 fatal silent3 => silent3.hindered known2 fatal

theorem leads_collectMinor (known : x < e.txns.size) : (collectMinor x e).Leads (Unsettled x) := by
  unfold collectMinor
  rw [look_bind, look_bind, look_bind]
  split
  · exact ⟨known, by rintro _ ⟨⟩⟩
  · dsimp only
    rw [look_bind]
    refine leads_quiet (quiet_logInfo ..) (fun _ e1 silent1 => ?_) fun r e1 fatal silent1 =>
      silent1.hindered known fatal
    refine Course.Leads.bind ((leads_evacuate (silent1.unsettled (a := ()) known).1 _ _).mono
      fun out e2 unsettled => ⟨fun ev _ => ?_, ?_⟩)
    · have close : ∀ e3, x < e3.txns.size →
          ((liftM (Evacuation.close (e.txn x).segment ev) >>= fun _ =>
          pure ev.failure : EngineCall (Option Error)) e3).Leads (Unsettled x) := fun e3 known3 =>
        leads_quiet (Evacuation.quiet_close ..) (fun _ e4 silent4 => silent4.unsettled known3)
          fun r e4 fatal silent4 => silent4.hindered known3 fatal
      split
      · exact leads_quiet (Evacuation.quiet_fixTargets ..)
          (fun _ e3 silent3 => close e3 (silent3.unsettled (a := ()) unsettled.1).1)
          fun r e3 fatal silent3 => silent3.hindered unsettled.1 fatal
      · exact close e2 unsettled.1
    · rintro r rfl
      exact ⟨unsettled.1, by rintro _ ⟨⟩; exact unsettled.2 r rfl⟩

theorem ends_settleCommit (known : x < e.txns.size) :
    Ends (settleCommit x) e (fun _ e' => e'.Ended x .committed) fun r _ => r.Fatal := by
  refine .get_bind
    (.get_bind (.bind (((quiet_publishAll (E := Raise.Fatal) (R := Silent) x).ends e).mono
    (fun version e1 silent => ?_)
    fun _ _ h => h.1)))
  have known1 : x < e1.txns.size := by rwa [silent.txns_size]
  have closes : ∀ e2 : Engine, x < e2.txns.size →
      ∀ g : Unit → EngineM Committed, (∀ b, ∃ done, g () b = .ok done b) →
      Ends (finish x .committed >>= g) e2 (fun _ e' => e'.Ended x .committed) fun r _ =>
        r.Fatal := by
    intro e2 known2 g last
    refine .bind ((ends_finish known2 rfl).mono (fun _ e3 past => ?_) fun _ _ => id)
    obtain ⟨done, returns⟩ := last e3
    exact .of_ok returns past
  refine .get_bind
    (.bind (.of_ok (modify_run _) (.bind (.of_ok (updateSegment_run ..) (.get_bind ?_)))))
  dsimp only
  split
  · refine .bind (.of_ok (modify_run _) (.bind (.of_ok (updateCounters_run ..) ?_)))
    refine .bind (.of_ok (updateCounters_run ..)
      (.get_bind (.bind (.of_ok (clearTables_run ..) ?_))))
    refine .get_bind (.get_bind (.get_bind ?_))
    refine closes _ ?_ _ fun b => ⟨_, rfl⟩
    exact known1
  · refine .bind (.of_ok (updateCounters_run ..)
      (.get_bind (.bind (.of_ok (clearTables_run ..) ?_))))
    refine .get_bind (.get_bind (.get_bind ?_))
    refine closes _ ?_ _ fun b => ⟨_, rfl⟩
    exact known1

/-- Transactions that have ended stay so, however the call goes. -/
structure Lasting (y : EngineCall α) : Prop where
  leads : ∀ {x : TxnId} {phase : Phase} {e : Engine}, e.Ended x phase →
    (y e).Leads fun _ e' => e'.Ended x phase

namespace Lasting
variable {y : EngineCall α} {f : α → EngineCall β}

protected theorem pure (a : α) : Lasting (pure a : EngineCall α) := ⟨fun past => past⟩

protected theorem bind (h : Lasting y) (hf : ∀ a, Lasting (f a)) : Lasting (y >>= f) where
  leads past := Course.Leads.bind
    ((h.leads past).mono fun _ _ past => ⟨fun a _ => (hf a).leads past, fun _ _ => past⟩)

theorem lift {y : EngineM α} (h : Quiet y) : Lasting (liftM y : EngineCall α) where
  leads past := by
    rw [← bind_pure (liftM y : EngineCall α)]
    exact leads_quiet h (fun a e' silent => silent.ended past) fun _ _ _ silent => silent.ended past

theorem look {α : Type} {g : Engine → α} {f : α → EngineCall β} (h : ∀ a, Lasting (f a)) :
    Lasting (TxHeap.look g >>= f) := ⟨fun past => (h _).leads past⟩

theorem lock (m : Mutex) : Lasting (TxHeap.lock m) where
  leads {x phase e} past := by
    have locks := leads_lock (g := pure) (m := m) (Q := fun _ e' => e'.Ended x phase) fun e' ages =>
      ages.keeps past
    rwa [bind_pure] at locks

theorem ending {last : EngineM Unit} (h : Lasting y)
    (keeps : ∀ e, Ends last e (fun _ => Ages e) fun _ => Ages e) :
    Lasting (y.ending last) where
  leads {x phase e} past := by
    have play := h.leads past
    unfold Action.ending
    generalize y e = c at play
    induction c with
    | done a e1 | raised r e1 =>
      have ends := keeps e1
      unfold Ends at ends
      dsimp only [Course.bindOutcome]
      split at ends
      · next run =>
        rw [run]
        exact ends.keeps play
      · next run =>
        rw [run]
        exact ends.keeps play
    | waiting w e1 resume ih => exact fun e' lets => ih e' (play e' lets)
    | calling c e1 resume ih => exact fun r e' ages => ih r e' (play r e' ages)

end Lasting

theorem lasting_markThreads :
    ∀ (ts : List ThreadId) (m : Marking), Lasting (Marking.markThreads ts m)
  | [], m => .pure m
  | t :: rest, m => by
    refine .bind (.bind (.lock _) fun _ => .look fun _ =>
      .bind (.lift ((Marking.quiet_markAll _).run m)) fun _ => ?_)
      (lasting_markThreads rest)
    refine .bind ⟨fun past => (alike_giveUp _ _).ages.keeps past⟩ fun _ => .look fun held => ?_
    cases held with
    | none => exact .pure _
    | some x => exact .bind (.lift ((Marking.quiet_markTxn x).run _)) fun _ => .pure _

theorem lasting_collectOld : Lasting collectOld :=
  .look fun _ => .look fun _ => .bind (.lift (quiet_logInfo ..)) fun _ => .look fun _ =>
    .look fun _ =>
    .bind (.lift ((Marking.quiet_markAll _).run _)) fun _ => .look fun _ =>
      .bind (lasting_markThreads ..) fun _ =>
      .bind (.lift (Marking.quiet_markReachable.run _)) fun _ => .lift (quiet_sweepUnmarked _)

theorem lasting_beginPause (who : Caller) (mode : PauseMode) : Lasting (beginPause who mode) where
  leads {x phase _} past := by
    refine leads_park fun e1 ages => ?_
    have past := ages.keeps past
    rw [look_bind]
    split
    · exact past
    · rw [← bind_pure (await who .othersStopped)]
      change ((await who .othersStopped >>= pure)
        { e1 with pauser := some who, pauseMode := mode }).Leads _
      refine leads_await fun e2 ages => ?_
      exact ages.keeps past

theorem lasting_collectIfDue (t : ThreadId) : Lasting (collectIfDue t) := by
  refine .bind (.lock _) fun _ => .ending (.look fun _ => .look fun _ => ?_) fun e =>
    (alike_giveUp e .engine).ages
  split
  · refine .bind (lasting_beginPause ..) fun _ => .ending (.look fun _ => ?_) fun e => ?_
    · split
      · exact lasting_collectOld
      · exact .pure ()
    · exact (ends_endPause (.thread t) e).mono (fun _ _ h => h.1.alike.ages) fun _ _ same =>
        same ▸ (Alike.refl e).ages
  · exact .pure ()

/-- How a commit ends: with its transaction aborted if it answers an error, with that committed, or
with something wrong. -/
def Concluded (x : TxnId) (out : Verdict) (e : Engine) : Prop :=
  e.Ended x .aborted ∨ e.Ended x .committed ∧ (∀ cause, out ≠ .ok (some cause)) ∨
    ∃ v, v.Fatal ∧ out = .error v

theorem Concluded.fatal (h : r.Fatal) : Concluded x (.error r) e := .inr (.inr ⟨r, h, rfl⟩)

theorem Concluded.refused (h : Concluded x (.ok (some cause)) e) : e.Ended x .aborted := by
  obtain past | ⟨-, none⟩ | ⟨_, _, ⟨⟩⟩ := h
  · exact past
  · exact absurd rfl (none cause)

theorem leads_commit : (commit x e).Leads (Concluded x) := by
  have refuse : ∀ (cause : Error) (e1 : Engine), x < e1.txns.size →
      (refuse x cause e1).Leads (Concluded x) := fun cause e1 known =>
    leads_rolledBack known cause
      (fun r e' undone => undone.imp id fun ⟨v, fatal, same⟩ => .inr ⟨v, fatal, by cases same; rfl⟩)
      fun e' past => .inl past
  have succeeds : ∀ (t : ThreadId) (e1 : Engine), x < e1.txns.size →
      (succeed x t e1).Leads (Concluded x) := by
    intro t e1 known
    refine leads_lift ((ends_settleCommit known).mono (fun done e2 past => ?_) fun r _ fatal =>
      .fatal fatal)
    rw [unlock_bind]
    replace past := (alike_giveUp e2 .engine).ages.keeps past
    refine leads_quiet (quiet_logInfo ..) (fun _ e3 silent => ?_) fun r _ fatal _ => .fatal fatal
    refine leads_callAll (silent.ended past) _ (fun r e' past => .inr (.inl ⟨past, by rintro _ ⟨⟩⟩))
      fun e4 past => ?_
    have answers : ∀ e', e'.Ended x .committed → Concluded x (.ok none) e' :=
      fun e' past => .inr (.inl ⟨past, by rintro _ ⟨⟩⟩)
    split
    · refine Course.Leads.bind (((lasting_collectIfDue t).leads past).mono fun out e5 past =>
        ⟨fun _ _ => answers e5 past, fun r _ => ?_⟩)
      exact .inr (.inl ⟨past, by rintro _ ⟨⟩⟩)
    · exact answers e4 past
  have alone : ∀ (t : ThreadId) (e1 : Engine), x < e1.txns.size →
      (commitAlone x t e1).Leads (Concluded x) := by
    intro t e1 known1
    refine Course.Leads.bind ((leads_collectMinor known1).mono fun out e2 unsettled =>
      ⟨fun failure _ => ?_, fun r raised => .fatal (unsettled.2 r raised)⟩)
    cases failure with
    | some cause => exact refuse cause e2 unsettled.1
    | none =>
      refine leads_lift (((looks_validate? (E := Raise.Fatal) x).ends e2).mono
        (fun stale e3 same => ?_) fun r e3 h => .fatal h.1)
      cases stale with
      | some r =>
        refine leads_quiet (quiet_countConflict ..) (fun _ e4 silent => refuse .conflict e4 ?_)
          fun r e4 fatal _ => .fatal fatal
        rw [silent.txns_size, same]
        exact unsettled.1
      | none => exact succeeds t e3 (same ▸ unsettled.1)
  refine leads_check (fun r fatal => .fatal fatal) fun active => ?_
  rw [look_bind]
  refine leads_lock fun e1 ages1 => leads_park fun e2 ages2 => ?_
  have known2 := (active_lt active).trans_le (ages1.trans ages2).txns_size
  rw [look_bind]
  split
  · exact leads_await fun e3 ages3 => alone _ e3 (known2.trans_le ages3.txns_size)
  · exact alone _ e2 known2

theorem leads_becomeInevitable (reason : String) :
    (becomeInevitable x reason e).Leads fun out e' => out = .ok () ∨ Undone x out e' := by
  refine leads_check (fun r fatal => .inr (.fatal fatal)) fun active => ?_
  rw [look_bind]
  split
  · exact .inl rfl
  rw [look_bind]
  refine leads_lock fun e1 ages1 => leads_park fun e2 ages2 => leads_await fun e3 ages3 => ?_
  have known3 := (active_lt active).trans_le ((ages1.trans ages2).trans ages3).txns_size
  rw [look_bind]
  refine leads_lift (((looks_staleRead? _).ends e3).mono (fun stale e4 same => ?_)
    fun r e4 failed =>
    .inr (.fatal failed.1))
  cases stale with
  | some r =>
    refine leads_quiet (quiet_countConflict ..) (fun _ e5 silent => ?_) fun r e4 fatal _ =>
      .inr (.fatal fatal)
    refine leads_rolledBack ?_ .conflict (fun r e' undone => .inr undone) fun e' past =>
      .inr (.inl past)
    rwa [silent.txns_size, same]
  | none => exact .inl rfl

theorem leads_endFailed (held : e.heldBy x = true) : (endFailed x e).Leads fun out e' =>
    Concluded x out e' ∧ ((e.txn x).phase ≠ .inevitable → Undone x out e') := by
  unfold endFailed
  rw [look_bind, if_pos held, look_bind]
  split
  · next inevitable =>
    exact leads_commit.mono fun out e' concluded =>
      ⟨concluded, fun other => absurd (by simpa using inevitable) other⟩
  · refine Course.Leads.bind (leads_abort.mono fun out e' undone => ⟨?_, ?_⟩)
    · rintro _ rfl
      exact ⟨.inl undone.ended, fun _ => .inl undone.ended⟩
    · rintro r rfl
      have undone : Undone x (.error r : Verdict) e' := undone.raised
      exact ⟨undone.imp id .inr, fun _ => undone⟩

/-- A transaction that has ended, or that its thread does not run, is left alone. -/
theorem leads_endFailed_past (past : e.heldBy x = false ∨ ¬ e.Active x) :
    (endFailed x e).Leads fun _ e' => e' = e := by
  unfold endFailed
  rw [look_bind]
  split
  · next held =>
    obtain ⟨v, refused⟩ := check_refused (past.resolve_left (by rw [held]; decide))
    rw [look_bind]
    split
    · rw [commit, lift_bind_error refused]
      rfl
    · rw [abort, bind_assoc, lift_bind_error refused]
      rfl
  · rfl

end Calls

namespace Action
variable {σ : Type}

def ofOutcome : Except Raise α → Action σ α
  | .ok a => pure a
  | .error r => throw r

theorem outcome_bind (y : Action σ α) (f : α → Action σ β) :
    (y >>= f).outcome = y.outcome >>= fun out => (ofOutcome out >>= f).outcome := by
  funext s
  change ((y s).bind _).bindOutcome _ = ((y s).bindOutcome _).bind _
  generalize y s = c
  induction c with
  | done | raised => rfl
  | waiting w s resume ih =>
    exact congrArg _ (funext ih)
  | calling c s resume ih =>
    simp only [Course.bind, Course.bindOutcome]
    exact congrArg _ (funext fun r => funext (ih r))

end Action

theorem attemptBody_outcome (x : TxnId) (body : Action (Engine × τ) (Option Error)) :
    attemptBody x body = body.outcome >>= fun out => attemptBody x (.ofOutcome out) := by
  unfold attemptBody
  rw [outcome_bind, bind_assoc]

def promoteFirst (inevitable : Bool) (x : TxnId) : Action (Engine × τ) Unit :=
  if inevitable then onEngine (becomeInevitable x "retry limit") else pure ()

def conclude (t : ThreadId) (x : TxnId) (out : Verdict) : Action (Engine × τ) (Option Error) := do
  match ← attemptBody x (.ofOutcome out) with
  | some error => return some error
  | none =>
    if (← look fun w => (w.1.thread t).txn) == some x then onEngine (commit x)
    else if (← look fun w => (w.1.txn x).phase) == .aborted then return some .abortRequested
    else return none

theorem attempt_eq (t : ThreadId) (inevitable : Bool) (body : Body (Engine × τ)) :
    attempt t inevitable body = onEngine (begin t) >>= fun x =>
      (promoteFirst inevitable x >>= fun _ => body x).outcome >>= conclude t x := by
  unfold attempt
  refine congrArg _ (funext fun x => ?_)
  unfold conclude promoteFirst
  rw [← bind_assoc, ← attemptBody_outcome]
  cases inevitable
  · rfl
  · rfl

structure Trial (τ : Type) where
  txn : TxnId
  /-- How the function ended, if it was run. -/
  outcome : Option (Verdict)
  /-- The state in which the function ended. -/
  ended : Engine × τ
  /-- The state that the attempt left. -/
  left : Engine × τ
  answer : Verdict

namespace Trial
variable {r : Trial τ} {t : ThreadId} {inevitable : Bool} {body : Body (Engine × τ)}
  {s : Engine × τ}
  {out answer : Verdict} {error : Error}

/-- The function is run in the transaction of the attempt, which has begun in `s`, and ends with
`out`; not if that is to be inevitable and cannot be. -/
inductive Runs (r : Trial τ) (inevitable : Bool) (body : Body (Engine × τ)) (s : Engine × τ)
    (out : Verdict) : Prop
  | refused (v : Raise) (raised : (promoteFirst inevitable r.txn s).Comes (.error v) r.ended)
      (is : out = .error v)
      (outcome : r.outcome = none)
  | ran (s1 : Engine × τ) (ready : (promoteFirst inevitable r.txn s).Comes (.ok ()) s1)
      (played : (body r.txn s1).Comes out r.ended) (outcome : r.outcome = some out)

/-- The attempt is made in `s` and comes to this answer. -/
inductive Made (r : Trial τ) (t : ThreadId) (inevitable : Bool) (body : Body (Engine × τ))
    (s : Engine × τ)
    (answer : Verdict) : Prop
  | intro (s1 : Engine × τ) (out : Verdict) (begun : (onEngine (begin t) s).Comes (.ok r.txn) s1)
      (runs : r.Runs inevitable body s1 out)
      (concluded : (conclude t r.txn out r.ended).Comes answer r.left)
      (answered : r.answer = answer)

/-- The function failed on its own account: it returned an error when it had made its transaction
inevitable or ended it otherwise than by an abort, or raised the abort of another. -/
inductive FailedUnaborted (r : Trial τ) : Prop
  | returned (error : Error) (outcome : r.outcome = some (.ok (some error)))
      (free : (r.ended.1.heldBy r.txn = false ∧ ¬ r.ended.1.Ended r.txn .aborted) ∨
        (r.ended.1.txn r.txn).phase = .inevitable)
  | raised (cause : Error) (outcome : r.outcome = some (.error (.abort cause)))
      (alive : ¬ r.ended.1.Ended r.txn .aborted)

def committed (r : Trial τ) : Bool := (r.left.1.txn r.txn).phase == .committed

theorem committed_of_aborted (h : r.left.1.Ended r.txn .aborted) : r.committed = false := by
  rw [committed, h.2.1]
  rfl

end Trial

section Concluding
variable {t : ThreadId} {s s' : Engine × τ} {error cause : Error}

theorem comes_bind {σ α : Type} {y : Action (Engine × σ) α} {f : α → Action (Engine × σ) β}
    {s s' : Engine × σ} {out : Except Raise β} (h : ((y >>= f) s).Comes out s') :
    (∃ a s1, (y s).Comes (.ok a) s1 ∧ (f a s1).Comes out s') ∨
    ∃ r, (y s).Comes (.error r) s' ∧ out = .error r :=
  Course.Comes.of_bind h

theorem outcome_returns {σ α : Type} {y : Action (Engine × σ) α} {s s' : Engine × σ}
    (h : (y.outcome s).Comes (.error v) s') : False := by
  obtain ⟨_, _, _, same⟩ := Course.Comes.of_bindOutcome h
  cases same

theorem comes_outcome {σ α : Type} {y : Action (Engine × σ) α} {s s' : Engine × σ}
    {o : Except Raise α} (h : (y.outcome s).Comes (.ok o) s') : (y s).Comes o s' := by
  obtain ⟨o', s1, comes, same⟩ := Course.Comes.of_bindOutcome h
  cases same
  exact comes

theorem conclude_none (h : (conclude t x (.ok none) s).Comes (.ok (some error)) s') :
    s'.1.Ended x .aborted := by
  change ((if ((s.1.thread t).txn == some x) = true then onEngine (commit x)
    else look (fun w => (w.1.txn x).phase) >>= fun phase =>
      if (phase == .aborted) = true then pure (some .abortRequested) else pure none :
        Action (Engine × τ) (Option Error))
        s).Comes _ _ at h
  split at h
  · exact (leads_commit.comes h).refused
  · change ((if ((s.1.txn x).phase == .aborted) = true then pure (some .abortRequested)
      else pure none :
      Action (Engine × τ) (Option Error)) s).Comes _ _ at h
    split at h
    · next aborted =>
      cases h
      have phase : (s.1.txn x).phase = .aborted := by simpa using aborted
      exact ⟨txn_lt (by rw [phase]; decide), phase, rfl⟩
    · cases h

/-- What is done when a function has ended with `o` in `s`: nothing after the signal of an abort.
Else its transaction is ended, and again if something was raised meanwhile. -/
inductive Handles (x : TxnId) (s : Engine × τ) (o out : Verdict) (s' : Engine × τ) : Prop
  | signal (cause : Error) (is : o = .error (.abort cause)) (answers : out = .ok (some cause))
      (same : s' = s)
  | ended (other : ∀ cause, o ≠ .error (.abort cause)) (out1 : Verdict) (s1 : Engine × τ)
      (first : (onEngine (endFailed x) s).Comes out1 s1)
      (again : s' = s1 ∨ ∃ v out', out1 = .error v ∧ (onEngine (endFailed x) s1).Comes out' s')
      (failed : out ≠ .ok none)
      (raises : ∀ v, (∀ cause, v ≠ .abort cause) → o = .error v ∨ out1 = .error v →
        ∃ v', out = .error v')

section Handles
variable {o out : Verdict}

theorem Handles.left_alone (h : Handles x s o out s')
    (past : s.1.heldBy x = false ∨ ¬ s.1.Active x) : s'.1 = s.1 := by
  cases h with
  | signal cause is answers same => rw [same]
  | ended _ out1 s1 first again =>
    have same : s1.1 = s.1 := (leads_endFailed_past past).comes first
    obtain rfl | ⟨_, _, -, second⟩ := again
    · exact same
    · exact ((leads_endFailed_past (same ▸ past)).comes second).trans same

/-- A transaction that is ended because of a failure has ended then, and been aborted if it could
be, unless a signal was raised or something is wrong. -/
theorem Handles.concluded (h : Handles x s o out s') (held : s.1.heldBy x = true) :
    ((∃ last, s'.1.Ended x last) ∧ ((s.1.txn x).phase ≠ .inevitable → s'.1.Ended x .aborted)) ∨
      (∃ cause, o = .error (.abort cause) ∧ s' = s) ∨
      (∃ v, out = .error v) ∧ ∃ v s1, v.Fatal ∧ (onEngine (endFailed x) s).Comes (.error v) s1 := by
  cases h with
  | signal cause is _ same => exact .inr (.inl ⟨cause, is, same⟩)
  | ended _ out1 s1 first again _ raises =>
    obtain ⟨concluded, undone⟩ := (leads_endFailed held).comes first
    have fatal : ∀ v, v.Fatal → out1 = .error v → (∃ v, out = .error v) ∧
        ∃ v s1, v.Fatal ∧ (onEngine (endFailed x) s).Comes (.error v) s1 := by
      rintro v fatal rfl
      refine ⟨raises v ?_ (.inr rfl), v, s1, fatal, first⟩
      rintro cause rfl
      exact fatal
    have kept : ∀ {last}, s1.1.Ended x last → s'.1 = s1.1 := fun past => by
      obtain rfl | ⟨_, _, -, second⟩ := again
      · rfl
      · exact (leads_endFailed_past (.inr past.not_active)).comes second
    by_cases failed : ∃ v, v.Fatal ∧ out1 = .error v
    · obtain ⟨v, bad, is⟩ := failed
      exact .inr (.inr (fatal v bad is))
    have past : ∃ last, s1.1.Ended x last :=
      concluded.elim (⟨_, ·⟩) fun rest => ⟨_, (rest.resolve_right failed).1⟩
    obtain ⟨last, past⟩ := past
    have same := kept past
    refine .inl ⟨⟨last, by rwa [same]⟩, fun running => ?_⟩
    rw [same]
    exact (undone running).resolve_right failed

theorem Handles.aborted (h : Handles x s o out s') (held : s.1.heldBy x = true)
    (running : (s.1.txn x).phase ≠ .inevitable) :
    s'.1.Ended x .aborted ∨ (∃ cause, o = .error (.abort cause)) ∨
      (∃ v, out = .error v) ∧ ∃ v s1, v.Fatal ∧ (onEngine (endFailed x) s).Comes (.error v) s1 := by
  obtain ⟨-, aborted⟩ | ⟨cause, is, -⟩ | failed := h.concluded held
  · exact .inl (aborted running)
  · exact .inr (.inl ⟨cause, is⟩)
  · exact .inr (.inr failed)

theorem failed_again
    (h : ((onEngine (endFailed x) >>= fun _ => throw v : Action (Engine × τ) (Option Error))
      s).Comes out s') :
    ∃ out' v', (onEngine (endFailed x) s).Comes out' s' ∧ out = .error v' := by
  obtain ⟨_, _, first, raised⟩ | ⟨_, first, raised⟩ := comes_bind h
  · cases raised
    exact ⟨_, _, first, rfl⟩
  · exact ⟨_, _, first, raised⟩

theorem handles_of_comes {body : Action (Engine × τ) (Option Error)}
    (play : (attemptBody x body s).Comes out s') :
    ∃ o s1, (body s).Comes o s1 ∧ (o = .ok none ∧ out = .ok none ∨ Handles x s1 o out s') := by
  rw [attemptBody_outcome] at play
  obtain ⟨o, s1, ended, rest⟩ | ⟨_, raised, _⟩ := comes_bind play
  swap
  · exact (outcome_returns raised).elim
  refine ⟨o, s1, comes_outcome ended, ?_⟩
  cases o with
  | ok answer =>
    cases answer with
    | none =>
      cases rest
      exact .inl ⟨rfl, rfl⟩
    | some returned =>
      obtain ⟨result, s2, closing, handled⟩ | ⟨_, raised, _⟩ := comes_bind rest
      swap
      · exact (outcome_returns raised).elim
      obtain ⟨_, _, given, closed⟩ | ⟨_, given, _⟩ := comes_bind (comes_outcome closing)
      swap
      · cases given
      cases given
      obtain ⟨refused, s3, first, after⟩ | ⟨v, first, rfl⟩ := comes_bind closed
      · have answered : ∃ error, out = .ok (some error) ∧ s' = s3 := by
          cases refused with
          | none | some =>
            cases after
            cases handled
            exact ⟨_, rfl, rfl⟩
        obtain ⟨error, rfl, same⟩ := answered
        refine .inr (.ended (by rintro _ ⟨⟩) _ s3 first (.inl same) (by rintro ⟨⟩) ?_)
        rintro _ - (raised | raised) <;> cases raised
      · cases v with
        | abort =>
          cases handled
          refine .inr (.ended (by rintro _ ⟨⟩) _ _ first (.inl rfl) (by rintro ⟨⟩) ?_)
          rintro _ other (raised | raised) <;> cases raised
          exact (other _ rfl).elim
        | _ =>
          obtain ⟨out', v', second, rfl⟩ := failed_again handled
          exact .inr (.ended (by rintro _ ⟨⟩) _ s2 first (.inr ⟨_, out', rfl, second⟩)
            (by rintro ⟨⟩) fun _ _ _ => ⟨v', rfl⟩)
  | error v =>
    cases v with
    | abort cause =>
      cases rest
      exact .inr (.signal cause rfl rfl rfl)
    | _ =>
      obtain ⟨out', v', first, rfl⟩ := failed_again rest
      exact .inr (.ended (by rintro _ ⟨⟩) out' s' first (.inl rfl) (by rintro ⟨⟩)
        fun _ _ _ => ⟨v', rfl⟩)

theorem handles_of_conclude (failed : o ≠ .ok none)
    (h : (conclude t x o s).Comes (.ok (some error)) s') :
    Handles x s o (.ok (some error)) s' := by
  obtain ⟨answer, s1, tried, rest⟩ | ⟨_, _, raised⟩ := comes_bind h
  swap
  · cases raised
  obtain ⟨o', s2, given, handled⟩ := handles_of_comes tried
  obtain ⟨rfl, rfl⟩ : o' = o ∧ s2 = s := by
    cases o with
    | ok | error =>
      cases given
      exact ⟨rfl, rfl⟩
  replace handled := handled.resolve_left fun none => failed none.1
  cases answer with
  | some =>
    cases rest
    exact handled
  | none =>
    cases handled with
    | signal _ _ answers => cases answers
    | ended _ _ _ _ _ failed => exact (failed rfl).elim

theorem Handles.signalled (h : Handles x s (.error v) (.ok a) s') :
    ∃ cause, v = .abort cause ∧ s' = s := by
  cases h with
  | signal cause is _ same =>
    cases is
    exact ⟨cause, rfl, same⟩
  | ended other _ _ _ _ _ raises =>
    obtain ⟨_, none⟩ := raises v (fun cause is => other cause (congrArg _ is)) (.inl rfl)
    cases none

end Handles
end Concluding

namespace Trial
variable {r : Trial τ} {t : ThreadId} {inevitable : Bool} {body : Body (Engine × τ)}
  {s : Engine × τ} {error : Error}

/-- An attempt that answers an error has had its transaction aborted, or its function failed on its
own account. -/
theorem Made.aborted_or_failed (h : r.Made t inevitable body s (.ok (some error))) :
    r.left.1.Ended r.txn .aborted ∨ r.FailedUnaborted := by
  obtain ⟨s1, out, begun, runs, concluded⟩ := h
  cases runs with
  | refused v raised is =>
    rw [is] at concluded
    obtain ⟨cause, rfl, same⟩ := (handles_of_conclude (by rintro ⟨⟩) concluded).signalled
    rw [same]
    cases inevitable with
    | false => cases raised
    | true =>
      obtain done | undone := (leads_becomeInevitable _).comes raised
      · cases done
      · exact .inl undone.ended_of_abort
  | ran s2 ready played outcome =>
    cases out with
    | ok returned =>
      cases returned with
      | none => exact .inl (conclude_none concluded)
      | some returned =>
        have handles := handles_of_conclude (by rintro ⟨⟩) concluded
        by_cases aborted : r.ended.1.Ended r.txn .aborted
        · exact .inl (by rwa [handles.left_alone (.inr aborted.not_active)])
        by_cases free : r.ended.1.heldBy r.txn = false ∨ (r.ended.1.txn r.txn).phase = .inevitable
        · exact .inr (.returned returned outcome (free.imp (⟨·, aborted⟩) id))
        · rw [not_or, Bool.not_eq_false] at free
          refine .inl ((handles.aborted free.1 free.2).resolve_right ?_)
          rintro (⟨_, ⟨⟩⟩ | ⟨⟨_, ⟨⟩⟩, _⟩)
    | error v =>
      obtain ⟨cause, rfl, same⟩ := (handles_of_conclude (by rintro ⟨⟩) concluded).signalled
      by_cases aborted : r.ended.1.Ended r.txn .aborted
      · exact .inl (by rwa [same])
      · exact .inr (.raised cause outcome aborted)

end Trial

def RetryPolicy.inevitableAt (policy : RetryPolicy) (i : Nat) : Bool :=
  decide (policy.inevitableAfter > 0 ∧ (i : Int) ≥ policy.inevitableAfter)

/-- No attempt is to follow this one after a conflict. -/
def RetryPolicy.SpentAt (policy : RetryPolicy) (i : Nat) : Prop :=
  policy.maxRetries > 0 ∧ (i : Int) + 1 ≥ policy.maxRetries

def RetryPolicy.report (i : Nat) (error : Error) : Error :=
  Error.tooManyRetries.withDetails (some [("attempts", .int (i + 1))]) (some error)

/-- A row of attempts, from the `i`-th in `s`, and how the call ends after the last. Another follows
one that tells of a conflict, or once an exhausted heap. -/
inductive Row (t : ThreadId) (policy : RetryPolicy) (body : Nat → Body (Engine × τ)) :
    Nat → Nat → Bool → Engine × τ → List (Trial τ) → Verdict → Engine × τ → Prop
  | spent (i : Nat) (collected : Bool) (s : Engine × τ) :
      Row t policy body 0 i collected s [] (.error .unfinished) s
  | refused {fuel i : Nat} {collected : Bool} {s s' : Engine × τ} {v : Raise}
      (raised : (onEngine (begin t) s).Comes (.error v) s') :
      Row t policy body (fuel + 1) i collected s [] (.error v) s'
  | last {fuel i : Nat} {collected : Bool} {s : Engine × τ} (r : Trial τ) {answer out : Verdict}
      (made : r.Made t (policy.inevitableAt i) (body i) s answer)
      (reports : out = answer ∧
        (∀ error, answer = .ok (some error) → error.matchesError .conflict = false) ∨
        ∃ error, answer = .ok (some error) ∧ out = .ok (some (RetryPolicy.report i error))) :
      Row t policy body (fuel + 1) i collected s [r] out r.left
  | uncollected {fuel i : Nat} {s s' : Engine × τ} (r : Trial τ) {error : Error} {v : Raise}
      (made : r.Made t (policy.inevitableAt i) (body i) s (.ok (some error)))
      (other : error.matchesError .conflict = false)
      (exhausted : error.matchesError .heapExhausted = true)
      (raised : (onEngine (collect t) r.left).Comes (.error v) s') :
      Row t policy body (fuel + 1) i false s [r] (.error v) s'
  | again {fuel i : Nat} {collected : Bool} {s s1 s' : Engine × τ} (r : Trial τ) {error : Error}
      {trials : List (Trial τ)}
      {out : Verdict} (made : r.Made t (policy.inevitableAt i) (body i) s (.ok (some error)))
      (conflict : error.matchesError .conflict = true) (more : ¬ policy.SpentAt i)
      (waited : (Action.wait .backoff r.left).Comes (.ok ()) s1)
      (rest : Row t policy body fuel (i + 1) collected s1 trials out s') :
      Row t policy body (fuel + 1) i collected s (r :: trials) out s'
  | collected {fuel i : Nat} {s s1 s' : Engine × τ} (r : Trial τ) {error : Error}
      {trials : List (Trial τ)} {out : Verdict}
      (made : r.Made t (policy.inevitableAt i) (body i) s (.ok (some error)))
      (other : error.matchesError .conflict = false)
      (exhausted : error.matchesError .heapExhausted = true)
      (collects : (onEngine (collect t) r.left).Comes (.ok ()) s1)
      (rest : Row t policy body fuel (i + 1) true s1 trials out s') :
      Row t policy body (fuel + 1) i false s (r :: trials) out s'

theorem mem_dropLast_cons {a b : α} {l : List α} (h : b ∈ (a :: l).dropLast) :
    b = a ∨ b ∈ l.dropLast := by
  cases l with
  | nil => cases h
  | cons => exact List.mem_cons.1 h

section Rows
variable {t : ThreadId} {policy : RetryPolicy} {body : Nat → Body (Engine × τ)} {fuel i : Nat}
  {collected : Bool}
  {s s' : Engine × τ} {out : Verdict} {trials : List (Trial τ)}

theorem made_of_comes {fn : Body (Engine × τ)} (h : (attempt t inevitable fn s).Comes out s') :
    (∃ r : Trial τ, r.Made t inevitable fn s out ∧ r.left = s') ∨
      ∃ v, (onEngine (begin t) s).Comes (.error v) s' ∧ out = .error v := by
  rw [attempt_eq] at h
  obtain ⟨x, s1, begun, rest⟩ | refused := comes_bind h
  swap
  · exact .inr refused
  obtain ⟨o, s2, ended, concluded⟩ | ⟨v, ended, rfl⟩ := comes_bind rest
  · obtain ⟨_, s3, ready, played⟩ | ⟨v, raised, rfl⟩ := comes_bind (comes_outcome ended)
    · exact .inl ⟨⟨x, some o, s2, s', out⟩,
        ⟨s1, o, begun, .ran s3 ready played rfl, concluded, rfl⟩, rfl⟩
    · exact .inl ⟨⟨x, none, s2, s', out⟩,
        ⟨s1, _, begun, .refused v raised rfl rfl, concluded, rfl⟩, rfl⟩
  · exact (outcome_returns ended).elim

theorem row_of_comes (h : (atomicallyFrom t policy body fuel i collected s).Comes out s') :
    ∃ trials, Row t policy body fuel i collected s trials out s' := by
  induction fuel generalizing i collected s with
  | zero =>
    cases h
    exact ⟨[], .spent i collected _⟩
  | succ fuel ih =>
    obtain ⟨answer, s1, tried, rest⟩ | ⟨v, tried, rfl⟩ := comes_bind h
    swap
    · obtain ⟨r, made, rfl⟩ | ⟨v', refused, same⟩ := made_of_comes tried
      · exact ⟨[r], .last r made (.inl ⟨rfl, by rintro _ ⟨⟩⟩)⟩
      · cases same
        exact ⟨[], .refused refused⟩
    obtain ⟨r, made, rfl⟩ | ⟨v', refused, same⟩ := made_of_comes tried
    swap
    · cases same
    cases answer with
    | none =>
      cases rest
      exact ⟨[r], .last r made (.inl ⟨rfl, by rintro _ ⟨⟩⟩)⟩
    | some error =>
      dsimp only at rest
      split at rest
      · next conflict =>
        split at rest
        · cases rest
          exact ⟨[r], .last r made (.inr ⟨error, rfl, rfl⟩)⟩
        · obtain ⟨_, s2, waited, next⟩ | ⟨v, waited, _⟩ := comes_bind rest
          · obtain ⟨trials, row⟩ := ih next
            exact ⟨r :: trials, .again r made conflict ‹_› waited row⟩
          · cases waited with
            | waiting s3 lets next => cases next
      · next other =>
        rw [Bool.not_eq_true] at other
        split at rest
        · next due =>
          obtain ⟨exhausted, first⟩ := Bool.and_eq_true_iff.1 due
          rw [Bool.not_eq_true'] at first
          subst first
          obtain ⟨_, s2, collects, more⟩ | ⟨v, raised, rfl⟩ := comes_bind rest
          · obtain ⟨trials, row⟩ := ih more
            exact ⟨r :: trials, .collected r made other exhausted collects row⟩
          · exact ⟨[r], .uncollected r made other exhausted raised⟩
        · cases rest
          exact ⟨[r], .last r made (.inl ⟨rfl, by rintro _ ⟨⟩; exact other⟩)⟩

theorem Row.aborted_or_failed (h : Row t policy body fuel i collected s trials out s') :
    ∀ r ∈ trials.dropLast, r.left.1.Ended r.txn .aborted ∨ r.FailedUnaborted := by
  induction h with
  | spent | refused | last | uncollected => rintro _ ⟨⟩
  | again r made conflict more waited rest ih | collected r made other exhausted collects rest ih =>
    intro q hq
    obtain rfl | hq := mem_dropLast_cons hq
    · exact made.aborted_or_failed
    · exact ih q hq

theorem Trial.Made.answer_eq {r : Trial τ} {fn : Body (Engine × τ)}
    {answer : Verdict} (h : r.Made t inevitable fn s answer) : r.answer = answer := by
  obtain ⟨_, _, _, _, _, answered⟩ := h
  exact answered

variable {n : Nat}

/-- The attempt was the last that the policy allows after conflicts, but it exhausted the old heap.
-/
def Trial.Overdrawn (r : Trial τ) : Prop :=
  ∃ error, r.answer = .ok (some error) ∧ error.matchesError .heapExhausted = true ∧
    error.matchesError .conflict = false

section
variable (h : Row t policy body fuel i collected s trials out s') (bound : policy.maxRetries = n)
  (pos : 0 < n)
include h bound pos

theorem Row.length_le : trials.length ≤ max (n - i) 1 ∨
    collected = false ∧ trials.length = max (n - i) 1 + 1 ∧
      ∃ r, trials[max (n - i) 1 - 1]? = some r ∧ r.Overdrawn := by
  induction h with
  | spent | refused => exact .inl (Nat.zero_le _)
  | last | uncollected => exact .inl (Nat.le_max_right ..)
  | @again _ i _ _ _ _ r _ _ _ made conflict more waited rest ih =>
    -- another attempt is allowed, so the bound for the rest is one less
    have some_left : i + 1 < n := by
      simp only [RetryPolicy.SpentAt, bound] at more
      omega
    have steps : max (n - i) 1 = max (n - (i + 1)) 1 + 1 := by omega
    rw [List.length_cons, steps]
    obtain short | ⟨first, long, q, here, overdrawn⟩ := ih
    · exact .inl (Nat.succ_le_succ short)
    · refine .inr ⟨first, congrArg (· + 1) long, q, ?_, overdrawn⟩
      rwa [Nat.add_sub_cancel, show max (n - (i + 1)) 1 = max (n - (i + 1)) 1 - 1 + 1 by omega,
        List.getElem?_cons_succ]
  | @collected _ i _ _ _ r _ trials _ made other exhausted collects rest ih =>
    obtain short | ⟨first, -⟩ := ih
    · rw [List.length_cons]
      by_cases last : n ≤ i + 1
      · rw [show max (n - (i + 1)) 1 = 1 by omega] at short
        rw [show max (n - i) 1 = 1 by omega]
        obtain none | one := Nat.le_one_iff_eq_zero_or_eq_one.1 short
        · exact .inl (by omega)
        · exact .inr ⟨rfl, by omega, r, rfl, _, made.answer_eq, exhausted, other⟩
      · exact .inl (by omega)
    · cases first

theorem Row.reports {k : Nat} {q : Trial τ} (here : trials[k]? = some q)
    (answers : q.answer = .ok (some error))
    (conflict : error.matchesError .conflict = true) (late : n ≤ i + k + 1) :
    k + 1 = trials.length ∧ out = .ok (some (RetryPolicy.report (i + k) error)) := by
  induction h generalizing k with
  | spent | refused => cases here
  | last r made reports =>
    cases k <;> cases here
    obtain ⟨-, others⟩ | ⟨_, met, told⟩ := reports
    · cases (others _ (made.answer_eq.symm.trans answers)).symm.trans conflict
    · cases met
      cases made.answer_eq.symm.trans answers
      exact ⟨rfl, told⟩
  | uncollected r made other =>
    cases k <;> cases here
    cases made.answer_eq.symm.trans answers
    cases other.symm.trans conflict
  | again r made _ more _ rest ih =>
    cases k with
    | zero =>
      simp only [RetryPolicy.SpentAt, bound] at more
      omega
    | succ k =>
      obtain ⟨ends, told⟩ := ih here (by omega)
      exact ⟨congrArg (· + 1) ends, by rw [told, Nat.add_right_comm, Nat.add_assoc]⟩
  | collected r made other _ _ rest ih =>
    cases k with
    | zero =>
      cases here
      cases made.answer_eq.symm.trans answers
      cases other.symm.trans conflict
    | succ k =>
      obtain ⟨ends, told⟩ := ih here (by omega)
      exact ⟨congrArg (· + 1) ends, by rw [told, Nat.add_right_comm, Nat.add_assoc]⟩

end

theorem RetryPolicy.report_matches (i : Nat) (conflict : error.matchesError .conflict = true) :
    (report i error).matchesError .tooManyRetries = true ∧
    (report i error).matchesError .conflict = true := by
  unfold report Error.tooManyRetries Error.sentinel Error.withDetails
  refine ⟨?_, ?_⟩
  · simp [Error.matchesError, Error.matchesHead]
  · simp [Error.matchesError, conflict]

/-- A call that may make `n` attempts makes no more, or one more where the `n`-th exhausted the old
heap. When the last of them meets a conflict, the answer tells of too many attempts and of a
conflict. -/
theorem attempts_bounded (play : (atomically fuel t policy body s).Comes out s') (pos : 0 < n)
    (bound : policy.maxRetries = n) :
    ∃ trials, Row t policy body fuel 0 false s trials out s' ∧
      (trials.length ≤ n ∨ trials.length = n + 1 ∧ ∃ r, trials[n - 1]? = some r ∧ r.Overdrawn) ∧
      ∀ k r error, n ≤ k + 1 → trials[k]? = some r → r.answer = .ok (some error) →
      error.matchesError .conflict = true →
        k + 1 = trials.length ∧ ∃ reported, out = .ok (some reported) ∧
          reported.matchesError .tooManyRetries = true ∧
          reported.matchesError .conflict = true := by
  obtain ⟨trials, row⟩ := row_of_comes play
  refine ⟨trials, row, ?_, fun k r error late here answers conflict => ?_⟩
  · have few := row.length_le bound pos
    rw [Nat.sub_zero, Nat.max_eq_left pos] at few
    exact few.imp_right .right
  · obtain ⟨ends, told⟩ := row.reports bound pos here answers conflict (by omega)
    exact ⟨ends, _, told, RetryPolicy.report_matches _ conflict⟩

theorem countP_le_one {p : α → Bool} {l : List α} (h : ∀ a ∈ l.dropLast, p a = false) :
    l.countP p ≤ 1 := by
  cases l.eq_nil_or_concat with
  | inl nil => simp [nil]
  | inr cut =>
    obtain ⟨first, a, rfl⟩ := cut
    rw [List.concat_eq_append] at h ⊢
    rw [List.dropLast_concat] at h
    have none : first.countP p = 0 := List.countP_eq_zero.2 fun b hb => by simp [h b hb]
    rw [List.countP_append, none, Nat.zero_add]
    exact List.countP_le_length

/-- A call that runs a function in transactions makes a row of attempts. Where another follows, the
transaction has been aborted, or the function failed on its own account. If it never does so, at
most one attempt commits. -/
theorem run_again_after_rollback (play : (atomically fuel t policy body s).Comes out s') :
    ∃ trials, Row t policy body fuel 0 false s trials out s' ∧
      (∀ r ∈ trials.dropLast, r.left.1.Ended r.txn .aborted ∨ r.FailedUnaborted) ∧
      ((∀ r ∈ trials.dropLast, ¬ r.FailedUnaborted) → trials.countP Trial.committed ≤ 1) := by
  obtain ⟨trials, row⟩ := row_of_comes play
  refine ⟨trials, row, row.aborted_or_failed, fun steady => countP_le_one fun r hr => ?_⟩
  exact Trial.committed_of_aborted ((row.aborted_or_failed r hr).resolve_right (steady r hr))

end Rows

def Course.alone {σ α : Type} : Nat → Course σ α → Option (Except Raise α × σ)
  | _, .done a s => some (.ok a, s)
  | _, .raised r s => some (.error r, s)
  | n + 1, .waiting .backoff s resume => (resume s).alone n
  | _, _ => none

theorem Course.comes_of_alone {n : Nat} {c : Course (Engine × τ) α}
    {p : Except Raise α × (Engine × τ)} (h : c.alone n = some p) : c.Comes p.1 p.2 := by
  induction c generalizing n with
  | done a s =>
    rw [alone, Option.some.injEq] at h
    rw [← h]
    exact .done a s
  | raised r s =>
    rw [alone, Option.some.injEq] at h
    rw [← h]
    exact .raised r s
  | waiting w s resume ih =>
    cases n with
    | zero => simp [alone] at h
    | succ =>
      cases w with
      | backoff => exact .waiting s ⟨s.1, (Alike.refl s.1).ages, rfl⟩ (ih s h)
      | _ => simp [alone] at h
  | calling => simp [alone] at h

/-- Commits its transaction and then, in the first attempt, returns an error that tells of a
conflict. -/
def commitsItself (i : Nat) : Body (Engine × Unit) := fun x => do
  let _ ← onEngine (commit x)
  return if i = 0 then some .conflict else none

/-- The small engine with one thread. -/
def registered : Engine := ((register small).alone 0).elim small (·.2)

/-- The function is run twice, and both transactions commit. -/
theorem run_again_after_commit :
    ∃ out s' trials, Row 0 {} commitsItself 2 0 false (registered, ()) trials out s' ∧
    (∀ r ∈ trials.dropLast, r.left.1.Ended r.txn .aborted ∨ r.FailedUnaborted) ∧
    (s'.1.txn 0).phase = .committed ∧ (s'.1.txn 1).phase = .committed := by
  have twice : ((atomically 2 0 {} commitsItself (registered, ())).alone 1).any (fun p =>
      (p.2.1.txn 0).phase == .committed && (p.2.1.txn 1).phase == .committed) = true := by
        decide +kernel
  obtain ⟨p, ends, both⟩ := (Option.any_eq_true ..).1 twice
  obtain ⟨trials, row, aborted, -⟩ := run_again_after_rollback (Course.comes_of_alone ends)
  obtain ⟨first, second⟩ := Bool.and_eq_true_iff.1 both
  exact ⟨p.1, p.2, trials, row, aborted, beq_iff_eq.1 first, beq_iff_eq.1 second⟩

def neverFits (_ : Nat) : Body (Engine × Unit) := fun _ => return some .heapExhausted

/-- One attempt is allowed, and the function is run twice. -/
theorem attempts_bounded_exhausted :
    ∃ out s' trials, Row 0 { maxRetries := 1 } neverFits 3 0 false (registered, ()) trials out s' ∧
    (trials.length ≤ 1 ∨ trials.length = 2 ∧ ∃ r, trials[0]? = some r ∧ r.Overdrawn) ∧
      s'.1.txns.size = 2 := by
  have twice : ((atomically 3 0 { maxRetries := 1 } neverFits (registered, ())).alone 1).any
      (fun p => p.2.1.txns.size == 2) = true := by
    decide +kernel
  obtain ⟨p, ends, both⟩ := (Option.any_eq_true ..).1 twice
  obtain ⟨trials, row, few, -⟩ := attempts_bounded (Course.comes_of_alone ends) Nat.one_pos rfl
  exact ⟨p.1, p.2, trials, row, few, beq_iff_eq.1 both⟩

end TxHeap
