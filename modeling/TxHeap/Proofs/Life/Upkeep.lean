import TxHeap.Proofs.CallbackTable
import TxHeap.Proofs.Life.Endings

/-! Work inside a transaction, and calls about shadow stacks and callbacks, in outline. -/

namespace TxHeap
open Engine TxHeap.Action

variable {α β : Type} {L : Licence} {x : TxnId} {t : ThreadId} {p q : Point} {E : Raise → Prop}
  {P : CallPart → Post β}

section Stacks
variable {y : EngineM α} {f : α → EngineCall β}

theorem turning_stack (lic : Licensed L p) (calm : p.Calm L (do
      let a ← y
      unlock (.stack t)
      f a)) (work : Preserves E Poised y)
    (ok : ∀ e a, Poised p.here e → Turning L P p.toCallPart (f a e))
    (error : ∀ v e, E v → P p.toCallPart (.error v) e) : Turning L P p.toCallPart ((do
      lock (.stack t)
      let a ← y
      unlock (.stack t)
      f a : EngineCall β) p.here) := by
  refine turning_lock lic calm (lic.locks t) fun _ => ?_
  have ends := work.ends (p.here.acquire (.stack t))
  unfold Ends at ends
  split at ends
  · next a e run =>
    rw [lift_done run, unlock_bind]
    refine ok _ a ⟨ends.outline, ?_⟩
    rw [giveUp, ends.locked]
    exact List.erase_cons_head ..
  · next v e run =>
    rw [lift_bind_error run]
    exact .error lic calm.1 ends.2.outline (error v e ends.1)

theorem turning_withStack (lic : Licensed L p)
    (calm : p.Calm L ((liftM y : EngineCall α).ending (unlock (.stack t)) >>= f))
    (work : Preserves E Poised y)
    (ok : ∀ e a, Poised p.here e → Turning L P p.toCallPart (f a e))
    (error : ∀ v e, E v → P p.toCallPart (.error v) e) :
    Turning L P p.toCallPart ((withLock (.stack t) (liftM y) >>= f) p.here) := by
  unfold withLock
  rw [bind_assoc]
  refine turning_lock lic calm (lic.locks t) fun _ => ?_
  have ends := work.ends (p.here.acquire (.stack t))
  unfold Ends at ends
  split at ends
  · next a e run =>
    rw [bind_done (ending_done (lift_ok run) (unlock_run ..))]
    refine ok _ a ⟨ends.outline, ?_⟩
    rw [giveUp, ends.locked]
    exact List.erase_cons_head ..
  · next v e run =>
    rw [bind_run, ending_raised (lift_error run) (unlock_run ..)]
    exact .error lic calm.1 ends.2.outline (error v _ ends.1)

end Stacks

/-- A call inside the transaction `x`. It leaves the outline alone, but may end the transaction;
then it is unwound. -/
structure Attends (L : Licence) (x : TxnId) {α : Type} (y : EngineCall α) : Prop where
  turning : ∀ {β : Type} {f : α → EngineCall β} {P : CallPart → Post β} {p : Point}, Ready L p x →
    (∀ z v e, v.Plain → P z (.error v) e) →
      (∀ q a, Ready L q x → Turning L P q.toCallPart (f a q.here)) →
    Turning L P p.toCallPart ((y >>= f) p.here)

namespace Attends
variable {y : EngineCall α} {g : α → EngineCall β}

protected theorem pure (a : α) : Attends L x (pure a : EngineCall α) :=
  ⟨fun ready _ next => next _ a ready⟩

protected theorem bind (h : Attends L x y) (h' : ∀ a, Attends L x (g a)) :
    Attends L x (y >>= g) where
  turning ready plain next := by
    rw [bind_assoc]
    exact h.turning ready plain fun q a ready => (h' a).turning ready plain next

protected theorem look {h : Engine → α} (next : ∀ a, Attends L x (g a)) :
    Attends L x (TxHeap.look h >>= g) where
  turning {_ _ _ p} ready plain last := (next (h p.here)).turning ready plain last

protected theorem ite {c : Prop} [Decidable c] {y y' : EngineCall α} (h : Attends L x y)
    (h' : Attends L x y') :
    Attends L x (if c then y else y') := by
  split
  · exact h
  · exact h'

protected theorem lift {y : EngineM α} (work : Preserves Raise.Plain Poised y) :
    Attends L x (liftM y : EngineCall α) where
  turning ready plain next := turning_work ready.lic (.of_none ready.first) work
    (fun a _ _ same => next _ a (ready.poised same)) fun v e blamed _ => plain _ v e blamed

theorem reads {y : EngineM α} (looks : Looks Raise.Plain y) (next : ∀ a, Attends L x (g a)) :
    Attends L x (liftM y >>= g) :=
  (Attends.lift looks.quiet).bind next

protected theorem raise {v : Violation} (plain : Raise.Plain (.violation v)) :
    Attends L x (liftM (raise v : EngineM α) >>= g : EngineCall β) where
  turning ready fails _ := .error ready.lic (.of_none ready.first) rfl (fails _ _ _ plain)

protected theorem check : Attends L x (liftM (check x) : EngineCall Unit) where
  turning {_ _ _ p} ready _ next := turning_check ready.lic (.of_none ready.first)
    (fun other => absurd ready.tends.held other) fun _ => next p () ready

theorem withStack {y : EngineM α} (work : Preserves Raise.Plain Poised y) :
    Attends L x (withLock (.stack t) (liftM y) : EngineCall α) where
  turning ready plain next := turning_withStack ready.lic (.of_none ready.first) work
    (fun _ a same => next _ a (ready.poised same)) fun v e => plain _ v e

theorem locked {who : Caller} (smooth : Smooth Raise.Plain y) (h : ∀ a, Attends L x (g a)) :
    Attends L x (do
    lock .engine
    park who
    let a ← y
    unlock .engine
    g a) where
  turning {_ _ _ p} ready plain next := by
    simp only [bind_assoc]
    refine turning_engine ready.lic (.of_none ready.first) fun _ lic inner => ?_
    have ready : Ready L (p.go (p.here.acquire .engine)) x := ready.keep rfl lic.locks
    refine turning_park lic inner (.of_none ready.first) fun q lic' onward inner' _ _ => ?_
    have ready := ready.onward lic' onward
    refine turning_smooth lic' inner' (.of_none ready.first) smooth (fun a e _ same => ?_)
      fun v e blamed _ => plain _ v e blamed
    rw [unlock_bind]
    refine (h a).turning (p := q.go (e.giveUp .engine))
      (ready.keep same.outline fun t taken => ?_) plain next
    rw [giveUp, same.locked] at taken
    exact absurd (List.mem_of_mem_erase taken) (inner'.loose t)

theorem poll (who : Caller) : Attends L x (poll who) := by
  refine .look fun _ => .ite ?_ (.pure _)
  have locked : Attends L x (do
      lock .engine
      park who
      let _ ← pure ()
      unlock .engine
      pure ()) := locked (.pure ()) fun _ => .pure ()
  simpa only [pure_bind, bind_pure_comp, Functor.map_unit] using locked

variable (settles : ∀ foreign, L.SettlesAt foreign)
include settles

theorem abortWith (cause : Error) : Attends L x (abortWith x cause : EngineCall α) where
  turning ready plain _ := turning_abortWith ready (settles _) cause
    (fun v e why => plain _ v e why.plain) fun z e => plain z _ e id

theorem conflictOn (r : Ref) (kind : String) : Attends L x (conflictOn x r kind : EngineCall α) :=
  (Attends.lift (poised_countConflict x r kind)).bind fun _ => abortWith settles .conflict

end Attends

section Calls
variable (settles : ∀ foreign, L.SettlesAt foreign)

include settles in
theorem attends_load (r : Ref) (w : Int) : Attends L x (load x r w) := by
  have shared : Attends L x (loadShared x r w) := by
    refine .reads (looks_oldSpan r) fun s => .reads (looks_checkWord r w _) fun i =>
      .reads (looks_getOld s 0) fun h => .look fun v => .ite (.conflictOn settles r _) ?_
    exact .reads (looks_getOld s i) fun v => (Attends.lift (quiet_noteRead x r _)).bind
      fun _ => .pure v
  refine Attends.check.bind fun _ => .ite (.raise id) (.ite ?_ (.look fun copy => ?_))
  · exact .reads (looks_youngSpan x r) fun s => .reads (looks_checkWord r w _) fun i =>
      .look fun k => .lift (looks_getYoung k s i).quiet
  · cases copy with
    | some => exact .reads (looks_checkWord r w _) fun i => .pure _
    | none =>
      refine .look fun created => .ite ?_ shared
      exact .reads (looks_oldSpan r) fun s => .reads (looks_checkWord r w _) fun i =>
        .lift (looks_getOld s i).quiet

include settles in
theorem attends_privateCopy (r : Ref) : Attends L x (privateCopy x r) := by
  refine .look fun copy => ?_
  cases copy with
  | some => exact .pure _
  | none =>
    refine .reads (looks_oldSpan r) fun s => .reads (looks_getOld s 0) fun h =>
      .look fun v => .ite (.conflictOn settles r _) ?_
    refine .reads (looks_sizeIn _) fun size => .look fun words =>
      (Attends.lift (.txn x fun tx => ?_)).bind fun _ => .look fun k =>
        (Attends.lift (quiet_logDebug ..)).bind fun _ => .pure _
    exact ⟨(tx.noteRead_continues r _).1.thread, (tx.noteRead_continues r _).1.segment,
      (tx.noteRead_continues r _).1.phase⟩

include settles in
theorem attends_store (r : Ref) (w : Int) (v : UInt64) : Attends L x (store x r w v) := by
  refine Attends.check.bind fun _ => .ite (.raise id) (.ite ?_ (.look fun created => .ite ?_ ?_))
  · exact .reads (looks_youngSpan x r) fun s => .reads (looks_checkWord r w _) fun i =>
      .look fun k => .lift (quiet_setYoung ..)
  · exact .reads (looks_oldSpan r) fun s => .reads (looks_checkWord r w _) fun i =>
      .lift (quiet_setOld ..)
  · exact (attends_privateCopy settles r).bind fun n => .reads (looks_checkWord r w _) fun i =>
      .lift (quiet_setCopyWord ..)

include settles in
theorem attends_weakTarget (r : Ref) : Attends L x (weakTarget x r) :=
  Attends.check.bind fun _ => .reads (looks_weakSlot x r) fun w =>
    (attends_load settles r w).bind fun _ => .pure _

theorem attends_push (t : ThreadId) (r : Ref) : Attends L x (push t r) where
  turning ready plain next := by
    simp only [push, bind_assoc]
    exact turning_stack ready.lic (.of_none ready.first)
      (.thread t fun _ => ⟨rfl, rfl, rfl, rfl, rfl⟩) (fun _ a same => next _ a (ready.poised same))
        fun v e => plain _ v e

theorem attends_isWeak (r : Ref) : Attends L x (isWeak x r) := by
  refine Attends.check.bind fun _ => .look fun known =>
    .ite (.pure _) ⟨fun {_ _ _ p} ready _ next => ?_⟩
  simp only [bind_assoc]
  refine turning_engine ready.lic (.of_none ready.first) fun _ lic inner => ?_
  rw [look_bind, unlock_bind]
  exact next (p.go ((p.here.acquire .engine).giveUp .engine)) _
    (ready.keep rfl (lic.giveUp inner).locks)

include settles in
theorem attends_roundSize (size : UInt64) : Attends L x (roundSize x size) := by
  refine .look fun rounded => ?_
  cases rounded with
  | some n => exact .pure n
  | none => exact .abortWith settles _

include settles in
theorem attends_allocLarge (size : UInt64) : Attends L x (allocLarge x size) :=
  .look fun _ => .locked (.lift (quiet_mallocOld size)) fun r => .ite (.abortWith settles _)
    ((Attends.lift (quiet_noteCreated x r)).bind fun _ => .pure r)

include settles in
theorem attends_allocAfterMinor (size : UInt64) : Attends L x (allocAfterMinor x size) := by
  refine .look fun _ => .locked (smooth_collectMinor x) fun failure => ?_
  cases failure with
  | some cause => exact .abortWith settles cause
  | none =>
    refine .look fun k => (Attends.lift (quiet_bump? k size)).bind fun room => ?_
    cases room with
    | some r => exact .pure r
    | none => exact .lift (Looks.raise id).quiet

include settles in
theorem attends_alloc (size : UInt64) : Attends L x (alloc x size) := by
  refine Attends.check.bind fun _ => .look fun t => (Attends.poll _).bind fun _ =>
    (attends_roundSize settles size).bind fun n =>
    .look fun k => .look fun room => .look fun large => .ite (attends_allocLarge settles n) ?_
  refine (Attends.lift (quiet_bump? k n)).bind fun room => ?_
  cases room with
  | some r => exact .pure r
  | none => exact attends_allocAfterMinor settles n

include settles in
theorem attends_allocWeak (size : UInt64) (target : Ref) :
    Attends L x (allocWeak x size target) := by
  refine Attends.check.bind fun _ => (attends_roundSize settles size).bind fun n => .look fun t =>
    (attends_push t target).bind fun _ =>
    (attends_alloc settles n).bind fun r => (Attends.withStack (quiet_popTop t)).bind fun target =>
      .look fun k => ?_
  have weakref : Preserves Raise.Plain Poised
      (updateSegment k fun s => { s with weakrefs := s.weakrefs.push r }) :=
    .segment k fun _ => ⟨rfl, rfl⟩
  have noted := (Attends.lift (L := L) (x := x) weakref).bind fun _ => .pure r
  refine .ite ?_ ?_
  · exact .reads (looks_youngSpan x r) fun s => (Attends.lift (quiet_setYoung ..)).bind
      fun _ => noted
  · exact .reads (looks_oldSpan r) fun s => (Attends.lift (quiet_setOld ..)).bind fun _ => noted

end Calls

theorem turning_attends {g : Unit → EngineCall β} (attends : Attends L x (liftM (check x) >>= g))
    (lic : Licensed L p) (first : p.ended = none)
    (unspent : p.spent = false) (acting : p.Acting (p.here.txn x).thread)
    (may : L.ends (p.here.txn x).thread)
    (plain : ∀ z v e, v.Plain → P z (.error v) e) (ok : ∀ z a e, P z (.ok a) e) :
    Turning L P p.toCallPart ((liftM (check x) >>= g) p.here) := by
  by_cases held : (p.here.thread (p.here.txn x).thread).txn = some x
  · rw [← bind_pure (liftM (check x) >>= g)]
    exact attends.turning ⟨lic, first, unspent, ⟨acting, held⟩, may⟩ plain
      fun q a ready => .ok ready.lic (.of_none ready.first) (ok _ a _)
  · exact turning_check lic (.of_none first) (fun _ => plain _ _ _ id) fun own => absurd own held

variable {who : Caller} {mode : PauseMode}

theorem turning_smoothly {P : CallPart → Post α} {y : EngineCall α} (lic : Licensed L p)
    (inner : p.here.Inner)
    (clear : p.Clear L) (smooth : Smooth E y)
    (ok : ∀ a e, e.outline = p.here.outline → P p.toCallPart (.ok a) e)
    (error : ∀ v e, E v → P p.toCallPart (.error v) e) :
    Turning L P p.toCallPart (y.ending (unlock .engine) p.here) := by
  have ends := (smooth.ends p.here inner.loose).known
  cases run : y p.here with
  | done a e =>
    rw [run] at ends
    rw [ending_done run (unlock_run ..)]
    exact .ok (p := p.go (e.giveUp .engine)) (lic.keep ends.1.outline fun t taken => by
      rw [giveUp, ends.1.locked] at taken
      exact absurd (List.mem_of_mem_erase taken) (inner.loose t)) (clear.congr (.inl rfl) fun c _ =>
        congrArg (List.lookup c) (congrArg Outline.foreign ends.1.outline)) (ok a _ ends.1.outline)
  | raised v =>
    rw [run] at ends
    obtain ⟨⟨blamed, same, -⟩, -⟩ := ends
    rw [ending_raised run (unlock_run ..)]
    exact .error lic clear same (error v _ blamed)
  | waiting | calling =>
    rw [run] at ends
    exact ends.elim

section Threads
variable {P : CallPart → Post α} (lic : Licensed L p) (first : p.ended = none)
include lic first

theorem turning_stackWork {y : EngineM α} (work : Preserves E Poised y)
    (ok : ∀ a e, P p.toCallPart (.ok a) e)
    (error : ∀ v e, E v → P p.toCallPart (.error v) e) : Turning L P p.toCallPart ((do
      lock (.stack t)
      let a ← y
      unlock (.stack t)
      pure a : EngineCall α) p.here) :=
  turning_stack lic (.of_none first) work
    (fun e a same => .ok (lic.poised same) (.of_none first) (ok a e)) error

theorem turning_stackLook {y : EngineM α} (work : Preserves E Poised y)
    (ok : ∀ a e, P p.toCallPart (.ok a) e)
    (error : ∀ v e, E v → P p.toCallPart (.error v) e) :
    Turning L P p.toCallPart (withLock (.stack t) (liftM y) p.here) := by
  rw [← bind_pure (withLock (.stack t) (liftM y))]
  exact turning_withStack lic (.of_none first) work
    (fun e a same => .ok (lic.poised same) (.of_none first) (ok a e)) error

end Threads

section Tables
variable {e : Engine} {key : Key} {callback : Option Callback}

theorem Engine.setThread_congr {f g : Thread → Thread} (same : f (e.thread t) = g (e.thread t)) :
    e.setThread t f = e.setThread t g := by
  have threads : e.threads.modify t f = e.threads.modify t g := by
    refine Array.ext (by simp) fun i hi _ => ?_
    rw [Array.size_modify] at hi
    rw [Array.getElem_modify, Array.getElem_modify]
    by_cases h : t = i
    · subst h
      rw [if_pos rfl, if_pos rfl]
      simpa [thread, Array.getD, hi] using same
    · rw [if_neg h, if_neg h]
  rw [setThread, setThread, threads]

theorem noteCallback_idle {last : Phase}
    (idle : ∀ x, (e.thread t).txn = some x → (e.txn x).phase.takes last = false) :
    noteCallback last t key callback e = .ok () e := by
  unfold noteCallback
  rw [get_bind]
  cases held : (e.thread t).txn with
  | none => rfl
  | some x =>
    dsimp only
    rw [get_bind, if_neg (by simp [idle x held])]
    rfl

theorem noteCallback_run {last : Phase} (held : (e.thread t).txn = some x)
    (takes : (e.txn x).phase.takes last = true) :
    noteCallback last t key callback e = match ((e.thread t).table last).amend key callback with
      | none => .error (.violation (.duplicateKey key)) e
      | some table => .ok () (e.setThread t (·.setTable last table)) := by
  unfold noteCallback
  rw [get_bind, held]
  dsimp only
  rw [get_bind, if_pos takes]
  cases callback with
  | none =>
    exact (updateThread_run ..).trans (congrArg (EStateM.Result.ok ()) (setThread_congr rfl))
  | some c =>
    dsimp only
    rw [get_bind, CallbackTable.amend]
    cases ((e.thread t).table last).insert? key c <;> rfl

variable {P : CallPart → Post Unit} (lic : Licensed L p) (first : p.ended = none) (may : L.tables t)
  (ok : ∀ e, P p.toCallPart (.ok ()) e)
    (error : P p.toCallPart (.error (.violation (.duplicateKey key))) p.here)
include lic first may ok error

theorem turning_noteCallback (last : Phase) :
    Turning L P p.toCallPart
    ((liftM (noteCallback last t key callback) : EngineCall Unit) p.here) := by
  have clear : p.Clear L := .of_none first
  by_cases busy : ∃ x, (p.here.thread t).txn = some x ∧ (p.here.txn x).phase.takes last = true
  · obtain ⟨x, held, takes⟩ := busy
    have known := lic.outline.lt
      (by rw [show (p.here.outline.thread t).txn = some x from held]; nofun)
    have run : noteCallback last t key callback p.here = _ := noteCallback_run held takes
    cases amended : ((p.here.thread t).table last).amend key callback with
    | none =>
      rw [amended] at run
      rw [lift_error run]
      exact .error lic clear rfl error
    | some table =>
      rw [amended] at run
      rw [lift_ok run]
      have turn : Turn L p.spent p.here.outline
          (p.here.setThread t (·.setTable last table)).outline := by
        rw [outline_setThread known]
        unfold Thread.setTable
        split
        · exact .note t x _ _ may held (.inr rfl)
        · next aborts =>
          have running : (p.here.txn x).phase = .running := by
            simpa [Phase.takes, aborts] using takes
          exact .note t x _ _ may held (.inl running)
      exact .ok (lic.turn turn lic.locks) clear (ok _)
  · rw [lift_ok (noteCallback_idle fun x held => Bool.eq_false_iff.2 fun takes =>
      busy ⟨x, held, takes⟩)]
    exact .ok lic clear (ok _)

end Tables

section Pauses
variable {P : CallPart → Post α} (lic : Licensed L p) (first : p.ended = none)
include lic first

theorem turning_poll {P : CallPart → Post Unit} (done : ∀ z e, P z (.ok ()) e) :
    Turning L P p.toCallPart (poll who p.here) := by
  unfold poll
  rw [look_bind]
  split
  · refine turning_engine lic (.of_none first) fun _ lic1 inner1 => ?_
    refine turning_park lic1 inner1 (.of_none first) fun q lic2 onward inner2 _ _ => ?_
    rw [lift_ok (unlock_run ..)]
    exact .ok (lic2.giveUp inner2) (.of_none (onward.none first)) (done _ _)
  · exact .ok lic (.of_none first) (done _ _)

theorem turning_pausedOnce {y : EngineCall α} (asks : L.asks who)
    (smooth : Smooth Raise.BadObject y) (mute : Action.Mute y)
    (closed : ∀ z e, P z (.error (.violation .engineClosed)) e)
    (nested : ∀ z e, e.pauser = some who → P z (.error (.violation (.nestedPause who))) e)
    (badObject : ∀ z v e, v.BadObject → P z (.error v) e)
    (done : ∀ z a e e', e.Stopped who mode → y e = .done a e' →
      P z (.ok a) (e'.resumed.giveUp .engine)) :
    Turning L P p.toCallPart (withLock .engine (do
      checkOpen
      whilePaused who mode y) p.here) := by
  have clear : p.Clear L := .of_none first
  refine turning_engine lic (.of_none first) fun _ lic1 inner1 => ?_
  cases shut : p.here.closed with
  | true =>
    rw [ending_raised (lift_bind_error (checkOpen_closed (e := p.here.acquire .engine) shut))
      (unlock_run ..)]
    exact .error lic clear rfl (closed _ _)
  | false =>
    rw [ending_ok (checkOpen_ok (e := p.here.acquire .engine) shut), ← bind_pure (ending _ _)]
    refine turning_whilePaused lic1 inner1 (.of_none first) asks smooth mute .pure
      (fun q _ own => nested _ _ own)
      (fun q v _ why => badObject _ v _ why) fun q a e e' lic2 _ clear2 stopped run here => ?_
    rw [here]
    exact here ▸ .ok lic2 clear2 (here ▸ done _ a e e' stopped run)

theorem turning_pause {P : CallPart → Post Unit} (asks : L.asks who)
    (nested : ∀ z e, e.pauser = some who → P z (.error (.violation (.nestedPause who))) e)
    (done : ∀ z e, P z (.ok ()) e) :
    Turning L P p.toCallPart (withLock .engine (beginPause who mode) p.here) := by
  refine turning_engine lic (.of_none first) fun _ lic1 inner1 => ?_
  rw [← bind_pure (beginPause who mode), ← bind_pure (ending _ _)]
  refine turning_beginPause lic1 inner1 (.of_none first) asks (.pure ()) .pure
    (fun q _ own => nested _ _ own)
    fun q lic2 _ clear inner2 _ => ?_
  rw [bind_done (ending_pure () (unlock_run ..))]
  exact .ok (lic2.giveUp inner2) (clear.congr (.inl rfl) fun _ _ => rfl) (done _ _)

theorem turning_release {P : CallPart → Post Unit}
    (unowned : ∀ z e, P z (.error (.violation (.pauseNotOwned who))) e)
    (done : ∀ z e, P z (.ok ()) e) :
    Turning L P p.toCallPart (withLock .engine (liftM (endPause who)) p.here) := by
  have clear : p.Clear L := .of_none first
  refine turning_engine lic (.of_none first) fun _ lic1 inner1 => ?_
  by_cases own : p.here.pauser = some who
  · rw [ending_done (lift_ok (endPause_run (e := p.here.acquire .engine) own)) (unlock_run ..)]
    have outline : ((p.here.acquire .engine).resumed.giveUp .engine).outline =
        { p.here.outline with pauser := none } := rfl
    have turn : Turn L p.spent p.here.outline
        ((p.here.acquire .engine).resumed.giveUp .engine).outline := by
      rw [outline]
      exact .pause none (by rintro _ ⟨⟩)
    refine .ok (lic.turn turn fun t taken => ?_)
      (.of_none first) (done _ _)
    exact absurd (List.mem_of_mem_erase taken) (inner1.loose t)
  · have run : endPause who (p.here.acquire .engine) = .error (.violation (.pauseNotOwned who))
        (p.here.acquire .engine) := by
      rw [endPause, get_bind, show (p.here.acquire .engine).pauser = p.here.pauser from rfl,
        if_pos (by simpa using own)]
      rfl
    rw [ending_raised (lift_error run) (unlock_run ..)]
    exact .error lic clear rfl (unowned _ _)

end Pauses

section Engines
variable (lic : Licensed L p) (first : p.ended = none)
include lic first

theorem turning_stats {P : CallPart → Post Engine.Stats} (done : ∀ z a e, P z (.ok a) e) :
    Turning L P p.toCallPart (stats p.here) := by
  refine turning_engine lic (.of_none first) fun _ lic1 inner1 => ?_
  exact .ok (lic1.giveUp inner1) (.of_none first) (done _ _ _)

theorem turning_depth {P : CallPart → Post Nat} (done : ∀ z a e, P z (.ok a) e) :
    Turning L P p.toCallPart (depth t p.here) := by
  refine turning_lock lic (.of_none first) (lic.locks t) fun _ => ?_
  rw [ending_done (y := look fun e : Engine => (e.thread t).stack.size) rfl (unlock_run ..),
    giveUp_acquire]
  exact .ok lic (.of_none first) (done _ _ _)

theorem turning_close {P : CallPart → Post Unit} (may : L.closes)
    (occupied : ∀ z n e, P z (.error (.violation (.threadsRegistered n))) e)
    (done : ∀ z e, P z (.ok ()) e) :
    Turning L P p.toCallPart (close p.here) := by
  have clear : p.Clear L := .of_none first
  refine turning_engine lic (.of_none first) fun _ lic1 inner1 => ?_
  have given := lic1.giveUp inner1
  rw [ending_look, look_bind]
  split
  · rw [ending_look, look_bind]
    split
    · exact .error lic clear rfl (occupied _ _ _)
    · have turn : Turn L p.spent p.here.outline { p.here.outline with closed := true } := .close may
      have closes : ∀ e : Engine, e.outline = { p.here.outline with closed := true } →
          e.locked = (p.here.acquire .engine).locked →
          Turning L P p.toCallPart (.done () (e.giveUp .engine)) := by
        intro e same locked
        refine .ok (p := p.go (e.giveUp .engine)) (lic.turn (same ▸ turn) fun t taken => ?_)
          (.of_none first) (done _ _)
        rw [giveUp, locked] at taken
        exact absurd (List.mem_of_mem_erase taken) (inner1.loose t)
      change Turning L P p.toCallPart (ending (look (·.ownsLog) >>= fun owns =>
        if owns then liftM (updateLog (·.close)) else pure ()) (unlock .engine)
          { p.here.acquire .engine with closed := true })
      rw [ending_look, look_bind]
      split
      · rw [ending_done (lift_ok (updateLog_run ..)) (unlock_run ..)]
        exact closes _ rfl rfl
      · rw [ending_pure () (unlock_run ..)]
        exact closes _ rfl rfl
  · exact .ok given clear (done _ _)

theorem turning_setRoot {P : CallPart → Post Unit} (i : Int) (r : Ref)
    (done : ∀ z e, P z (.ok ()) e)
    (error : ∀ z v e, v.Plain → P z (.error v) e) :
    Turning L P p.toCallPart (setRoot t i r p.here) := by
  have work : Preserves Raise.Plain Poised (do
      let _ ← inspectEngine (·.stackEntry t i)
      updateThread t fun th => { th with stack := th.stack.setIfInBounds i.toNat r }) :=
    .bind (.inspect _) fun _ => .thread t fun _ => ⟨rfl, rfl, rfl, rfl, rfl⟩
  have turning := turning_stackWork (t := t) lic first work (fun _ e => done _ e)
    fun v e => error _ v e
  simp only [lift_then, bind_assoc, bind_pure_comp, Functor.map_unit] at turning
  exact turning

theorem turning_allocPrebuilt {P : CallPart → Except Raise (Except Error Ref) → Engine → Prop}
    (size : UInt64) (words : List (Nat × UInt64))
    (done : ∀ z a e, P z (.ok a) e) (error : ∀ z v e, v.Plain → P z (.error v) e) :
    Turning L P p.toCallPart (allocPrebuilt size words p.here) := by
  have clear : p.Clear L := .of_none first
  unfold allocPrebuilt
  rw [look_bind]
  cases p.here.roundSize? size with
  | none => exact .ok lic clear (done _ _ _)
  | some n =>
    refine turning_engine lic (.of_none first) fun _ lic1 inner1 => ?_
    cases shut : p.here.closed with
    | true =>
      rw [ending_raised (lift_bind_error (checkOpen_closed (e := p.here.acquire .engine) shut))
        (unlock_run ..)]
      exact .error lic clear rfl (error _ _ _ id)
    | false =>
      rw [ending_ok (checkOpen_ok (e := p.here.acquire .engine) shut), ending_park]
      refine turning_park lic1 inner1 (.of_none first) fun q lic2 onward inner2 _ _ => ?_
      refine turning_smoothly lic2 inner2 (.of_none (onward.none first)) ?_
        (fun a e _ => done _ a e) fun v e => error _ v e
      refine (Smooth.lift (quiet_mallocOld n)).bind fun r => .ite (.pure _) ?_
      refine (Smooth.lift (quiet_setWords ..)).bind fun _ =>
        (Smooth.lift (quiet_setHeader ..)).bind fun _ => ?_
      exact .bind ⟨fun e _ => ⟨⟨rfl, rfl⟩, rfl⟩⟩ fun _ => .pure _

end Engines

section Ends
variable {f : Unit → EngineCall β} (settles : ∀ foreign, L.SettlesAt foreign) (lic : Licensed L p)
  (first : p.ended = none) (unspent : p.spent = false) (acting : p.Acting (p.here.txn x).thread)
  (may : L.ends (p.here.txn x).thread)
include settles lic first unspent acting may

theorem turning_abort (mute : Action.Mute (f ())) (error : ∀ z v e, v.Plain → P z (.error v) e)
    (next : ∀ q, Licensed L q → q.Clear L → Turning L P q.toCallPart (f () q.here)) :
    Turning L P p.toCallPart ((abort x >>= f) p.here) := by
  have clear : p.Clear L := .of_none first
  unfold abort
  simp only [bind_assoc]
  refine turning_check lic clear (fun _ => error _ _ _ id) fun held => ?_
  have ready : Ready L p x := ⟨lic, first, unspent, ⟨acting, held⟩, may⟩
  rw [look_bind]
  split
  · exact .error lic clear rfl (error _ _ _ id)
  · unfold rollBack
    simp only [bind_assoc]
    refine turning_engine lic (.of_none first) fun _ lic1 inner1 => ?_
    have ready1 : Ready L (p.go (p.here.acquire .engine)) x := ready.keep rfl lic1.locks
    exact ready1.rollsBack inner1 (settles _) mute .abortRequested
      (fun v e why _ => error _ v e why.plain) fun q lic2 _ clear2 _ => next q lic2 clear2

end Ends
end TxHeap
