import TxHeap.Engine.Retry
import TxHeap.Proofs.Call.Outside

/-! The life of a transaction: it begins in a free segment, may become inevitable while no other is,
and commits while nobody else is inevitable. Last, what has been done once a call has answered. -/

namespace TxHeap
open Engine TxHeap.Action

variable {b m : Engine}

variable {α : Type} {who : Actor} {o : Doing} {x : TxnId} {t : ThreadId} {k : SegmentId}
  {e0 e : Engine}

theorem Engine.pickSegment?_free (h : e.pickSegment? t = some k) :
    k < e.segments.size ∧ (e.segment k).owner = none := by
  have found : ∀ j, (e.segments[j]?).any (·.owner.isNone) = true → j < e.segments.size ∧
      (e.segment j).owner = none := by
    intro j hj
    rw [segment, Array.getD_eq_getD_getElem?]
    cases here : e.segments[j]? with
    | none =>
      rw [here] at hj
      cases hj
    | some =>
      rw [here] at hj
      exact ⟨(Array.getElem?_eq_some_iff.1 here).1, Option.isNone_iff_eq_none.1 hj⟩
  unfold pickSegment? at h
  dsimp only at h
  split at h
  · next j last =>
    obtain rfl := Option.some.inj h
    rw [Option.filter_eq_some_iff] at last
    exact found j last.2
  · refine found k ?_
    obtain ⟨hlt, free, -⟩ := Array.findIdx?_eq_some_iff_getElem.1 h
    rwa [Array.getElem?_eq_getElem hlt]

theorem Engine.begins_started (idle : (e.thread t).txn = none)
    (registered : (e.thread t).registered = true)
    (found : e.pickSegment? t = some k) : Begins t e.txns.size k e (e.started t k) := by
  obtain ⟨hk, free⟩ := pickSegment?_free found
  have ht : t < e.threads.size := by
    refine not_not.1 fun hlt => ?_
    rw [thread, getD_out (Nat.le_of_not_lt hlt)] at registered
    cases registered
  have threads : ∀ u, (e.started t k).thread u = if t = u then
      { e.thread t with
        segment := some k, lastSegment := some k, txn := some e.txns.size
        last := .running }
      else e.thread u := by
    intro u
    change ((e.setThread t fun th => { th with segment := some k, lastSegment := some k }).setThread
      t fun th =>
      { th with txn := some e.txns.size, last := .running }).thread u = _
    rw [thread_setThread, thread_setThread, setThread_threads, Array.size_modify, thread_setThread]
    by_cases hu : t = u
    · rw [if_pos ⟨hu, ht⟩, if_pos ⟨rfl, ht⟩, if_pos hu]
    · rw [if_neg fun h => hu h.1, if_neg fun h => hu h.1, if_neg hu]
  have segments : ∀ j, (e.started t k).segment j = if k = j then
      { e.segment k with owner := some t, standing := .running } else e.segment j := by
    intro j
    change (e.setSegment k fun s => { s with owner := some t, standing := .running }).segment j = _
    rw [segment_setSegment]
    by_cases hj : k = j
    · rw [if_pos ⟨hj, hk⟩, if_pos hj]
    · rw [if_neg fun h => hj h.1, if_neg hj]
  have txns : ∀ y, (e.started t k).txn y = if y = e.txns.size then
      { thread := t, segment := k, phase := .running, readVersion := e.clock
        stackAtBegin := (e.thread t).stack }
      else e.txn y := fun y => getD_push ..
  exact
    { settings := rfl, layout := rfl, clock := rfl, inevitable := rfl, weakrefs := rfl
      prebuilt := rfl, arena := rfl
      segments_size := by simp [started]
      threads_size := by simp [started]
      fresh := rfl
      txns_size := by simp [started]
      idle := ⟨idle, registered⟩
      free := free
      thread := fun u hu => by rw [threads, if_neg hu.symm]
      own_thread := by rw [threads, if_pos rfl]; exact ⟨rfl, rfl, registered, rfl⟩
      txn := fun y hy => by rw [txns, if_neg hy]
      own := by rw [txns, if_pos rfl]
      segment := fun j hj => by rw [segments, if_neg hj.symm]; exact .refl _
      own_owner := by rw [segments, if_pos rfl]
      own_used := by rw [segments, if_pos rfl]
      own_nursery := by rw [segments, if_pos rfl]
      own_objects := by rw [segments, if_pos rfl]
      own_weakrefs := by rw [segments, if_pos rfl] }

theorem Engine.Amid.stuck (h : Amid who o [.engine] e0 e) : Stretch who e0 e :=
  h.sofar.stuck h.core h.locked (by rw [h.locked]; exact (.head _))

theorem sound_begin (inv : e.Inv) (mine : who.thread = some t) : Tame who e (begin t e) := by
  unfold begin
  rw [look_bind]
  split
  · exact .refl inv
  next idle =>
  dsimp only
  rw [look_bind]
  split
  · exact .refl inv
  next registered =>
  replace idle : (e.thread t).txn = none := Option.not_isSome_iff_eq_none.1 idle
  replace registered : (e.thread t).registered = true := by simpa using registered
  simp only [withLock, bind_assoc]
  refine (Amid.rest inv).sound_stack fun _ => Sound.bind (sound_unlocking ?_)
  have lull := (lull_acquire e (.stack t)).trans (lull_giveUp _ (.stack t))
  have amid : Amid who .nothing [] e _ := (Amid.rest inv).lull lull (by simp [giveUp, acquire])
  refine amid.sound_engine fun free amid => ?_
  obtain opened | ⟨v, closed⟩ :=
    checkOpen_spec (((e.acquire (.stack t)).giveUp (.stack t)).acquire .engine)
  · rw [lift_done opened]
    refine amid.sound_park free _ fun e1 e2 later amid2 free1 => ?_
    simp only [takeSegment, bind_assoc]
    rw [look_bind]
    have same2 : e2.thread t = e.thread t := later.thread t mine
    have none2 : (e2.thread t).segment = none := by
      cases held : (e2.thread t).segment with
      | none => rfl
      | some j =>
        have holds := (amid2.core.life.holds t j held).1
        rw [same2, idle] at holds
        cases holds
    rw [none2]
    simp only [bind_assoc]
    refine amid2.sound_await free1 _ _ fun e3 e4 later' amid4 free3 met => ?_
    have same4 := (later'.thread t mine).trans same2
    obtain ⟨k, found⟩ := Option.isSome_iff_exists.1 met
    rw [look_bind, found, Option.getD_some, lift_done (updateSegment_run ..),
      lift_done (updateThread_run ..)]
    have idle4 : (e4.thread t).txn = none := by rw [same4, idle]
    have registered4 : (e4.thread t).registered = true := by rw [same4, registered]
    have begins := begins_started idle4 registered4 found
    have stack : ((e.acquire (.stack t)).thread t).stack = (e4.thread t).stack := by rw [same4]; rfl
    rw [stack]
    have lull' : Lull (e4.started t k) (((e4.started t k).giveUp .engine).setLog (·.info
        Event.Kind.transactionStart.name k [("thread", .int t), ("rv", .uint e4.clock)])) :=
      (lull_giveUp _ _).trans (lull_setLog _ _)
    exact amid4.ends (Lull.alike amid4.sofar) (.begin t _ k mine begins)
      (.begin idle4 registered4 found)
      (begins.core amid4.core)
        (fun free j => begins.weakOk amid4.core.life (amid4.weak free j)) lull'
      (amid4.giveUp_locked rfl)
  · rw [lift_bind_error closed]
    exact amid.stuck

theorem Engine.promotes_promoted (hx : e.Active x) (running : (e.txn x).phase = .running)
    (none : e.inevitable = none)
    (fresh : ∀ r v, (r, v) ∈ (e.txn x).reads → v = e.version r) (reason : String) :
    Promotes x e (e.promoted x reason) := by
  exact
    { settings := rfl, layout := rfl, clock := rfl, weakrefs := rfl, prebuilt := rfl, arena := rfl
      segments_size := rfl
      txns_size := by simp [promoted]
      threads_size := by simp [promoted]
      segment := fun _ => .refl _
      none := none
      inevitable := rfl
      running := running
      thread := fun u hu => by rw [thread_promoted, if_neg fun h => hu h.1.symm]
      own_thread := by
        rw [thread_promoted]
        split
        · exact ⟨⟨rfl, rfl, rfl⟩, rfl⟩
        · exact ⟨.refl _, rfl⟩
      txn := fun y hy => by rw [txn_promoted, if_neg fun h => hy h.1.symm]
      own := ⟨reason, by rw [txn_promoted, if_pos ⟨rfl, active_lt hx⟩]⟩
      fresh := fresh }

theorem running_of_active (hx : e.Active x) (other : (e.txn x).phase ≠ .inevitable) :
    (e.txn x).phase = .running := by
  revert hx other
  rw [Active]
  cases (e.txn x).phase <;> simp [Phase.isActive]

theorem sound_becomeInevitable (inv : e.Inv) (mine : who = e.actor x) (reason : String) :
    Tame who e (becomeInevitable x reason e) := by
  unfold becomeInevitable
  by_cases hx : e.Active x
  swap
  · obtain ⟨v, refused⟩ := check_refused hx
    rw [lift_bind_error refused]
    exact .refl inv
  rw [lift_done (check_ok inv.core.life hx), look_bind]
  split
  · exact .refl inv
  next other =>
  have running := running_of_active hx (by simpa using other)
  rw [look_bind]
  refine (Amid.rest inv).sound_engine fun free amid => amid.sound_park free _
    fun e1 e2 later2 amid2 free1 => ?_
  refine amid2.sound_await free1 _ _ fun e3 e4 later4 amid4 free3 met => ?_
  have later := (alike_acquire e .engine).later.trans (later2.trans later4)
  have runs4 := later.runs inv.core.life ⟨hx, mine⟩
  have kept := (later.txn _ x (by rw [mine, actor]) (inv.core.life.thread x hx)).keeps
  have running4 := kept.phase.trans running
  have own := amid4.own runs4 (.inl rfl)
  obtain ⟨stale, validated, fresh⟩ := staleRead?_run amid4.core.heap fun r v hr =>
    ((amid4.core.txns x runs4.1).reads r v hr).1
  rw [look_bind, lift_done validated]
  cases stale with
  | some r =>
    obtain ⟨e5, counted, alike, locked⟩ := countConflict_spec x r "inevitable" e4
    dsimp only
    rw [lift_done counted]
    refine sound_discard (own.conflict counted alike locked) free3 .conflict
      (fun _ _ stretch => stretch)
      fun callbacks e6 stretch past => ?_
    rw [unlock_bind]
    exact sound_callAll stretch ((alike_giveUp e6 .engine).ages.keeps past) callbacks
      (fun _ _ _ stretch _ => stretch) fun _ _ stretch _ => stretch
  | none =>
    have promotes := promotes_promoted runs4.1 running4 met (fresh.1 rfl) reason
    have lull' : Lull (e4.promoted x reason) (((e4.promoted x reason).giveUp .engine).setLog (·.info
        Event.Kind.becomeInevitable.name ((e4.promoted x reason).txn x).segment
        [("reason", .text reason), ("rv", .uint e4.clock)])) :=
          (lull_giveUp _ _).trans (lull_setLog _ _)
    have thread := kept.thread.symm
    rw [thread]
    exact amid4.ends (Lull.alike amid4.sofar) (.promote x runs4 promotes)
      (.promote reason running4 met (fresh.1 rfl))
      (promotes.core amid4.core) (fun free j => promotes.weakOk (amid4.weak free j)) lull'
        (amid4.giveUp_locked rfl)

namespace Engine

theorem Commits.weakOk (h : Commits x m b) (ok : m.Core) (weak : ∀ k, m.WeakOk k) (k : SegmentId) :
    b.WeakOk k := by
  by_cases hk : k = (m.txn x).segment
  · intro w hw
    rw [hk, h.leaves.own_weakrefs] at hw
    simp at hw
  · exact h.leaves.weakOk ok.life h.active (weak k)

def Alone (e : Engine) (x : TxnId) : Prop := ∀ y, e.inevitable = some y → y = x

theorem LifeOk.alone (ok : e.LifeOk) (hx : (e.txn x).phase = .inevitable) : e.Alone x := by
  intro y hy
  have mine := (ok.inevitable x).2 hx
  rw [mine] at hy
  exact (Option.some.inj hy).symm

end Engine

theorem Engine.Amid.sound_alone {Q : Engine → Post α} {f : Unit → EngineCall α}
    (h : Amid who .nothing [.engine] e0 e) (free : .engine ∉ e0.locked) (runs : e.Runs who x)
    (next : ∀ e1 e2, Amid who .nothing [.engine] e1 e2 → .engine ∉ e1.locked → e2.Runs who x →
      e2.Alone x →
      Sound who Q e1 (f () e2)) :
    Sound who Q e0 ((do
      if (← look fun e => (e.txn x).phase) != .inevitable then await (.thread t) .noInevitable
      f () : EngineCall α) e) := by
  rw [look_bind]
  split
  · refine h.sound_await free _ _ fun e1 e2 later amid free1 met => next e1 e2 amid free1
      (later.runs h.core.life runs) ?_
    intro y hy
    rw [met] at hy
    cases hy
  · next phase => exact next e0 e h free runs (h.core.life.alone (by simpa using phase))

theorem sound_refuse {cause : Error} (h : Torn who x [.engine] e0 e) (free : .engine ∉ e0.locked) :
    Tame who e0 (refuse x cause e) := by
  refine sound_discard h free cause (fun _ _ stretch => stretch) fun callbacks e' stretch past => ?_
  rw [unlock_bind]
  exact sound_callAll stretch ((alike_giveUp e' .engine).ages.keeps past) callbacks
    (fun _ _ _ stretch _ => stretch) fun _ _ stretch _ => stretch

section
variable (h : Amid who (.work x) [.engine] e0 e) (before : Alike e0 m) (minor : Minor x m e)
include h before minor

theorem Engine.Amid.committed {b' : Engine}
    (fresh : ∀ r v, (r, v) ∈ (e.txn x).reads → v = e.version r) (free : .engine ∉ e0.locked)
    (commits : Commits x e b) (feat : Feat e b) (lull : Lull b b')
    (locked : b'.locked = e0.locked) :
    Amid who (.settling x) [] e0 b' ∧ b'.Ended x .committed := by
  have after := lull.alike
  have weak := h.weak free
  have small : b.clock.toNat < 2 ^ 63 := by
    have ticks := h.inv.ticks
    rw [← before.clock, ← minor.serves.works.steady.clock] at ticks
    rw [commits.clock]
    split
    · omega
    · exact (UInt64.toNat_add ..).trans_lt ((Nat.mod_le _ _).trans_lt ticks)
  have core := commits.core h.core small (weak _)
  have runs : m.Runs who x :=
    ⟨before.active.2 h.sofar.1.1, by rw [actor, before.txn]; exact h.sofar.1.2⟩
  have published := (h.step feat free).step core (commits.weakOk h.core weak) (.lull lull)
  refine ⟨⟨h.inv, .inr ⟨m, e, b, before, runs, minor, ⟨fresh, weak⟩, commits, after⟩,
    fun _ => published, core.alike after,
    fun _ k => (commits.weakOk h.core weak k).alike after, locked⟩, ?_, ?_, rfl⟩
  · rw [after.txns, commits.leaves.txns_size]
    exact active_lt h.runs.1
  · rw [after.txn, commits.leaves.own.1]

theorem sound_succeed (acts : who.Acts t) (alone : e.Alone x) (free : .engine ∉ e0.locked)
    (fresh : ∀ r v, (r, v) ∈ (e.txn x).reads → v = e.version r) :
    Tame who e0 (succeed x t e) := by
  unfold succeed
  have number := minor.serves.works.own.segment
  have empty : (e.segment (e.txn x).segment).used = 0 := by rw [number]; exact minor.used
  obtain ⟨done, b, run, locked, -, commits⟩ := settleCommit_spec h.core h.runs.1 empty alone
  rw [lift_done run, unlock_bind, lift_done (logInfo_run ..)]
  have lull : Lull b ((b.giveUp .engine).setLog
      (·.info Event.Kind.transactionCommit.name done.segment done.fields)) :=
    (lull_giveUp _ _).trans (lull_setLog _ _)
  obtain ⟨amid, past⟩ := h.committed before minor fresh free commits
    (.commit h.runs.1 empty alone fresh run) lull (by simp [giveUp, setLog, locked, h.locked])
  refine sound_callAllFrom (fun _ _ amid => amid.stretch) (fun _ inv => .start inv (by rintro _ ⟨⟩))
    amid past done.callbacks (fun _ _ _ stretch _ => stretch) fun e1 e2 amid past => ?_
  split
  · refine .bind (sound_collectIfDue amid acts h.sofar.1.txn past fun _ out _ stretch _ => ?_)
    cases out with
    | ok | error => exact stretch
  · exact amid.stretch

theorem sound_validated (acts : who.Acts t) (alone : e.Alone x) (free : .engine ∉ e0.locked) :
    Tame who e0 ((do
      match ← validate? x with
      | some r =>
        countConflict x r "commit"
        refuse x .conflict
      | none => succeed x t : EngineCall (Option Error)) e) := by
  have own := h.core.txns x h.runs.1
  by_cases inevitable : (e.txn x).phase = .inevitable
  · have valid : validate? x e = .ok none e := by
      rw [validate?, get_bind, inevitable]
      rfl
    rw [lift_done valid]
    exact sound_succeed h before minor acts alone free (own.inevitable inevitable).2
  · obtain ⟨stale, run, fresh⟩ := staleRead?_run h.core.heap fun r v hr => (own.reads r v hr).1
    have valid : validate? x e = .ok stale e := by
      rw [validate?, get_bind, if_neg (by simpa using inevitable), get_bind, run]
    rw [lift_done valid]
    cases stale with
    | none => exact sound_succeed h before minor acts alone free (fresh.1 rfl)
    | some r =>
      obtain ⟨e', counted, alike, locked⟩ := countConflict_spec x r "commit" e
      dsimp only
      rw [lift_done counted]
      exact sound_refuse (h.conflict counted alike locked) free

end

theorem sound_commitAlone (h : Amid who .nothing [.engine] e0 e) (free : .engine ∉ e0.locked)
    (runs : e.Runs who x)
    (acts : who.Acts t) (alone : e.Alone x) : Tame who e0 (commitAlone x t e) := by
  unfold commitAlone
  have own := h.own runs (.inl rfl)
  have stack := h.stack_free free
  have minor := collectMinor_spec h.core runs.1 (stack _) (h.weak free _)
  rw [bind_run]
  generalize hrun : collectMinor x e = course at minor
  cases course with
  | waiting | calling => exact minor.elim
  | raised v e' =>
    obtain ⟨works, core, ms, locked⟩ := minor
    exact own.fails works core locked
  | done failure =>
    obtain ⟨minor, weak, -⟩ := minor
    cases failure with
    | some cause => exact sound_refuse (own.tears minor.serves (.minor cause stack hrun)) free
    | none =>
      exact sound_validated (own.serves minor.serves (.minor runs.1 stack hrun) fun _ => weak rfl)
        (Lull.alike h.sofar) minor
        acts (fun y hy => alone y (by rwa [← minor.serves.works.steady.inevitable])) free

theorem sound_commit (inv : e.Inv) (mine : who = e.actor x) : Tame who e (commit x e) := by
  unfold commit
  by_cases hx : e.Active x
  · rw [lift_done (check_ok inv.core.life hx), look_bind]
    refine (Amid.rest inv).sound_engine fun free amid => amid.sound_park free _
      fun e1 e2 later amid2 free1 => ?_
    have runs := ((alike_acquire e .engine).later.trans later).runs inv.core.life ⟨hx, mine⟩
    refine amid2.sound_alone (f := fun _ => commitAlone x (e.txn x).thread) free1 runs ?_
    exact fun e3 e4 amid4 free3 runs4 alone => sound_commitAlone amid4 free3 runs4
      (Runs.thread ⟨hx, mine⟩) alone
  · obtain ⟨v, refused⟩ := check_refused hx
    rw [lift_bind_error refused]
    exact .refl inv

theorem sound_endFailed (inv : e.Inv) (mine : who = e.actor x) : Tame who e (endFailed x e) := by
  unfold endFailed
  rw [look_bind]
  split
  · rw [look_bind]
    split
    · exact sound_commit inv mine
    · refine .bind ((sound_abort inv mine).mono fun _ out _ stretch => ?_)
      cases out with
      | ok | error => exact stretch
  · exact .refl inv

theorem sound_safePoint (inv : e.Inv) (c : Caller) : Tame who e (poll c e) := by
  have polled := (Amid.rest inv).sound_poll (f := pure) (Q := fun e _ e' => Stretch who e e') c
    fun _ _ _ amid => amid.stretch
  rwa [bind_pure] at polled

section Tables
variable (inv : e.Inv) (mine : who = ⟨some t, (e.thread t).txn⟩)
include inv mine

theorem stretch_setTable (held : (e.thread t).txn = some x) (last : Phase)
    (table : Thread → CallbackTable Key Callback) :
    Stretch who e (e.setThread t fun th => th.setTable last (table th)) := by
  obtain ⟨hx, rfl, -, -⟩ := inv.core.life.txn t x held
  have retable : ∀ th : Thread, th.setTable last (table th) = { th with
      onAbort := if last = .committed then th.onAbort else table th
      onCommit := if last = .committed then table th else th.onCommit } := fun th => by
    unfold Thread.setTable
    split <;> rfl
  simp only [retable]
  have serves := serves_thread inv.core hx (f := fun th => { th with
    onAbort := if last = .committed then th.onAbort else table th
    onCommit := if last = .committed then table th else th.onCommit }) ⟨rfl, rfl, rfl⟩
      (inv.core.own_usable hx)
  have amid : Amid who (.work x) [] e e := .work inv ⟨hx, by rw [mine, held]; rfl⟩
  exact (amid.serves serves (.tables _ _ _ held) fun free =>
    serves.works.own_weakOk inv.core.life hx (fun _ hw => .inl hw) (fun _ ho => ho)
      (amid.weak free _)).stretch

theorem sound_noteCallback (last : Phase) (key : Key) (callback : Option Callback) :
    Tame who e ((liftM (noteCallback last t key callback) : EngineCall Unit) e) := by
  have same : Stretch who e e := .refl inv
  refine Sound.of_finishes (Course.Finishes.lift ?_)
    (fun _ _ h => h) fun _ _ h => h
  refine .get_bind ?_
  split
  · exact same
  · next x held =>
    refine .get_bind ?_
    split
    · split
      · exact stretch_setTable inv mine held last _
      · refine .get_bind ?_
        split
        · exact same
        · exact stretch_setTable inv mine held last fun _ => _
    · exact same

end Tables

variable {size v : UInt64}

variable {e' : Engine} {r : Ref} {w : Int}

theorem Action.throw_ne_done {σ α β : Type} (f : Action σ α) (v : Raise) {s s' : σ} {b : β} :
    (f >>= fun _ => throw v) s ≠ .done b s' := by
  intro run
  rw [bind_run] at run
  cases h : f s with
  | done | raised | waiting | calling => rw [h] at run; cases run

theorem conflictOn_ne_done {α : Type} {a : α} {kind : String} :
    conflictOn x r kind e ≠ .done a e' := by
  have regroup : (conflictOn x r kind : EngineCall α) =
      (liftM (countConflict x r kind) >>= fun _ => rollBack x .conflict) >>= fun _ =>
        throw (.abort .conflict) := by
    simp only [conflictOn, abortWith, bind_assoc]
  rw [regroup]
  exact throw_ne_done _ _

theorem load_done (ok : e.Core) (hx : e.Active x) (usable : e.Usable (e.txn x).thread r)
    (run : load x r w e = .done v e') : Reads x r w e v e' := by
  obtain ⟨-, conflict⟩ | finishes := load_cases ok hx usable w
  · exact absurd (conflict.symm.trans run) conflictOn_ne_done
  · rwa [run] at finishes

theorem privateCopy_done (ok : e.Core) (hx : e.Active x) (shared : e.Shared r) {n : Nat}
    (run : privateCopy x r e = .done n e') (w : Int) : Stores x r w e e' := by
  obtain ⟨-, conflict⟩ | finishes := privateCopy_cases ok hx shared w
  · exact absurd (conflict.symm.trans run) conflictOn_ne_done
  · rwa [run] at finishes

theorem store_done (ok : e.Core) (hx : e.Active x) (usable : e.Usable (e.txn x).thread r)
    (inside : e.Inside x r w) (run : store x r w v e = .done () e') : Stores x r w e e' := by
  obtain ⟨-, conflict⟩ | finishes := store_cases ok hx usable inside v
  · exact absurd (conflict.symm.trans run) conflictOn_ne_done
  · rwa [run] at finishes

theorem bump?_done {k : SegmentId} (run : bump? k size e = .ok (some r) e') :
    ¬ (e.segment k).used + size > UInt64.ofNat (e.segment k).nursery.size * 8 ∧
    r = .young k (e.segment k).used ∧
      e' = e.setSegment k (·.bumped (e.segment k).used size) := by
  by_cases full : (e.segment k).used + size > .ofNat (e.segment k).nursery.size * 8
  · rw [bump?_full full] at run
    cases run
  · rw [bump?_fits full] at run
    cases run
    exact ⟨full, rfl, rfl⟩

theorem mallocOld_done (ok : e.HeapOk) (hsize : size.toNat < 2 ^ 60)
    (run : mallocOld size e = .ok r e') :
    OnlyHeap e e' ∧ e'.arena.Good ∧ (r = .null ∧ e.arena.SamePayloads e'.arena ∨
      r ≠ .null ∧ ∃ n, size.toNat ≤ 8 * n ∧ e.arena.Takes e'.arena r.bits n) := by
  obtain ⟨e1, only, good, ⟨ran, keeps⟩ | ⟨q, n, ran, found, fits, takes⟩⟩ :=
    mallocOld_spec ok.good ok.even ok.small hsize
  · rw [run] at ran
    cases ran
    exact ⟨only, good, .inl ⟨rfl, keeps⟩⟩
  · rw [run] at ran
    cases ran
    exact ⟨only, good, .inr ⟨found, n, fits, takes⟩⟩

theorem prebuild_done (ok : e.Core) {e1 e2 : Engine} {words : List (Nat × UInt64)}
    (whole : Sizeable size) (inside : ∀ p ∈ words, p.1 < (size / 8).toNat)
    (run : mallocOld size e = .ok r e1) (found : r ≠ .null)
    (set : setWords ⟨Word.index r.bits, (size / 8).toNat⟩ words e1 = .ok () e2) :
    e2.toEngineTables = { e.toEngineTables with log := e1.log } ∧
      ∃ n, size.toNat ≤ 8 * n ∧
        Prebuilds r n e { e2.putWord r 0 0 with prebuilt := e2.prebuilt.push r } := by
  obtain ⟨only, good, ⟨none, -⟩ | ⟨-, n, fits, takes⟩⟩ := mallocOld_done ok.heap whole.2.2 run
  · exact absurd none found
  · have room := (takes.live _ n).2 (.inr ⟨rfl, rfl⟩)
    have hm : (size / 8).toNat ≤ n := by
      rw [UInt64.toNat_div]
      change size.toNat / 8 ≤ n
      omega
    obtain ⟨e3, f, ran, written⟩ := setWords_spec good room hm inside
    rw [Ref.span, ← Word.index_eq, set] at ran
    cases ran
    exact ⟨written.tables.trans only, n, fits, prebuilds only takes good written⟩

theorem collectMinor_done (ok : e.Core) (hx : e.Active x)
    (free : .stack (e.txn x).thread ∉ e.locked) (weak : e.WeakOk (e.txn x).segment)
    {failure : Option Error} (run : collectMinor x e = .done failure e') :
    Minor x e e' ∧ (failure = none → e'.WeakOk (e.txn x).segment) := by
  have spec := collectMinor_spec ok hx free weak
  rw [run] at spec
  exact ⟨spec.1, spec.2.1⟩

theorem collectOld_ends (ok : e.Core) (weak : ∀ k, e.WeakOk k) (free : ∀ t, .stack t ∉ e.locked)
    (run : collectOld e = .done () e' ∨ ∃ v, collectOld e = .raised v e') : e.Collected e' := by
  have spec := collectOld_spec ok weak free
  obtain run | ⟨v, run⟩ := run
  · rwa [run] at spec
  · rwa [run] at spec

theorem discard_done (ok : e.Core) (hx : e.Active x) (free : .stack (e.txn x).thread ∉ e.locked)
    (running : (e.txn x).phase = .running) {cause : Error} {callbacks : List Callback}
    (run : discard x cause e = .done callbacks e') :
    e'.counters = { e.counters with aborts := e.counters.aborts + 1 } ∧
    ∃ b, Aborts x e b ∧ Alike b e' := by
  obtain ⟨callbacks, e1, ran, -, spec⟩ := discard_spec ok hx free running cause
  rw [run] at ran
  cases ran
  exact spec

theorem settleCommit_done (ok : e.Core) (hx : e.Active x)
    (empty : (e.segment (e.txn x).segment).used = 0) (alone : ∀ y, e.inevitable = some y → y = x)
    {done : Committed} (run : settleCommit x e = .ok done e') :
    e'.counters = e.committing x ∧ Commits x e e' := by
  obtain ⟨done, e1, ran, -, spec⟩ := settleCommit_spec ok hx empty alone
  rw [run] at ran
  cases ran
  exact spec

end TxHeap
