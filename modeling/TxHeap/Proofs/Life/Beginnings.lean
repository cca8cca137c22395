import TxHeap.Proofs.Life.Endings

/-! Threads and transactions in outline: a thread is registered, begins a transaction, may make it
inevitable, and is retired. -/

namespace TxHeap
open Engine TxHeap.Action

variable {e : Engine}

namespace Engine
variable {t : ThreadId} {k : SegmentId} {x : TxnId}

theorem outline_started (known : t < e.threads.size) :
    (e.started t k).outline = e.outline.begun t k := by
  rw [outline, Outline.begun, Outline.mk.injEq]
  refine ⟨by simp [started, outline], funext fun u => ?_, by simp [started, outline],
    funext fun y => ?_, rfl, rfl, rfl⟩
  · change (((e.setThread t fun th =>
      { th with segment := some k, lastSegment := some k }).setThread t fun th =>
      { th with txn := some e.txns.size, last := .running }).thread u).life = _
    rw [thread_setThread, thread_setThread, setThread_threads, Array.size_modify, thread_setThread,
      Function.update_apply]
    by_cases hu : u = t
    · rw [if_pos ⟨hu.symm, known⟩, if_pos ⟨rfl, known⟩, if_pos hu]
      rfl
    · rw [if_neg fun h => hu h.1.symm, if_neg fun h => hu h.1.symm, if_neg hu]
      rfl
  · have record : (e.started t k).txn y = if y = e.txns.size then
      { thread := t, segment := k, phase := .running, readVersion := e.clock
        stackAtBegin := (e.thread t).stack }
      else e.txn y := getD_push ..
    rw [record, Function.update_apply, show e.outline.txns = e.txns.size from rfl]
    by_cases hy : y = e.txns.size
    · rw [if_pos hy, if_pos hy]
    · rw [if_neg hy, if_neg hy]
      rfl

theorem outline_enrolled (e : Engine) :
    outline { e with threads := e.threads.push { registered := true } } = e.outline.enrolled := by
  rw [outline, Outline.enrolled, Outline.mk.injEq]
  refine ⟨by simp [outline], funext fun u => ?_, rfl, rfl, rfl, rfl, rfl⟩
  have thread : Engine.thread { e with threads := e.threads.push { registered := true } } u =
      if u = e.threads.size then { registered := true } else e.thread u := getD_push ..
  rw [thread, Function.update_apply, show e.outline.threads = e.threads.size from rfl]
  by_cases hu : u = e.threads.size
  · rw [if_pos hu, if_pos hu]
    rfl
  · rw [if_neg hu, if_neg hu]
    rfl

theorem outline_promoted (hx : x < e.txns.size) (known : (e.txn x).thread < e.threads.size)
    (reason : String) :
    (e.promoted x reason).outline = e.outline.promoted x := by
  rw [outline, Outline.promoted, Outline.mk.injEq]
  refine ⟨by simp [promoted, outline], funext fun u => ?_, by simp [promoted, outline],
    funext fun y => ?_, rfl, rfl, rfl⟩
  · rw [thread_promoted, Function.update_apply]
    by_cases hu : u = (e.txn x).thread
    · rw [if_pos ⟨hu.symm, known⟩]
      exact (if_pos hu).symm
    · rw [if_neg fun h => hu h.1.symm]
      exact (if_neg hu).symm
  · rw [txn_promoted, Function.update_apply]
    by_cases hy : y = x
    · rw [if_pos ⟨hy.symm, hx⟩, if_pos hy]
      rfl
    · rw [if_neg fun h => hy h.1.symm, if_neg hy]
      rfl

end Engine

variable {β : Type} {L : Licence} {p q r : Point} {x : TxnId} {t : ThreadId} {P : CallPart → Post β}

/-- The call has not ended a transaction so far, and its entry in the table of foreign callers is as
it was. -/
structure Advanced (L : Licence) (p q : Point) : Prop extends Later p q where
  first : q.ended = none
  unspent : q.spent = p.spent
  foreign : ∀ c, L.control = some c → q.here.foreign.lookup c = p.here.foreign.lookup c

namespace Advanced

theorem trans (h : Advanced L p q) (h' : Advanced L q r) : Advanced L p r :=
  ⟨h.toLater.trans h'.toLater, h'.first, h'.unspent.trans h.unspent,
    fun c hc => (h'.foreign c hc).trans (h.foreign c hc)⟩

theorem of_onward (h : Onward L p q) (first : p.ended = none) : Advanced L p q :=
  ⟨h.toLater, h.none first, h.unspent first, h.foreign⟩

theorem of_turn (lic : Licensed L p) (first : p.ended = none)
    (turn : Turn L p.spent p.here.outline e.outline)
    (foreign : e.foreign = p.here.foreign) : Advanced L p (p.go e) where
  spent := id
  tracks _ ht := ⟨ht.acting, ht.known.trans_le (turn.ages lic.outline).threads⟩
  ages := turn.ages lic.outline
  first := first
  unspent := rfl
  foreign c _ := congrArg (List.lookup c) foreign

end Advanced

section Beginning
variable {f : TxnId → EngineCall β}

structure Commenced (L : Licence) (p : Point) (t : ThreadId) (x : TxnId) (q : Point) :
    Prop extends Advanced L p q where
  held : (q.here.thread t).txn = some x
  running : (q.here.txn x).phase = .running
  unread : (q.here.txn x).reads = []
  new : p.here.txns.size ≤ x

theorem turning_begin (lic : Licensed L p) (first : p.ended = none) (tracks : p.Tracks t)
    (busy : (p.here.thread t).txn ≠ none →
      P p.toCallPart (.error (.violation (.begunInside t))) p.here)
    (strange : (p.here.thread t).registered = false →
      P p.toCallPart (.error (.violation (.notRegistered t))) p.here)
    (closed : ∀ e, p.here.closed = true → e.outline = p.here.outline →
      P p.toCallPart (.error (.violation .engineClosed)) e)
    (next : ∀ q x, Licensed L q → Commenced L p t x q → Turning L P q.toCallPart (f x q.here)) :
    Turning L P p.toCallPart ((begin t >>= f) p.here) := by
  have clear : p.Clear L := .of_none first
  unfold begin
  simp only [bind_assoc]
  rw [look_bind]
  split
  · next some => exact .error lic clear rfl (busy (Option.isSome_iff_ne_none.1 some))
  next idle =>
  replace idle : (p.here.thread t).txn = none := Option.not_isSome_iff_eq_none.1 idle
  rw [bind_assoc, look_bind]
  split
  · next stranger => exact .error lic clear rfl (strange (by simpa using stranger))
  next registered =>
  replace registered : (p.here.thread t).registered = true := by simpa using registered
  simp only [bind_assoc, withLock]
  refine turning_lock lic (.of_none first) (lic.locks t) fun _ => ?_
  rw [bind_done (ending_done (y := look fun e : Engine => (e.thread t).stack) rfl (unlock_run ..)),
    giveUp_acquire]
  refine turning_engine lic (.of_none first) fun _ lic1 inner1 => ?_
  cases shut : p.here.closed with
  | true =>
    rw [lift_bind_error (checkOpen_closed (e := p.here.acquire .engine) shut)]
    exact .error lic clear rfl (closed _ shut rfl)
  | false =>
  rw [lift_done (checkOpen_ok (e := p.here.acquire .engine) shut)]
  refine turning_park lic1 inner1 (.of_none first) fun q lic2 onward2 inner2 _ _ => ?_
  replace onward2 := Onward.acquire.trans onward2
  have same2 := onward2.thread t tracks
  have unseated : (p.here.thread t).segment = none := (lic.outline.idle t idle).1
  simp only [takeSegment, bind_assoc]
  rw [look_bind, same2, unseated]
  simp only [bind_assoc]
  refine turning_awaited lic2 inner2 (.of_none (onward2.none first))
    fun r lic3 onward3 inner3 _ => ?_
  have first3 := (onward2.trans onward3).none first
  have same3 := (onward2.trans onward3).thread t tracks
  rw [look_bind, lift_done (updateSegment_run ..), lift_done (updateThread_run ..),
    show (p.here.acquire (.stack t)).thread t = p.here.thread t from rfl, ← same3]
  generalize (r.here.pickSegment? t).getD 0 = k
  change Turning L P r.toCallPart
    (f r.here.txns.size (((r.here.started t k).giveUp .engine).setLog (·.info
    Event.Kind.transactionStart.name k [("thread", .int t), ("rv", .uint r.here.clock)])))
  have known := ((onward2.trans onward3).tracks t tracks).known
  have outline := outline_started (k := k) known
  have turn : Turn L r.spent r.here.outline (r.here.started t k).outline := by
    rw [outline]
    refine .begin t k ?_ ?_
    · exact (congrArg Thread.txn same3).trans idle
    · exact (congrArg Thread.registered same3).trans registered
  generalize hlog : (fun l : Event.Log => l.info _ _ _) = log
  have lic4 : Licensed L (r.go (((r.here.started t k).giveUp .engine).setLog log)) :=
    lic3.turn turn fun u taken => absurd (List.mem_of_mem_erase taken) (inner3.loose u)
  have advanced : Advanced L p (r.go (((r.here.started t k).giveUp .engine).setLog log)) :=
    (Advanced.of_onward (onward2.trans onward3) first).trans (.of_turn lic3 first3 turn rfl)
  have record : (r.here.started t k).txn r.here.txns.size =
      { thread := t, segment := k, phase := .running, readVersion := r.here.clock
        stackAtBegin := (r.here.thread t).stack } :=
    (getD_push ..).trans (if_pos rfl)
  refine next _ _ lic4 ⟨advanced, ?_, congrArg Txn.phase record, congrArg Txn.reads record,
    (onward2.trans onward3).ages.txns⟩
  change ((r.here.started t k).outline.thread t).txn = _
  rw [outline, Outline.thread_begun]
  rfl

end Beginning

section Promoting
variable {f : Unit → EngineCall β}

structure Promoted (L : Licence) (p : Point) (x : TxnId) (q : Point) :
    Prop extends Advanced L p q where
  thread : (q.here.txn x).thread = (p.here.txn x).thread
  held : (q.here.thread (p.here.txn x).thread).txn = some x
  inevitable : (q.here.txn x).phase = .inevitable

theorem turning_becomeInevitable (lic : Licensed L p) (first : p.ended = none)
    (unspent : p.spent = false) (acting : p.Acting (p.here.txn x).thread)
    (may : (p.here.txn x).reads ≠ [] → L.ends (p.here.txn x).thread ∧ L.SettlesAt p.here.foreign)
    (reason : String)
    (refused : (p.here.thread (p.here.txn x).thread).txn ≠ some x →
      P p.toCallPart (.error (.violation (.noTransaction (p.here.txn x).phase))) p.here)
    (stale : ∀ z v e, (p.here.txn x).reads ≠ [] → v.Plain →
      (z.spent = false → ∀ c, L.control = some c → e.foreign.lookup c = p.here.foreign.lookup c) →
      P z (.error v) e)
    (next : ∀ q, Licensed L q → Promoted L p x q → Turning L P q.toCallPart (f () q.here)) :
    Turning L P p.toCallPart ((becomeInevitable x reason >>= f) p.here) := by
  unfold becomeInevitable
  simp only [bind_assoc]
  refine turning_check lic (.of_none first) refused fun held => ?_
  have tends : p.Tends x := ⟨acting, held⟩
  rw [look_bind]
  split
  · next inevitable =>
    exact next p lic ⟨⟨⟨id, fun _ => id, .refl _⟩, first, rfl, fun _ _ => rfl⟩, rfl, held,
      by simpa using inevitable⟩
  rw [bind_assoc, look_bind]
  simp only [bind_assoc]
  refine turning_engine lic (.of_none first) fun free lic1 inner1 => ?_
  refine turning_park lic1 inner1 (.of_none first) fun q lic2 onward2 inner2 _ _ => ?_
  replace onward2 := Onward.acquire.trans onward2
  refine turning_awaited lic2 inner2 (.of_none (onward2.none first))
    fun r lic3 onward3 inner3 _ => ?_
  replace onward3 := onward2.trans onward3
  have first3 := onward3.none first
  have clear3 : r.Clear L := .of_none first3
  have tends3 := onward3.tends lic tends
  have blanks := onward3.blanks lic tends
  rw [look_bind]
  have looks := (looks_staleRead? (E := Raise.BadObject) (r.here.txn x).reads).ends r.here
  unfold Ends at looks
  split at looks
  · next found e run =>
    subst looks
    rw [lift_done run]
    cases found with
    | some =>
      have read : (p.here.txn x).reads ≠ [] := by
        intro none
        rw [blanks.reads, none] at run
        cases run
      have ready3 := Ready.onward ⟨lic, first, unspent, tends, (may read).1⟩ lic3 onward3
      simp only [bind_assoc]
      refine turning_work (E := Raise.BadObject) lic3 clear3 (poised_countConflict ..)
        (fun _ e1 _ same => ?_) fun v e1 badObject same =>
        stale _ v e1 read badObject.plain fun _ =>
          (onward3.along.trans (.keep same.outline)).foreign
      have along := onward3.along.trans (.keep same.outline)
      refine (ready3.poised same).rollsBack (inner3.congr same.locked) ?_ ?_ .conflict
        (fun v e2 why same' => ?_)
        fun s lic4 joined clear4 _ => ?_
      · exact (may read).2.congr along.foreign
      · exact ⟨fun _ => rfl⟩
      · exact stale _ v e2 read why.plain fun _ => (along.trans (.keep same'.outline)).foreign
      · exact .error lic4 clear4 rfl (stale _ _ _ read id (joined.since_along along).kept)
    | none =>
      have known := (lic3.outline.held _ x tends3.held).1
      have outline := outline_promoted known (lic3.tracks tends3).known reason
      have turn : Turn L r.spent r.here.outline (r.here.promoted x reason).outline :=
        outline ▸ .promote x tends3.held
      rw [← blanks.keeps.thread]
      change Turning L P r.toCallPart
        (f () (((r.here.promoted x reason).giveUp .engine).setLog (·.info
        Event.Kind.becomeInevitable.name ((r.here.promoted x reason).txn x).segment
        [("reason", .text reason), ("rv", .uint r.here.clock)])))
      generalize hlog : (fun l : Event.Log => l.info _ _ _) = log
      refine next (r.go (((r.here.promoted x reason).giveUp .engine).setLog log))
        (lic3.turn turn fun u taken => absurd (List.mem_of_mem_erase taken) (inner3.loose u))
        ⟨(Advanced.of_onward onward3 first).trans (.of_turn lic3 first3 turn rfl), ?_, ?_, ?_⟩
      · rw [← blanks.keeps.thread]
        change ((r.here.promoted x reason).outline.txn x).1 = _
        rw [outline, Outline.txn_promoted]
        rfl
      · rw [← blanks.keeps.thread]
        change ((r.here.promoted x reason).outline.thread _).txn = _
        rw [outline]
        exact (congrArg Life.txn (Function.update_self ..)).trans tends3.held
      · change ((r.here.promoted x reason).outline.txn x).2 = _
        rw [outline, Outline.txn_promoted]
  · next v e run =>
    have read : (p.here.txn x).reads ≠ [] := by
      intro none
      rw [blanks.reads, none] at run
      cases run
    rw [lift_bind_error run]
    obtain ⟨badObject, rfl⟩ := looks
    exact .error lic3 clear3 rfl (stale _ v _ read badObject.plain fun _ => onward3.foreign)

end Promoting

section Threads

structure Enrolled (L : Licence) (p : Point) (t : ThreadId) (q : Point) :
    Prop extends Advanced L p q where
  own : q.Tracks t
  life : (q.here.thread t).life = { registered := true }
  new : p.here.threads.size ≤ t
  apart : ∀ c g, q.here.foreign.lookup c = some g → g.thread ≠ t

theorem turning_register {f : ThreadId → EngineCall β} (lic : Licensed L p) (first : p.ended = none)
    (closed : ∀ e, p.here.closed = true → e.outline = p.here.outline →
      P p.toCallPart (.error (.violation .engineClosed)) e)
    (next : ∀ q t, Licensed L q → Enrolled L p t q → Turning L P q.toCallPart (f t q.here)) :
    Turning L P p.toCallPart ((register >>= f) p.here) := by
  unfold register withLock
  rw [bind_assoc]
  refine turning_engine lic (.of_none first) fun _ lic1 inner1 => ?_
  cases shut : p.here.closed with
  | true =>
    rw [bind_run, ending_raised
      (lift_bind_error (checkOpen_closed (e := p.here.acquire .engine) shut)) (unlock_run ..)]
    exact .error lic (.of_none first) rfl (closed _ shut rfl)
  | false =>
  rw [bind_run, ending_ok (checkOpen_ok (e := p.here.acquire .engine) shut), ending_park,
    ← bind_run, bind_assoc]
  refine turning_park lic1 inner1 (.of_none first) fun q lic2 onward2 inner2 _ _ => ?_
  replace onward2 := Onward.acquire.trans onward2
  change Turning L P q.toCallPart
    (f q.here.threads.size
    (giveUp { q.here with threads := q.here.threads.push { registered := true } } .engine))
  obtain ⟨e, he⟩ : ∃ e : Engine, e =
      { q.here with threads := q.here.threads.push { registered := true } } := ⟨_, rfl⟩
  have outline := he ▸ outline_enrolled q.here
  have foreign : e.foreign = q.here.foreign := he ▸ rfl
  have locked : e.locked = q.here.locked := he ▸ rfl
  have turn : Turn L q.spent q.here.outline e.outline := outline ▸ .enroll
  rw [← he]
  refine next (q.go (e.giveUp .engine)) q.here.threads.size ?_
    ⟨(Advanced.of_onward onward2 first).trans (.of_turn lic2 (onward2.none first) turn foreign),
      ⟨.inr ?_, ?_⟩, ?_, onward2.ages.threads, ?_⟩
  · refine lic2.turn turn fun u taken => absurd (List.mem_of_mem_erase taken) ?_
    rw [locked]
    exact inner2.loose u
  · exact (lic2.turns.ages lic2.sound).threads
  · rw [show (q.go (e.giveUp .engine)).here.threads.size = e.outline.threads from rfl, outline]
    exact Nat.lt_succ_self _
  · change e.outline.thread q.here.outline.threads = _
    rw [outline, Outline.thread_enrolled]
  · intro c g found same
    have lt := lic2.outline.entry c g ((congrArg (List.lookup c) foreign).symm.trans found)
    rw [same] at lt
    exact Nat.lt_irrefl _ lt

theorem unstack_run (loose : .stack t ∉ e.locked) : ∃ e', (do
    lock (.stack t)
    liftM (updateThread t fun th => { th with stack := #[] })
    liftM (unlock (.stack t)) : EngineCall Unit) e = .done () e' ∧ Poised e e' := by
  refine ⟨e.setThread t fun th => { th with stack := #[] }, ?_,
    Hushed.poised (hushed_setThread t fun _ => ⟨rfl, rfl, rfl, rfl, rfl⟩)⟩
  rw [bind_done (lock_free loose), lift_done (updateThread_run ..), lift_ok (unlock_run ..),
    giveUp_setThread_acquire]

theorem turning_unregister {P : CallPart → Post Unit} (lic : Licensed L p) (clear : p.Clear L)
    (tracks : p.Tracks t) (may : L.retires t)
    (inside : (p.here.thread t).txn ≠ none →
      P p.toCallPart (.error (.violation (.unregisteredInside t))) p.here)
    (done : ∀ q, Later p q →
      (∀ c, L.control = some c → q.here.foreign.lookup c = p.here.foreign.lookup c) →
      (q.here.thread t).life = {} → P q.toCallPart (.ok ()) q.here) :
      Turning L P p.toCallPart (unregister t p.here) := by
  unfold unregister
  rw [look_bind]
  split
  · next some => exact .error lic clear rfl (inside (Option.isSome_iff_ne_none.1 some))
  next idle =>
  replace idle : (p.here.thread t).txn = none := Option.not_isSome_iff_eq_none.1 idle
  refine turning_engine lic ⟨clear, fun _ => ?_⟩ fun _ lic1 inner1 => ?_
  · exact .ending ((mute_park _).bind fun _ => (Mute.lift _).bind fun _ =>
      (mute_lock _).bind fun _ =>
      (Mute.lift _).bind fun _ => .lift _) _
  have onward1 : Onward L p (p.go (p.here.acquire .engine)) := .acquire
  rw [ending_park]
  refine turning_park lic1 inner1 ⟨clear.congr (.inl rfl) onward1.foreign, fun _ => ?_⟩
    fun q lic2 onward2 inner2 _ _ => ?_
  · exact .ending ((Mute.lift _).bind fun _ => (mute_lock _).bind fun _ =>
      (Mute.lift _).bind fun _ => .lift _) _
  replace onward2 := onward1.trans onward2
  have known := (onward2.tracks t tracks).known
  have idle2 : (q.here.thread t).txn = none := by rw [onward2.thread t tracks, idle]
  rw [ending_ok (updateThread_run ..)]
  obtain ⟨e, run, same⟩ :=
    unstack_run (e := q.here.setThread t fun th => { th with registered := false }) (inner2.loose t)
  have outline : e.outline = q.here.outline.retired t :=
    same.outline.trans (outline_setThread known fun th => { th with registered := false })
  have turn : Turn L q.spent q.here.outline e.outline := outline ▸ .retire t may idle2
  rw [ending_done run (unlock_run ..)]
  refine ⟨⟨q.ended, lic2.turns.turn turn, fun d hd => (onward2.clear clear d hd).1⟩,
    done (q.go (e.giveUp .engine)) ?_ (fun c hc => ?_) ?_⟩
  · refine onward2.toLater.trans
      ⟨id, fun u hu => ⟨hu.acting, hu.known.trans_le (turn.ages lic2.outline).threads⟩,
      turn.ages lic2.outline⟩
  · exact (congrArg (List.lookup c) (congrArg Outline.foreign outline)).trans (onward2.foreign c hc)
  · obtain ⟨unseated, onAbort, onCommit⟩ := lic2.outline.idle t idle2
    change e.outline.thread t = _
    rw [outline, Outline.thread_retired]
    dsimp only
    rw [unseated, onAbort, onCommit, show (q.here.outline.thread t).txn = none from idle2]

end Threads
end TxHeap
