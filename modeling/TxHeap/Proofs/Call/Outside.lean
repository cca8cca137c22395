import TxHeap.Proofs.Call.Allocation

/-! Calls outside of transactions: collections of the old heap, threads that come and go, and
prebuilt objects. -/

namespace TxHeap
open Engine TxHeap.Action

variable {e' e1 : Engine} {words : List (Nat × UInt64)}

variable {who : Actor} {o : Doing} {x : TxnId} {t : ThreadId} {e0 e : Engine}

theorem checkOpen_spec (e : Engine) : checkOpen e = .ok () e ∨ ∃ v, checkOpen e = .error v e := by
  unfold checkOpen
  rw [get_bind]
  split
  · exact .inr ⟨_, rfl⟩
  · exact .inl rfl

/-- Who had the others stopped when it went on has them stopped where it goes on. -/
theorem Goal.Met.stopped {t : ThreadId}
    (met : Goal.Met .othersStopped (.thread t) (e.thread t).segment e) (life : e.LifeOk) :
    e.othersStopped (.thread t) = true := by
  obtain ⟨m, stopped, same | same⟩ := met
  · rwa [Engine.othersStopped, same]
  · cases seat : (e.thread t).segment with
    | none =>
      rw [seat] at same
      rwa [Engine.othersStopped, same]
    | some k =>
      rw [seat] at same
      have segments : ∀ i, e.segment i = (m.setStanding (some k) .running).segment i := fun i => by
        rw [Engine.segment, same]
        rfl
      rw [othersStopped_iff] at stopped ⊢
      intro i u owner
      by_cases here : i = k
      · rw [here, (life.holds t k seat).2] at owner
        exact .inl (congrArg Caller.thread (Option.some.inj owner).symm)
      · have unchanged : (m.setStanding (some k) .running).segment i = m.segment i := by
          change (m.setSegment k fun s => { s with standing := .running }).segment i = _
          rw [segment_setSegment, if_neg fun h => here h.1.symm]
        rw [segments, unchanged] at owner ⊢
        exact stopped i u owner

section Collection
variable {Q : Engine → Post Unit}

theorem Engine.Amid.collected (h : Amid who o [.engine] e0 e1) (free : .engine ∉ e0.locked)
    (kind : ∀ y, o ≠ .work y) (ended : ∀ y, who.txn = some y → (e1.txn y).phase = .committed)
    (collected : e1.Collected e)
    (collecting : Feats who.Acts e1 e) (lull : Lull e e') (locked : e'.locked = e0.locked) :
    Stretch who e0 e' := by
  obtain ⟨a, b, before, collects, after, -⟩ := collected
  have core := collects.core (h.core.alike before)
  have weak : ∀ k, b.WeakOk k := fun k => collects.weakOk ((h.weak free k).alike before)
  have mine : ∀ y, who.txn = some y → (a.txn y).phase = .committed :=
    fun y hy => by rw [before.txn, ended y hy]
  have feats : .engine ∉ e0.locked → Feats who.Acts e0 e' := fun free =>
    ((h.feats free).trans collecting).step (core.alike after) (fun k => (weak k).alike after)
      (.lull lull)
  have plain : Alike e0 e1 → Stretch who e0 e' := fun alike =>
    .of_deed h.inv (alike.trans before) (.collect mine collects) core (fun _ => weak)
      (after.trans lull.alike) locked feats
  cases o with
  | nothing => exact plain (Lull.alike h.sofar)
  | work y => exact absurd rfl (kind y)
  | settling x =>
    obtain calm | ⟨a0, m, b0, before0, runs, minor, valid, commits, after0⟩ := h.sofar
    · exact plain calm.alike
    · exact .of_deed h.inv before0
        (.commit x m b0 runs minor valid commits
          (.inr ⟨a, b, after0.trans before, collects, .refl b⟩)) core
        (fun _ => weak) (after.trans lull.alike) locked feats

theorem sound_whilePaused (h : Amid who o [.engine] e0 e) (own : who.Acts t)
    (free : .engine ∉ e0.locked) (mode : PauseMode) {f : EngineCall Unit}
    (body : ∀ e1 e2, Amid who o [.engine] e1 e2 → .engine ∉ e1.locked →
      e2.othersStopped (.thread t) = true →
      (f e2).Finishes (fun _ e3 => e2.Collected e3 ∧ Feats who.Acts e2 e3) fun _ e3 =>
      e2.Collected e3 ∧ Feats who.Acts e2 e3)
    (refused : ∀ e1 e2 v, Later who e e2 → Amid who o [.engine] e1 e2 → .engine ∉ e1.locked →
      Q e1 (.error v) e2)
    (done : ∀ e1 e2 e3 e4 out, Later who e e2 → Amid who o [.engine] e1 e2 → .engine ∉ e1.locked →
      e2.Collected e3 →
      Feats who.Acts e2 e3 → Lull e3 e4 → e4.locked = e3.locked → Q e1 out e4) :
    Sound who Q e0 (whilePaused (.thread t) mode f e) := by
  simp only [whilePaused, beginPause, bind_assoc]
  refine h.sound_park free (.thread t) fun e1 e2 later amid free1 => ?_
  rw [look_bind]
  split
  · exact refused e1 e2 _ later amid free1
  · have paused : Lull e2 { e2 with pauser := some (.thread t), pauseMode := mode } :=
      ⟨{ Alike.refl _ with }, rfl⟩
    refine (amid.lull paused amid.locked).sound_await free1 (.thread t) .othersStopped
      fun e3 e4 later' amid' free3 met => ?_
    have stopped : e4.othersStopped (.thread t) = true := by
      refine Goal.Met.stopped ?_ amid'.core.life
      rw [later'.thread t own]
      exact met
    have later := later.trans (paused.alike.later.trans later')
    have after : ∀ out e5, e4.Collected e5 ∧ Feats who.Acts e4 e5 →
        Ends (endPause (.thread t)) e5 (fun _ => Q e3 out) fun r => Q e3 (.error r) := by
      rintro out e5 ⟨collected, feats⟩
      refine .mono (ends_endPause (.thread t) e5) (fun _ e6 rests => ?_) fun v e6 same => ?_
      · exact done e3 e4 e5 e6 _ later amid' free3 collected feats rests.1 rests.2
      · exact done e3 e4 e5 e6 _ later amid' free3 collected feats (same ▸ .refl e5) (by rw [same])
    exact sound_ending (.of_finishes (body e3 e4 amid' free3 stopped) (fun a => after (.ok a))
      fun r => after (.error r))

theorem finishes_collectOld (h : Amid who o [.engine] e0 e1) (own : who.Acts t)
    (free : .engine ∉ e0.locked)
    (stopped : e1.othersStopped (.thread t) = true) : (collectOld e1).Finishes
      (fun _ e2 => e1.Collected e2 ∧ Feats who.Acts e1 e2) fun _ e2 => e1.Collected e2 ∧
      Feats who.Acts e1 e2 := by
  have collect : ∀ e2, (collectOld e1 = .done () e2 ∨ ∃ v, collectOld e1 = .raised v e2) →
      Feats who.Acts e1 e2 := fun e2 =>
    .collect .start h.core (h.weak free) own stopped (h.stack_free free)
  exact (collectOld_spec h.core (h.weak free) (h.stack_free free)).known.mono
    (fun _ e2 h' => ⟨h'.1, collect e2 (.inl h'.2)⟩) fun v e2 h' =>
      ⟨h'.1, collect e2 (.inr ⟨v, h'.2⟩)⟩

theorem Engine.Amid.giveUp_locked (h : Amid who o [.engine] e0 e) (same : e'.locked = e.locked) :
    (e'.giveUp .engine).locked = e0.locked := by
  simp [giveUp, same, h.locked]

theorem sound_collect (inv : e.Inv) (own : who.Acts t) (outside : who.txn = none) :
    Tame who e (collect t e) := by
  unfold collect
  rw [look_bind]
  split
  · exact .refl inv
  · refine (Amid.rest inv).sound_engine fun free amid => sound_unlocking ?_
    obtain opened | ⟨v, closed⟩ := checkOpen_spec (e.acquire .engine)
    · rw [lift_done opened]
      refine sound_whilePaused amid own free _
        (fun e1 e2 amid free => finishes_collectOld amid own free)
        (fun e1 e2 v _ amid _ => amid.unlock.stretch)
          fun e1 e2 e3 e4 _ _ amid free1 collected feats lull locked => ?_
      refine amid.collected free1 nofun (by rw [outside]; exact nofun) collected feats
        (lull.trans (lull_giveUp e4 .engine)) (amid.giveUp_locked ?_)
      obtain ⟨_, _, _, _, _, kept⟩ := collected
      exact locked.trans kept
    · rw [lift_bind_error closed]
      exact amid.unlock.stretch

theorem sound_collectIfDue (h : Amid who (.settling x) [] e0 e) (own : who.Acts t)
    (mine : who.txn = some x) (past : e.Ended x .committed)
    (done : ∀ e1 out e2, Stretch who e1 e2 → e2.Ended x .committed → Q e1 out e2) :
    Sound who Q e0 (collectIfDue t e) := by
  refine h.sound_engine fun free amid => sound_unlocking ?_
  have past := (alike_acquire e .engine).ages.keeps past
  have unchanged : ∀ e1 e2 out, Later who (e.acquire .engine) e2 →
      Amid who (.settling x) [.engine] e1 e2 →
      Q e1 out (e2.giveUp .engine) := fun e1 e2 out later amid =>
    done e1 out _ amid.unlock.stretch ((later.ages.trans (alike_giveUp e2 .engine).ages).keeps past)
  rw [look_bind, look_bind]
  split
  · refine sound_whilePaused amid own free _ (fun e1 e2 amid free stopped => ?_)
      (fun e1 e2 v later amid _ => unchanged e1 e2 _ later amid)
      fun e1 e2 e3 e4 out later amid free1 collected feats lull locked => ?_
    · rw [look_bind]
      split
      · exact finishes_collectOld amid own free stopped
      · exact ⟨.refl amid.core, .start⟩
    · have ended := later.ages.keeps past
      have rests := lull.trans (lull_giveUp e4 .engine)
      refine done e1 out _ (amid.collected free1 nofun (fun y hy => ?_) collected feats rests
        (amid.giveUp_locked ?_)) ?_
      · rw [mine] at hy
        cases hy
        exact ended.2.1
      · obtain ⟨_, _, _, _, _, kept⟩ := collected
        exact locked.trans kept
      · obtain ⟨a, b, before, collects, after, -⟩ := collected
        exact (before.ages.trans (collects.ages.trans (after.ages.trans rests.alike.ages))).keeps
          ended
  · exact unchanged e0 _ _ (.refl who _) amid

end Collection

theorem Engine.idles_register (e : Engine) :
    Idles e.threads.size e { e with threads := e.threads.push { registered := true } } := by
  have unknown : e.thread e.threads.size = {} := by
    rw [thread, getD_out le_rfl]
  have threads : ∀ u, thread { e with threads := e.threads.push { registered := true } } u =
      if u = e.threads.size then { registered := true } else e.thread u := fun u => getD_push ..
  refine ⟨rfl, rfl, rfl, rfl, rfl, rfl, rfl, rfl, by simp, rfl, fun _ => .refl _,
    fun u hu => ?_, ?_, ?_, ?_⟩
  · rw [threads, if_neg hu]
  · rw [unknown]
  · rw [threads, if_pos rfl, unknown]
    exact ⟨rfl, rfl⟩
  · rw [threads, if_pos rfl]
    exact fun _ r hr => absurd hr (Array.not_mem_empty r)

theorem Engine.idles_unregister (e : Engine) (idle : (e.thread t).txn = none) :
    Idles t e ((e.setThread t fun th => { th with registered := false }).setThread t fun th =>
      { th with stack := #[] }) := by
  have threads :
      ∀ u, ((e.setThread t fun th => { th with registered := false }).setThread t fun th =>
      { th with stack := #[] }).thread u = if t = u ∧ t < e.threads.size then
        { e.thread t with registered := false, stack := #[] } else e.thread u := by
    intro u
    rw [thread_setThread, thread_setThread, setThread_threads, Array.size_modify]
    by_cases h : t = u ∧ t < e.threads.size
    · rw [if_pos h, if_pos h, if_pos ⟨rfl, h.2⟩]
    · rw [if_neg h, if_neg h, thread_setThread, if_neg h]
  refine ⟨rfl, rfl, rfl, rfl, rfl, rfl, rfl, rfl, by simp, rfl, fun _ => .refl _, fun u hu => ?_,
    idle, ?_, ?_⟩
  · rw [threads, if_neg fun h => hu h.1.symm]
  · rw [threads]
    split
    · exact ⟨idle, rfl⟩
    · exact ⟨idle, rfl⟩
  · rw [threads]
    split
    · rintro ⟨⟩
    · next unknown =>
      rw [thread, getD_out (Nat.le_of_not_lt fun h => unknown ⟨rfl, h⟩)]
      rintro ⟨⟩

theorem sound_register (inv : e.Inv) (outside : who = ⟨none, none⟩) :
    Sound who (fun e out e' => Stretch who e e' ∧ ∀ u, out = .ok u → e.threads.size ≤ u ∧
      u < e'.threads.size) e (register e) := by
  refine (Amid.rest inv).sound_engine fun free amid => sound_unlocking ?_
  obtain opened | ⟨v, closed⟩ := checkOpen_spec (e.acquire .engine)
  · rw [lift_done opened]
    refine amid.sound_park free _ fun e1 e2 _ amid2 free1 => ?_
    rw [look_bind]
    have idles := idles_register e2
    have alike := Lull.alike amid2.sofar
    refine ⟨amid2.ends alike (.idle _ (.inr ⟨?_, ?_⟩) idles) .register (idles.core amid2.core)
      (fun free k => idles.weakOk (amid2.weak free k)) (lull_giveUp _ _)
        (amid2.giveUp_locked rfl), ?_⟩
    · rw [outside]
    · exact le_rfl
    · rintro _ ⟨⟩
      rw [alike.threads]
      exact ⟨le_rfl, by simp [giveUp, alike.threads]⟩
  · rw [lift_bind_error closed]
    exact ⟨amid.unlock.stretch, by rintro _ ⟨⟩⟩

theorem sound_unregister (inv : e.Inv) (mine : who.thread = some t) :
    Tame who e (unregister t e) := by
  unfold unregister
  rw [look_bind]
  split
  · exact .refl inv
  · next idle =>
    refine (Amid.rest inv).sound_engine fun free amid => sound_unlocking ?_
    refine amid.sound_park free _ fun e1 e2 later amid2 free1 => ?_
    have idle2 : (e2.thread t).txn = none := by
      rw [later.thread t mine]
      exact Option.not_isSome_iff_eq_none.1 idle
    have locked : lock (.stack t) (e2.setThread t fun th => { th with registered := false }) =
        .done () _ :=
      lock_free (amid2.stack_free free1 t)
    rw [lift_done (updateThread_run ..), bind_done locked,
      lift_done (updateThread_run ..), lift_ok (unlock_run ..)]
    have idles := idles_unregister e2 idle2
    refine amid2.ends (Lull.alike amid2.sofar) (.idle t (.inl mine) idles) (.retire t idle2)
      (idles.core amid2.core)
      (fun free k => idles.weakOk (amid2.weak free k)) ?_ (amid2.giveUp_locked ?_)
    · exact ⟨{ Alike.refl _ with }, rfl⟩
    · simp [giveUp, acquire]

section Prebuilt
variable {r : Ref} {n : Nat}

theorem setWords_spec (good : e.arena.Good) (room : e.Room r n) {m : Nat} (hm : m ≤ n)
    (inside : ∀ p ∈ words, p.1 < m) :
    ∃ e' f, setWords (r.span m) words e = .ok () e' ∧ Overwrites e e' r f := by
  induction words generalizing e with
  | nil => exact ⟨e, _, rfl, .refl good⟩
  | cons p rest ih =>
    obtain ⟨i, v⟩ := p
    have hi : i < m := inside (i, v) (.head _)
    have written := overwrites_putWord good room (hi.trans_le hm) v
    obtain ⟨e', f, run, more⟩ :=
      ih written.good ((written.room r n).2 room) fun p hp => inside p (.tail _ hp)
    refine ⟨e', f, ?_, written.trans more⟩
    rw [setWords, bind_ok (setOld_ok good room hm hi v), run]

theorem Engine.OnlyHeap.collects (h : OnlyHeap e e') (keeps : e.arena.SamePayloads e'.arena)
    (good : e'.arena.Good) (ok : e.Core) : Collects e e' where
  settings := by rw [h]
  layout := by rw [h]
  clock := by rw [h]
  inevitable := by rw [h]
  prebuilt := by rw [h]
  threads := by rw [h]
  txns_size := by rw [h]
  segments_size := by rw [h]
  memory_size := keeps.memory_size
  txn y := by rw [h.txn]; exact .refl _
  segment k := by rw [h.segment]; exact (Segment.Alike.refl _).blanks
  weakrefs := by
    rw [h]
    refine ⟨.refl _, fun w hw => ?_⟩
    obtain ⟨n, hn⟩ := (ok.heap.weakrefs.2 w hw).1
    exact ⟨n, (keeps.live _ n).2 hn⟩
  good := good
  room r n hr := (keeps.live _ n).1 hr
  root r n hr _ := (keeps.live _ n).2 hr
  word r n i hr hi := .inl (keeps.kept _ n i ((keeps.live _ n).1 hr) hi)

theorem Engine.prebuilds {e2 : Engine} {f : Nat → UInt64} (only : OnlyHeap e e1)
    (takes : e.arena.Takes e1.arena r.bits n) (good : e1.arena.Good)
    (written : Overwrites e1 e2 r f) :
    Prebuilds r n e { e2.putWord r 0 0 with prebuilt := e2.prebuilt.push r } := by
  have room := (takes.live _ n).2 (.inr ⟨rfl, rfl⟩)
  have bounds := room_bounds good room
  have cleared := overwrites_putWord written.good ((written.room r n).2 room) (i := 0) (by omega) 0
  have all := written.trans cleared
  have tables : e2.toEngineTables = { e.toEngineTables with log := e1.log } :=
    written.tables.trans only
  have apart : ∀ q m, e.Room q m → q ≠ r := fun q m hq heq => takes.fresh m (heq ▸ hq)
  exact
    { settings := congrArg (·.settings) tables
      layout := congrArg (·.layout) tables
      clock := congrArg (·.clock) tables
      inevitable := congrArg (·.inevitable) tables
      weakrefs := congrArg (·.weakrefs) tables
      prebuilt := congrArg (·.prebuilt.push r) tables
      threads := congrArg (·.threads) tables
      txns := congrArg (·.txns) tables
      segments_size := congrArg (·.segments.size) tables
      segment := fun k => by
        have segments := congrArg (·.segments) tables
        change (e.segment k).Alike (e2.segment k)
        rw [segment, segment, segments]
        exact .refl _
      memory_size := all.memory_size.trans takes.memory_size
      good := all.good
      fresh := fun ⟨m, hm⟩ => takes.fresh m hm
      room := fun q m => (all.room q m).trans ((takes.live _ m).trans (or_congr_right
        ⟨fun h => ⟨congrArg Ref.mk h.1, h.2⟩, fun h => ⟨congrArg Ref.bits h.1, h.2⟩⟩))
      word := fun q m i hq hi => by
        have hq1 := (takes.live _ m).2 (.inl hq)
        exact (all.other q m i hq1 hi (apart q m hq)).trans (takes.kept _ m i hq hi)
      header := by
        have word := all.here n 0 room (by omega)
        rw [if_pos rfl] at word
        exact word }

theorem sound_allocPrebuilt (inv : e.Inv) (outside : who = ⟨none, none⟩) {size : UInt64}
    (inside : ∀ n, e.roundSize? size = some n → ∀ p ∈ words, p.1 < (n / 8).toNat) :
    Tame who e (allocPrebuilt size words e) := by
  unfold allocPrebuilt
  rw [look_bind]
  cases rounded : e.roundSize? size with
  | none => exact .refl inv
  | some bytes =>
    have whole := (roundSize?_sizeable inv.core.heap rounded).1
    have inside := inside bytes rounded
    refine (Amid.rest inv).sound_engine fun free amid => sound_unlocking ?_
    obtain opened | ⟨v, closed⟩ := checkOpen_spec (e.acquire .engine)
    · rw [lift_done opened]
      refine amid.sound_park free _ fun e1 e2 later amid2 free1 => ?_
      have ok := amid2.core
      obtain ⟨e3, only, good, ⟨run, keeps⟩ | ⟨r, n, run, hne, hn, takes⟩⟩ :=
        mallocOld_spec ok.heap.good ok.heap.even ok.heap.small whole.2.2
      · rw [lift_done run, if_pos rfl]
        refine amid2.collected free1 nofun (by rw [outside]; exact nofun)
          ⟨e2, e3, .refl e2, only.collects keeps good ok, .refl e3, by rw [only]⟩
          (.step .start ok (amid2.weak free1) (.grow whole run)) (lull_giveUp e3 .engine)
          (amid2.giveUp_locked (by rw [only]))
      · have room := (takes.live _ n).2 (.inr ⟨rfl, rfl⟩)
        have words8 : (bytes / 8).toNat = bytes.toNat / 8 := by rw [UInt64.toNat_div]; rfl
        obtain ⟨e4, f, set, written⟩ := setWords_spec good room (by omega) inside
        rw [Ref.span, ← Word.index_eq] at set
        rw [lift_done run, if_neg hne, lift_done set,
          lift_done (setHeader_ok written.good ((written.room r n).2 room) 0)]
        have made := prebuilds only takes good written
        refine amid2.ends (Lull.alike amid2.sofar) (.prebuild r n outside made)
          (.prebuild whole inside run hne set)
          (made.core ok) (fun free k => made.weakOk (amid2.weak free k)) (lull_giveUp _ _)
            (amid2.giveUp_locked ?_)
        have tables : e4.toEngineTables = { e2.toEngineTables with log := e3.log } :=
          written.tables.trans only
        exact congrArg (·.locked) tables
    · rw [lift_bind_error closed]
      exact amid.unlock.stretch

end Prebuilt
end TxHeap
