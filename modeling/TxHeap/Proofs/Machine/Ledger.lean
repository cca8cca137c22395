import TxHeap.Proofs.Life.Outline
import TxHeap.Proofs.Machine.Locks

/-! The books of an engine. Each transaction that was begun has committed, been rolled back or is
running, and is counted so; each that runs has a thread and a segment of its own; what belongs to
none is as good as new. Every feat keeps the books. -/

namespace TxHeap
open Engine

namespace Engine

def tally (e : Engine) (p : Phase → Bool) : Nat :=
  (List.range e.txns.size).countP fun x => p (e.txn x).phase

def running (e : Engine) : Nat := e.tally Phase.isActive

section Tally
variable {e e' : Engine} {x : TxnId} {p : Phase → Bool}

theorem tally_same (size : e'.txns.size = e.txns.size)
    (phase : ∀ y, (e'.txn y).phase = (e.txn y).phase) :
    e'.tally p = e.tally p := by
  simp only [tally, size, phase]

theorem Active.phase (h : e.Active x) :
    (e.txn x).phase = .running ∨ (e.txn x).phase = .inevitable := by
  unfold Active at h
  cases hp : (e.txn x).phase <;> simp_all [Phase.isActive]

theorem tally_change (size : e'.txns.size = e.txns.size) (hx : x < e.txns.size)
    (phase : ∀ y, y ≠ x → (e'.txn y).phase = (e.txn y).phase) :
    e'.tally p + (p (e.txn x).phase).toNat = e.tally p + (p (e'.txn x).phase).toNat := by
  have perm := List.perm_cons_erase (List.mem_range.2 hx)
  have rest : ((List.range e.txns.size).erase x).countP (fun y => p (e'.txn y).phase) =
      ((List.range e.txns.size).erase x).countP fun y => p (e.txn y).phase := by
    refine List.countP_congr fun y hy => ?_
    rw [phase y fun same => ?_]
    rw [same] at hy
    exact (List.nodup_range.mem_erase_iff.1 hy).1 rfl
  rw [tally, tally, size, perm.countP_eq, perm.countP_eq, List.countP_cons, List.countP_cons, rest]
  cases p (e.txn x).phase <;> cases p (e'.txn x).phase <;> simp

theorem tally_push (size : e'.txns.size = e.txns.size + 1)
    (phase : ∀ y, y ≠ e.txns.size → e'.txn y = e.txn y) :
    e'.tally p = e.tally p + (p (e'.txn e.txns.size).phase).toNat := by
  have rest : (List.range e.txns.size).countP (fun y => p (e'.txn y).phase) = e.tally p :=
    List.countP_congr fun y hy => by rw [phase y (Nat.ne_of_lt (List.mem_range.1 hy))]
  rw [tally, size, List.range_succ, List.countP_append, rest]
  cases h : p (e'.txn e.txns.size).phase <;> simp [h]

theorem tally_total (lives : ∀ y < e.txns.size, (e.txn y).phase ≠ .inactive) :
    e.txns.size = e.tally (· == .committed) + e.tally (· == .aborted) + e.running := by
  have total : ∀ l : List TxnId, (∀ y ∈ l, (e.txn y).phase ≠ .inactive) → l.length =
      l.countP (fun y => (e.txn y).phase == .committed) + l.countP
        (fun y => (e.txn y).phase == .aborted) +
        l.countP fun y => (e.txn y).phase.isActive := by
    intro l
    induction l with
    | nil => intro _; rfl
    | cons y l ih =>
      intro alive
      cases h : (e.txn y).phase <;> simp_all [Phase.isActive] <;> omega
  have range := total (List.range e.txns.size) fun y hy => lives y (List.mem_range.1 hy)
  rwa [List.length_range] at range

end Tally

/-- What is counted is what has happened, and no callbacks are left where no transaction runs. -/
structure Ledger (e : Engine) : Prop where
  lives : ∀ x < e.txns.size, (e.txn x).phase ≠ .inactive
  commits : e.counters.commits = .ofNat (e.tally (· == .committed))
  aborts : e.counters.aborts = .ofNat (e.tally (· == .aborted))
  inevitable : ∃ n ≤ e.tally (· == .committed), e.counters.inevitableCommits = .ofNat n
  conflicts : ∃ n ≤ e.tally (· == .aborted), e.counters.conflicts = .ofNat n
  bare : ∀ t, (e.thread t).txn = none → (e.thread t).onAbort = .empty ∧
    (e.thread t).onCommit = .empty

/-- No transaction begins or ends, and no callbacks are registered but for running ones. -/
structure Unmoved (e e' : Engine) : Prop where
  uncounted : Uncounted e e'
  txns_size : e'.txns.size = e.txns.size
  phase : ∀ y, (e'.txn y).phase = (e.txn y).phase
  thread : ∀ t, (e'.thread t).txn = none →
    (e'.thread t).onAbort = .empty ∧ (e'.thread t).onCommit = .empty ∨
    (e.thread t).txn = none ∧ (e'.thread t).onAbort = (e.thread t).onAbort ∧
      (e'.thread t).onCommit = (e.thread t).onCommit

/-- The transaction `x` ends in the given phase, and no callbacks are left for its thread. -/
structure Departs (x : TxnId) (last : Phase) (e e' : Engine) : Prop where
  txns_size : e'.txns.size = e.txns.size
  phase : ∀ y, y ≠ x → (e'.txn y).phase = (e.txn y).phase
  own : (e'.txn x).phase = last
  thread : ∀ t, (e'.thread t).txn = none →
    (e'.thread t).onAbort = .empty ∧ (e'.thread t).onCommit = .empty ∨
    (e.thread t).txn = none ∧ (e'.thread t).onAbort = (e.thread t).onAbort ∧
      (e'.thread t).onCommit = (e.thread t).onCommit

section Unmoved
variable {e e' : Engine} {x : TxnId}

theorem Departs.tally {phase : Phase} {p : Phase → Bool} (h : Departs x phase e e')
    (hx : e.Active x) (running : p .running = false) (inevitable : p .inevitable = false) :
    e'.tally p = e.tally p + (p phase).toNat := by
  have change := tally_change (p := p) h.txns_size (active_lt hx) h.phase
  rw [h.own] at change
  obtain before | before := hx.phase
  · rwa [before, running] at change
  · rwa [before, inevitable] at change

theorem Works.departs {m b : Engine} {phase : Phase} (works : Works x e m) (h : Leaves x phase m b)
    (alike : Alike b e') :
    Departs x phase e e' where
  txns_size := by rw [alike.txns, h.txns_size, works.steady.txns_size]
  phase y hy := by rw [alike.txn, h.txn y hy, works.txn y hy]
  own := by rw [alike.txn, h.own.1]
  thread t idle := by
    rw [alike.thread] at idle ⊢
    by_cases own : t = (e.txn x).thread
    · rw [own, ← works.own.thread]
      exact .inl h.own_thread.2.2.2
    · rw [h.thread t (by rwa [works.own.thread]), works.thread t own] at idle ⊢
      exact .inr ⟨idle, rfl, rfl⟩

theorem Unmoved.of_tables (uncounted : Uncounted e e') (txns : e'.txns = e.txns)
    (threads : e'.threads = e.threads) :
    Unmoved e e' where
  uncounted := uncounted
  txns_size := by rw [txns]
  phase y := by rw [txn, txn, txns]
  thread t idle := .inr (by
    have same : e'.thread t = e.thread t := by rw [Engine.thread, Engine.thread, threads]
    rw [same] at idle ⊢
    exact ⟨idle, rfl, rfl⟩)

theorem Works.unmoved (h : Works x e e') (ok : e.LifeOk) (hx : e.Active x)
    (uncounted : Uncounted e e') : Unmoved e e' where
  uncounted := uncounted
  txns_size := h.steady.txns_size
  phase y := (h.phase y).1
  thread t idle := by
    by_cases own : t = (e.txn x).thread
    · rw [own, h.own_thread.txn, ok.thread x hx] at idle
      cases idle
    · rw [h.thread t own] at idle ⊢
      exact .inr ⟨idle, rfl, rfl⟩

theorem OnlyHeap.unmoved (h : OnlyHeap e e') : Unmoved e e' :=
  .of_tables (by rw [Uncounted, h]) (by rw [h]) (by rw [h])

theorem unmoved_setThread (t : ThreadId) {f : Thread → Thread}
    (keeps : (f (e.thread t)).txn = (e.thread t).txn)
    (tables : (e.thread t).txn = none →
      (f (e.thread t)).onAbort = (e.thread t).onAbort ∧
      (f (e.thread t)).onCommit = (e.thread t).onCommit) :
    Unmoved e (e.setThread t f) := by
  refine ⟨rfl, rfl, fun _ => rfl, fun u idle => ?_⟩
  rw [thread_setThread] at idle ⊢
  split at idle
  · next h =>
    rw [← h.1, if_pos ⟨rfl, h.2⟩]
    have before := keeps.symm.trans idle
    exact .inr ⟨before, tables before⟩
  · next h =>
    rw [if_neg h]
    exact .inr ⟨idle, rfl, rfl⟩

theorem Unmoved.trans {e'' : Engine} (h : Unmoved e e') (h' : Unmoved e' e'') : Unmoved e e'' where
  uncounted := Frame.trans h.uncounted h'.uncounted
  txns_size := h'.txns_size.trans h.txns_size
  phase y := (h'.phase y).trans (h.phase y)
  thread t idle := by
    obtain bare | ⟨idle', onAbort, onCommit⟩ := h'.thread t idle
    · exact .inl bare
    · rw [onAbort, onCommit]
      exact h.thread t idle'

theorem Lull.unmoved (h : Lull e e') : Unmoved e e' :=
  .of_tables (congrArg Counters.fates h.counters) h.alike.txns h.alike.threads

theorem Collected.unmoved (h : e.Collected e') (uncounted : Uncounted e e') : Unmoved e e' := by
  obtain ⟨a, b, before, collects, after, -⟩ := h
  have threads := after.threads.trans (collects.threads.trans before.threads)
  refine ⟨uncounted, ?_, fun y => ?_, fun t idle => .inr ?_⟩
  · rw [after.txns, collects.txns_size, before.txns]
  · rw [after.txn, (collects.txn y).keeps.phase, before.txn]
  · have same : e'.thread t = e.thread t := by rw [thread, thread, threads]
    rw [same] at idle ⊢
    exact ⟨idle, rfl, rfl⟩

end Unmoved

namespace Ledger
variable {e e' : Engine} {x : TxnId}

theorem counted {a b : UInt64} {m : Nat} (known : ∃ n ≤ m, a = .ofNat n) (h : b = a ∨ b = a + 1) :
    ∃ n ≤ m + 1, b = .ofNat n := by
  obtain ⟨n, hn, rfl⟩ := known
  obtain rfl | rfl := h
  · exact ⟨n, Nat.le_succ_of_le hn, rfl⟩
  · exact ⟨n + 1, Nat.succ_le_succ hn, (UInt64.ofNat_add ..).symm⟩

section
variable (l : Ledger e)
include l

theorem unmoved (h : Unmoved e e') : Ledger e' := by
  have tally : ∀ p, e'.tally p = e.tally p := fun p => tally_same h.txns_size h.phase
  have fates := h.uncounted
  simp only [Uncounted, Counters.fates, Prod.mk.injEq] at fates
  obtain ⟨commits, inevitable, aborts, conflicts⟩ := fates
  refine ⟨fun y hy => ?_, ?_, ?_, ?_, ?_, fun t idle => ?_⟩
  · rw [h.phase]
    exact l.lives y (h.txns_size ▸ hy)
  · rw [commits, tally]
    exact l.commits
  · rw [aborts, tally]
    exact l.aborts
  · rw [inevitable, tally]
    exact l.inevitable
  · rw [conflicts, tally]
    exact l.conflicts
  · obtain bare | ⟨idle', onAbort, onCommit⟩ := h.thread t idle
    · exact bare
    · rw [onAbort, onCommit]
      exact l.bare t idle'

theorem departs {phase : Phase} (h : Departs x phase e e') (ended : phase ≠ .inactive)
    (commits : e'.counters.commits = .ofNat (e'.tally (· == .committed)))
    (aborts : e'.counters.aborts = .ofNat (e'.tally (· == .aborted)))
    (inevitable : ∃ n ≤ e'.tally (· == .committed), e'.counters.inevitableCommits = .ofNat n)
    (conflicts : ∃ n ≤ e'.tally (· == .aborted), e'.counters.conflicts = .ofNat n) : Ledger e' := by
  refine ⟨fun y hy => ?_, commits, aborts, inevitable, conflicts, fun t idle => ?_⟩
  · by_cases own : y = x
    · rwa [own, h.own]
    · rw [h.phase y own]
      exact l.lives y (h.txns_size ▸ hy)
  · obtain bare | ⟨idle', onAbort, onCommit⟩ := h.thread t idle
    · exact bare
    · rw [onAbort, onCommit]
      exact l.bare t idle'

theorem rolledBack (h : Departs x .aborted e e') (hx : e.Active x)
    (commits : e'.counters.commits = e.counters.commits)
    (aborts : e'.counters.aborts = e.counters.aborts + 1)
    (inevitable : e'.counters.inevitableCommits = e.counters.inevitableCommits)
    (conflicts : e'.counters.conflicts = e.counters.conflicts ∨
      e'.counters.conflicts = e.counters.conflicts + 1) :
    Ledger e' := by
  have committed : e'.tally (· == .committed) = e.tally (· == .committed) := h.tally hx rfl rfl
  have aborted : e'.tally (· == .aborted) = e.tally (· == .aborted) + 1 := h.tally hx rfl rfl
  refine l.departs h (by decide) ?_ ?_ ?_ ?_
  · rw [commits, committed]
    exact l.commits
  · rw [aborts, aborted, l.aborts, UInt64.ofNat_add]
    rfl
  · rw [inevitable, committed]
    exact l.inevitable
  · rw [aborted]
    exact counted l.conflicts conflicts

theorem settled (h : Departs x .committed e e') (hx : e.Active x)
    (counters : e'.counters = e.committing x) :
    Ledger e' := by
  have committed : e'.tally (· == .committed) = e.tally (· == .committed) + 1 := h.tally hx rfl rfl
  have aborted : e'.tally (· == .aborted) = e.tally (· == .aborted) := h.tally hx rfl rfl
  have fates : e'.counters.commits = e.counters.commits + 1 ∧
      e'.counters.aborts = e.counters.aborts ∧
      e'.counters.conflicts = e.counters.conflicts ∧
        (e'.counters.inevitableCommits = e.counters.inevitableCommits ∨
        e'.counters.inevitableCommits = e.counters.inevitableCommits + 1) := by
    rw [counters, committing]
    split
    · exact ⟨rfl, rfl, rfl, .inr rfl⟩
    · exact ⟨rfl, rfl, rfl, .inl rfl⟩
  obtain ⟨commits, aborts, conflicts, inevitable⟩ := fates
  refine l.departs h (by decide) ?_ ?_ ?_ ?_
  · rw [commits, committed, l.commits, UInt64.ofNat_add]
    rfl
  · rw [aborts, aborted]
    exact l.aborts
  · rw [committed]
    exact counted l.inevitable inevitable
  · rw [conflicts, aborted]
    exact l.conflicts

theorem begins {t : ThreadId} {k : SegmentId} (h : Begins t x k e e')
    (counters : e'.counters = e.counters) :
    Ledger e' := by
  have size := h.txns_size
  obtain rfl := h.fresh
  have tally : ∀ p : Phase → Bool, p .running = false → e'.tally p = e.tally p := by
    intro p hp
    rw [tally_push size h.txn, h.own, hp]
    rfl
  refine ⟨fun y hy => ?_, ?_, ?_, ?_, ?_, fun u idle => ?_⟩
  · by_cases own : y = e.txns.size
    · rw [own, h.own]
      exact Phase.noConfusion
    · rw [h.txn y own]
      exact l.lives y (by omega)
  · rw [counters, tally _ rfl]
    exact l.commits
  · rw [counters, tally _ rfl]
    exact l.aborts
  · rw [counters, tally _ rfl]
    exact l.inevitable
  · rw [counters, tally _ rfl]
    exact l.conflicts
  · by_cases own : u = t
    · rw [own, h.own_thread.1] at idle
      cases idle
    · rw [h.thread u own] at idle ⊢
      exact l.bare u idle

theorem promotes (hx : e.Active x) (life : e.LifeOk) (h : Promotes x e e')
    (counters : e'.counters = e.counters) :
    Ledger e' := by
  obtain ⟨reason, own⟩ := h.own
  have tally : ∀ p : Phase → Bool, p .running = false → p .inevitable = false →
      e'.tally p = e.tally p := by
    intro p running inevitable
    have change := tally_change (p := p) h.txns_size (active_lt hx) fun y hy => by rw [h.txn y hy]
    rwa [h.running, own, running, inevitable] at change
  refine ⟨fun y hy => ?_, ?_, ?_, ?_, ?_, fun u idle => ?_⟩
  · by_cases here : y = x
    · rw [here, own]
      exact Phase.noConfusion
    · rw [h.txn y here]
      exact l.lives y (h.txns_size ▸ hy)
  · rw [counters, tally _ rfl rfl]
    exact l.commits
  · rw [counters, tally _ rfl rfl]
    exact l.aborts
  · rw [counters, tally _ rfl rfl]
    exact l.inevitable
  · rw [counters, tally _ rfl rfl]
    exact l.conflicts
  · by_cases here : u = (e.txn x).thread
    · rw [here, h.own_thread.1.txn, life.thread x hx] at idle
      cases idle
    · rw [h.thread u here] at idle ⊢
      exact l.bare u idle

end
end Ledger

section Feats
variable {e e' : Engine} {x : TxnId}

theorem Drifts.works {m : Engine} (h : Drifts x e m) (ok : e.Core) (hx : e.Active x)
    (weak : e.WeakOk (e.txn x).segment) :
    Works x e m := by
  induction h with
  | start => exact .refl x e
  | conflict r kind run =>
    obtain ⟨e1, ran, alike, -⟩ := countConflict_spec x r kind e
    rw [run] at ran
    cases ran
    exact alike.works
  | minor cause free run => exact (collectMinor_done ok hx (free _) weak run).1.serves.works
  | lull before h ih => exact ih.trans h.alike.works

theorem uncounted_collectMinor {failure : Option Error} (free : ∀ t, .stack t ∉ e.locked)
    (run : collectMinor x e = .done failure e') : Uncounted e e' := by
  have ends := (smooth_collectMinor (E := Raise.BadObject) x).ends e free
  rw [run] at ends
  exact ends.uncounted

theorem Drifts.counted {m : Engine} (h : Drifts x e m) : m.counters.fates = e.counters.fates ∨
    m.counters.fates =
    (e.counters.commits, e.counters.inevitableCommits, e.counters.aborts,
      e.counters.conflicts + 1) := by
  induction h with
  | start => exact .inl rfl
  | conflict r kind run =>
    cases run
    exact .inr rfl
  | minor cause free run => exact .inl (uncounted_collectMinor free run)
  | lull before h => rwa [h.counters]

theorem Ledger.feat (l : Ledger e) (ok : e.Core) (weak : ∀ k, e.WeakOk k) (h : Feat e e') :
    Ledger e' := by
  have work : ∀ {x}, e.Active x → Works x e e' → e'.counters = e.counters → Ledger e' :=
    fun active works same =>
    l.unmoved (works.unmoved ok.life active (congrArg Counters.fates same))
  cases h with
  | lull h => exact l.unmoved h.unmoved
  | load active usable run =>
    obtain ⟨serves, -, counters⟩ := (load_done ok active usable run).serves ok active
    exact work active serves.works counters
  | copy active shared run =>
    have stores := privateCopy_done ok active shared run 0
    exact work active stores.serves.works stores.counters
  | store active usable inside run =>
    have stores := store_done ok active usable inside run
    exact work active stores.serves.works stores.counters
  | bump active whole run =>
    obtain ⟨-, -, rfl⟩ := bump?_done run
    exact l.unmoved (.of_tables rfl rfl rfl)
  | grow whole run => exact l.unmoved (mallocOld_done ok.heap whole.2.2 run).1.unmoved
  | @large e1 x r size active whole found run =>
    have only := (mallocOld_done ok.heap whole.2.2 run).1
    refine l.unmoved
      (only.unmoved.trans ⟨rfl, by simp, fun y => ?_, fun t idle => .inr ⟨idle, rfl, rfl⟩⟩)
    rw [txn_setTxn]
    split
    · next here =>
      rw [← here.1, Txn.noteCreated]
      split <;> rfl
    · rfl
  | minor active free run =>
    have minor := (collectMinor_done ok active (free _) (weak _) run).1
    exact l.unmoved (minor.serves.works.unmoved ok.life active (uncounted_collectMinor free run))
  | @weak x r target size active whole fresh usable =>
    have put : Unmoved e (e.putOwn x r (size.toNat / 8 - 1) target.bits) := by
      unfold putOwn
      split
      · exact .of_tables rfl rfl rfl
      · exact .of_tables rfl rfl rfl
    exact l.unmoved (put.trans (.of_tables rfl rfl rfl))
  | stack t => exact l.unmoved (unmoved_setThread t rfl fun _ => ⟨rfl, rfl⟩)
  | tables t onAbort onCommit held =>
    refine l.unmoved (unmoved_setThread t rfl fun idle => ?_)
    rw [held] at idle
    cases idle
  | register =>
    refine l.unmoved ⟨rfl, rfl, fun _ => rfl, fun t idle => ?_⟩
    by_cases new : t = e.threads.size
    · rw [thread, Array.getD_eq_getD_getElem?, new, Array.getElem?_push_size]
      exact .inl ⟨rfl, rfl⟩
    · have same : thread { e with threads := e.threads.push { registered := true } } t =
          e.thread t := by
        rw [thread, Array.getD_eq_getD_getElem?, Array.getElem?_push, if_neg new, thread,
          Array.getD_eq_getD_getElem?]
      rw [same] at idle ⊢
      exact .inr ⟨idle, rfl, rfl⟩
  | retire t =>
    exact l.unmoved ((unmoved_setThread t rfl fun _ => ⟨rfl, rfl⟩).trans
      (unmoved_setThread t rfl fun _ => ⟨rfl, rfl⟩))
  | begin idle registered found => exact l.begins (begins_started idle registered found) rfl
  | @promote x reason running none fresh =>
    have active : e.Active x := by rw [Active, running]; rfl
    exact l.promotes active ok.life (promotes_promoted active running none fresh reason) rfl
  | @abort m e' x callbacks drifts active core running free cause run =>
    have works := drifts.works ok active (weak _)
    obtain ⟨counters, b, aborts, alike⟩ :=
      discard_done core ((works.active x).2 active) free running run
    have counted := drifts.counted
    simp only [Counters.fates, Prod.mk.injEq] at counted
    have departs := works.departs aborts.leaves alike
    obtain ⟨commits, inevitable, aborts, conflicts⟩ | ⟨commits, inevitable, aborts, conflicts⟩ :=
      counted
    · exact l.rolledBack departs active (by rw [counters, commits]) (by rw [counters, aborts])
        (by rw [counters, inevitable])
        (.inl (by rw [counters, conflicts]))
    · exact l.rolledBack departs active (by rw [counters, commits]) (by rw [counters, aborts])
        (by rw [counters, inevitable])
        (.inr (by rw [counters, conflicts]))
  | commit active empty alone fresh run =>
    obtain ⟨counters, commits⟩ := settleCommit_done ok active empty alone run
    exact l.settled ((Works.refl _ e).departs commits.leaves (.refl _)) active counters
  | @prebuild e1 e2 r size words whole inside run found set =>
    have tables := (prebuild_done ok whole inside run found set).1
    refine l.unmoved (.of_tables ?_ ?_ ?_)
    · exact congrArg (·.counters.fates) tables
    · exact congrArg (·.txns) tables
    · exact congrArg (·.threads) tables

/-- No feat frees what is shared. -/
theorem Feat.shared {r : Ref} (ok : e.Core) (weak : ∀ k, e.WeakOk k) (h : Feat e e')
    (shared : e.Shared r) : e'.Shared r := by
  cases h with
  | lull h => exact h.alike.shared.2 shared
  | load active usable run =>
    exact (((load_done ok active usable run).serves ok active).1.works.shared r).2 shared
  | copy active shared' run =>
    exact ((privateCopy_done ok active shared' run 0).serves.works.shared r).2 shared
  | store active usable inside run =>
    exact ((store_done ok active usable inside run).serves.works.shared r).2 shared
  | bump active whole run =>
    obtain ⟨-, -, rfl⟩ := bump?_done run
    exact shared
  | grow whole run =>
    obtain ⟨only, -, ⟨-, keeps⟩ | ⟨found, -⟩⟩ := mallocOld_done ok.heap whole.2.2 run
    · refine ⟨shared.1.imp fun n room => (keeps.live _ n).2 room,
        fun ⟨y, created⟩ => shared.2 ⟨y, ?_⟩⟩
      rwa [only.txn] at created
    · exact absurd rfl found
  | large active whole found run =>
    obtain ⟨only, good, ⟨none, -⟩ | ⟨-, n, -, takes⟩⟩ := mallocOld_done ok.heap whole.2.2 run
    · exact absurd none found
    · exact ((serves_alloc ok active only takes good).1.works.shared r).2 shared
  | minor active free run =>
    exact ((collectMinor_done ok active (free _) (weak _) run).1.serves.works.shared r).2 shared
  | @weak x q target size active whole fresh usable =>
    change (e.putOwn x q (size.toNat / 8 - 1) target.bits).Shared r
    unfold putOwn
    split
    · exact shared
    · next old =>
      obtain ⟨young, -⟩ | ⟨-, n, room, fits⟩ := fresh
      · exact absurd young.1 old
      · have inside : size.toNat / 8 - 1 < n := by
          have least := whole.2.1
          omega
        exact ⟨shared.1.imp fun m => (room_putWord ok.heap.good room inside _).2, shared.2⟩
  | stack | tables | register | retire => exact shared
  | begin idle registered found =>
    have begins := begins_started idle registered found
    exact (shared_congr begins.arena (begins.created ok.life) r).2 shared
  | promote reason running none fresh =>
    have promotes := promotes_promoted (by rw [Active, running]; rfl) running none fresh reason
    exact (shared_congr promotes.arena (fun y => (promotes.created y).1) r).2 shared
  | abort drifts active core running free cause run =>
    have works := drifts.works ok active (weak _)
    obtain ⟨-, b, aborts, alike⟩ := discard_done core ((works.active _).2 active) free running run
    exact alike.shared.2 ((aborts.shared r).2 ((works.shared r).2 shared))
  | commit active empty alone fresh run =>
    exact ((settleCommit_done ok active empty alone run).2.shared ok r).2 (.inl shared)
  | prebuild whole inside run found set =>
    obtain ⟨-, n, -, prebuilds⟩ := prebuild_done ok whole inside run found set
    exact (prebuilds.shared ok r).2 (.inl shared)

/-- What was shared and is no longer has been freed by a collection for one of the acting threads,
with everyone else stopped. -/
theorem Feats.freed {acting : ThreadId → Prop} {r : Ref} (h : Feats acting e e')
    (shared : e.Shared r)
    (freed : ¬ e'.Shared r) : ∃ t m m', acting t ∧ m.othersStopped (.thread t) = true ∧ m.Shared r ∧
    ¬ m'.Shared r ∧
      (collectOld m = .done () m' ∨ ∃ v, collectOld m = .raised v m') := by
  induction h with
  | start => exact absurd shared freed
  | @step m m' before core weak feat ih => exact ih fun still => freed (feat.shared core weak still)
  | @collect m m' t before core weak mine stopped free run ih =>
    by_cases still : m.Shared r
    · exact ⟨t, m, m', mine, stopped, still, freed, run⟩
    · exact ih still

theorem Ledger.collected (l : Ledger e) (ok : e.Core) (weak : ∀ k, e.WeakOk k)
    (free : ∀ t, .stack t ∉ e.locked)
    (run : collectOld e = .done () e' ∨ ∃ v, collectOld e = .raised v e') : Ledger e' := by
  have uncounted : Uncounted e e' := by
    have ends := (smooth_collectOld (E := Raise.BadObject)).ends e free
    obtain run | ⟨v, run⟩ := run
    · rw [run] at ends
      exact ends.uncounted
    · rw [run] at ends
      exact ends.2.2
  exact l.unmoved ((collectOld_ends ok weak free run).unmoved uncounted)

theorem Ledger.feats {acting : ThreadId → Prop} (l : Ledger e) (h : Feats acting e e') :
    Ledger e' := by
  induction h with
  | start => exact l
  | step before core weak feat ih => exact ih.feat core weak feat
  | collect before core weak mine stopped free run ih => exact ih.collected core weak free run

theorem Unused.ledger (h : e.Unused) (zero : e.counters = {}) : Ledger e := by
  have none : ∀ p, e.tally p = 0 := fun p => by rw [tally, h.new.txns]; rfl
  refine ⟨fun x hx => ?_, ?_, ?_, ⟨0, Nat.zero_le _, ?_⟩, ⟨0, Nat.zero_le _, ?_⟩, fun t _ => ?_⟩
  · rw [h.new.txns] at hx
    exact absurd hx (Nat.not_lt_zero x)
  · rw [none, zero]
    rfl
  · rw [none, zero]
    rfl
  · rw [zero]
    rfl
  · rw [zero]
    rfl
  · rw [h.new.thread]
    exact ⟨rfl, rfl⟩

end Feats

section Begun
variable {e e' : Engine} {who : Actor}

theorem Deed.begun (h : Deed who e e') : e'.txns.size ≤ e.txns.size + 1 := by
  cases h with
  | nothing h | idle t mine h | prebuild r n mine h => rw [h.txns]; exact Nat.le_succ _
  | work x mine h => rw [h.steady.txns_size]; exact Nat.le_succ _
  | abort x m mine works ok h =>
    rw [h.leaves.txns_size, works.steady.txns_size]; exact Nat.le_succ _
  | commit x m b mine minor valid h after =>
    have same : e'.txns.size = b.txns.size := by
      obtain alike | ⟨c, d, before, collects, later⟩ := after
      · rw [alike.txns]
      · rw [later.txns, collects.txns_size, before.txns]
    rw [same, h.leaves.txns_size, minor.serves.works.steady.txns_size]
    exact Nat.le_succ _
  | promote x mine h | collect mine h => rw [h.txns_size]; exact Nat.le_succ _
  | begin t x k mine h => exact h.txns_size.le

theorem Strides.begun {threads : List ThreadId} {n : Nat} (h : Strides threads e n e') :
    e'.txns.size ≤ e.txns.size + n := by
  induction h with
  | start => exact le_rfl
  | lull before h engine inv ih => rwa [h.alike.txns]
  | stretch before own h =>
    obtain ⟨a, b, alike, deed, alike'⟩ := h.deed
    have one := deed.begun
    rw [alike'.txns]
    rw [alike.txns] at one
    omega

end Begun

/-- Who has what, and what has become of all transactions. -/
structure Balanced (e : Engine) : Prop where
  owner : ∀ k t, (e.segment k).owner = some t ↔ (e.thread t).segment = some k
  seat : ∀ t k, (e.thread t).segment = some k ↔
    ∃ x, (e.thread t).txn = some x ∧ (e.txn x).segment = k
  current : ∀ t x, (e.thread t).txn = some x ↔
    (e.txn x).thread = t ∧ ((e.txn x).phase = .running ∨ (e.txn x).phase = .inevitable)
  single : ∀ t u k, (e.thread t).segment = some k → (e.thread u).segment = some k → t = u
  room : e.running ≤ e.segments.size
  free : ∀ k, (e.segment k).owner = none → (e.segment k).standing = .free ∧
    (∀ i, (e.segment k).nursery.word i = 0) ∧
    (e.segment k).used = 0 ∧ (e.segment k).objects = #[] ∧ (e.segment k).weakrefs = #[]
  inevitable : ∀ x, e.inevitable = some x ↔ (e.txn x).phase = .inevitable ∧
    (e.thread (e.txn x).thread).txn = some x
  tables : ∀ t, (e.thread t).txn = none → (e.thread t).onAbort = .empty ∧
    (e.thread t).onCommit = .empty
  begun : e.txns.size = e.counters.commits.toNat + e.counters.aborts.toNat + e.running
  conflicts : e.counters.conflicts ≤ e.counters.aborts
  inevitables : e.counters.inevitableCommits ≤ e.counters.commits

section Balanced
variable {e : Engine}

theorem LifeOk.current (life : e.LifeOk) (t : ThreadId) (x : TxnId) : (e.thread t).txn = some x ↔
    (e.txn x).thread = t ∧ ((e.txn x).phase = .running ∨ (e.txn x).phase = .inevitable) := by
  constructor
  · intro held
    obtain ⟨active, thread, -⟩ := life.txn t x held
    exact ⟨thread, active.phase⟩
  · rintro ⟨rfl, running | inevitable⟩
    · exact life.thread x (by rw [Active, running]; rfl)
    · exact life.thread x (by rw [Active, inevitable]; rfl)

theorem LifeOk.seat (life : e.LifeOk) (t : ThreadId) (k : SegmentId) :
    (e.thread t).segment = some k ↔ ∃ x, (e.thread t).txn = some x ∧ (e.txn x).segment = k := by
  constructor
  · intro held
    obtain ⟨x, hx⟩ := Option.isSome_iff_exists.1 (life.holds t k held).1
    refine ⟨x, hx, ?_⟩
    rw [(life.txn t x hx).2.2.1] at held
    exact Option.some.inj held
  · rintro ⟨x, hx, rfl⟩
    exact (life.txn t x hx).2.2.1

theorem Seats.room (seats : e.Seats) (life : e.LifeOk) : e.running ≤ e.segments.size := by
  have nodup : (((List.range e.txns.size).filter fun x => (e.txn x).phase.isActive).map fun x =>
    (e.txn x).segment).Nodup := by
    refine (List.nodup_range.filter _).map_on fun x hx y hy same => ?_
    exact not_not.1 fun hne =>
      (life.distinct (List.mem_filter.1 hy).2 (List.mem_filter.1 hx).2 hne).2 same
  have sub : (((List.range e.txns.size).filter fun x => (e.txn x).phase.isActive).map fun x =>
    (e.txn x).segment) ⊆
      List.range e.segments.size := by
    intro k hk
    obtain ⟨x, hx, rfl⟩ := List.mem_map.1 hk
    exact List.mem_range.2
      (seats.segment_lt (seats.owner _ _ (life.owned (List.mem_filter.1 hx).2)))
  have length := (List.subperm_of_subset nodup sub).length_le
  rwa [List.length_map, ← List.countP_eq_length_filter, List.length_range] at length

theorem Ledger.balanced (l : Ledger e) (life : e.LifeOk) (seats : e.Seats)
    (few : e.txns.size < 2 ^ 64) : e.Balanced := by
  have total := tally_total l.lives
  have commits : e.counters.commits.toNat = e.tally (· == .committed) := by
    rw [l.commits, Word.toNat_ofNat_lt (by omega)]
  have aborts : e.counters.aborts.toNat = e.tally (· == .aborted) := by
    rw [l.aborts, Word.toNat_ofNat_lt (by omega)]
  refine
    { owner := fun k t => ⟨seats.owner k t, seats.holds t k⟩
      seat := life.seat
      current := life.current
      single := fun t u k ht hu =>
        Option.some.inj ((seats.holds t k ht).symm.trans (seats.holds u k hu))
      room := seats.room life
      free := fun k none => ?_
      inevitable := fun x => ?_
      tables := l.bare
      begun := by rwa [commits, aborts]
      conflicts := ?_
      inevitables := ?_ }
  · obtain ⟨used, objects, weakrefs, nursery⟩ := life.free k none
    refine ⟨(seats.free k).1 none, fun i => nursery.rest i ?_, used, objects, weakrefs⟩
    rw [used]
    exact Nat.zero_le i
  · rw [life.inevitable]
    exact ⟨fun h => ⟨h, life.thread x (by rw [Active, h]; rfl)⟩, And.left⟩
  · obtain ⟨n, hn, met⟩ := l.conflicts
    rwa [UInt64.le_iff_toNat_le, aborts, met, Word.toNat_ofNat_lt (by omega)]
  · obtain ⟨n, hn, known⟩ := l.inevitable
    rwa [UInt64.le_iff_toNat_le, commits, known, Word.toNat_ofNat_lt (by omega)]

end Balanced
end Engine

namespace System.Run
variable {N n : Nat} {a : Nat → System} {choice : Nat → Choice} (run : System.Run N a choice)
include run

theorem begun (hn : n ≤ N) : (a n).engine.txns.size ≤ 3 * n := by
  induction n with
  | zero => rw [run.unused.new.txns]; exact Nat.le_refl 0
  | succ n ih =>
    obtain ⟨threads, k, hk, strides⟩ := (run.steps hn).goes
    rw [run.step n hn]
    have more := strides.begun
    omega

end System.Run

variable {N n : Nat} {a : Nat → System} {choice : Nat → Choice}

/-- In every run segments, threads and transactions belong together as they should, whatever is free
is clean, and every transaction that was begun has committed, was rolled back or is running. -/
theorem balanced_of_run (run : System.Run N a choice) (zero : (a 0).engine.counters = {})
    (hn : n ≤ N) (unbroken : System.Unbroken a choice n) : (a n).engine.Balanced := by
  have ledger :=
    run.invariant (run.unused.ledger zero) (fun _ _ _ => Ledger.feats) hn
      (run.unlocked hn unbroken)
  have ok := run.ok hn
  refine ledger.balanced ok.inv.core.life ok.seats ?_
  have begun := run.begun hn
  have short := run.short
  omega

/-- One transaction makes an object, two use it at a time, a fourth is inevitable and a fifth still
runs. -/
def trading : List Choice :=
  [.start (.ask .register), .start (.ask .register), .start (.ask (.begin 0)),
    .start (.ask (.alloc 0 16)), .start (.ask (.push 0 (.young 0 0))), .start (.ask (.commit 0)),
    .start (.ask (.begin 0)), .start (.ask (.begin 1)), .start (.ask (.store 1 ⟨16⟩ 1 5)),
    .start (.ask (.commit 1)), .start (.ask (.load 2 ⟨16⟩ 1)), .start (.ask (.begin 1)),
    .start (.ask (.becomeInevitable 3 "io")), .start (.ask (.commit 3)), .start (.ask (.begin 0))]

theorem run_trading : System.Run 15 (System.enacts trading) (trading.getD · (.wake 0)) :=
  System.run_enacts trading (by decide +kernel) (by decide)

theorem balanced_of_run_trading : ∃ a choice, System.Run 15 a choice ∧ (a 0).engine.counters = {} ∧
    System.Unbroken a choice 15 ∧ (a 15).engine.Balanced ∧
    (a 15).engine.counters.fates = (3, 1, 1, 1) ∧
    (a 15).engine.txns.size = 5 ∧ (a 15).engine.running = 1 := by
  have given :
      ∀ i < 15, (((System.enacts trading i).step (trading.getD i (.wake 0))).2.all fun exit =>
      !exit.held.contains .engine) = true := by decide +kernel
  have unbroken : System.Unbroken (System.enacts trading) (trading.getD · (.wake 0)) 15 := by
    intro i hi exit v ends _ _ held
    have none := given i hi
    rw [ends] at none
    simp [held] at none
  exact ⟨_, _, run_trading, rfl, unbroken,
    balanced_of_run run_trading rfl (Nat.le_refl 15) unbroken, by decide +kernel, by decide +kernel,
    by decide +kernel⟩

end TxHeap
