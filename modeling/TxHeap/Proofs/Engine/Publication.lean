import TxHeap.Proofs.Engine.Ending
import TxHeap.Proofs.Engine.Evacuation

/-! Rolling back, and committing: validation finds a read exactly if it is stale, and a validated
transaction's copies and new objects enter the heap under the next version, which no other object
gets. -/

namespace TxHeap
open Engine TxHeap.Action

variable {t : ThreadId} {k : SegmentId}

variable {e e' : Engine} {x : TxnId}

theorem freeAll_spec (good : e.arena.Good) {rs : List Ref} (nodup : rs.Nodup)
    (all : ∀ r ∈ rs, e.Allocated r) :
    ∃ a, freeAll rs e = .ok () (e.setArena a) ∧ a.Good ∧ e.arena.Shrinks a (fun q => ⟨q⟩ ∉ rs) ∧
      a.frees = e.arena.frees + UInt64.ofNat rs.length := by
  induction rs generalizing e with
  | nil => exact ⟨e.arena, rfl, good, .refl fun _ _ _ => nofun, (UInt64.add_zero _).symm⟩
  | cons r rest ih =>
    obtain ⟨absent, nodup⟩ := List.nodup_cons.1 nodup
    obtain ⟨n, room⟩ := all r (.head _)
    obtain ⟨pre, post, hcs, hp, -⟩ := good.split_at_live room
    obtain ⟨a, run, wf, shrinks, _, fields⟩ := Arena.release_spec good hcs hp
    have frees : a.frees = e.arena.frees + 1 := by rw [fields]
    have still : ∀ q ∈ rest, (e.setArena a).Allocated q := by
      intro q hq
      obtain ⟨m, hm⟩ := all q (.tail r hq)
      refine ⟨m, (shrinks.live q.bits m).2 ⟨hm, fun heq => absent ?_⟩⟩
      rwa [← show q = r from congrArg Ref.mk heq]
    obtain ⟨b, run', good', shrinks', frees'⟩ := ih wf.good nodup still
    refine ⟨b, ?_, good', shrinks.trans shrinks' fun q m _ => ?_, ?_⟩
    · rw [freeAll, bind_ok (onArena_ok run), run']
      rfl
    · rw [List.mem_cons, not_or]
      refine and_congr_left fun _ =>
        not_congr ⟨fun h => congrArg Ref.bits h, fun h => congrArg Ref.mk h⟩
    · rw [frees', List.length_cons, setArena_arena, frees, UInt64.ofNat_add, UInt64.add_assoc,
        UInt64.add_comm 1]
      rfl

namespace Engine

structure Sheds (x : TxnId) (e e' : Engine) : Prop where
  settings : e'.settings = e.settings
  layout : e'.layout = e.layout
  prebuilt : e'.prebuilt = e.prebuilt
  threads_size : e'.threads.size = e.threads.size
  txns_size : e'.txns.size = e.txns.size
  segments_size : e'.segments.size = e.segments.size
  memory_size : e'.arena.memory.size = e.arena.memory.size
  inevitable : ∀ y, e'.inevitable = some y ↔ e.inevitable = some y ∧ y ≠ x
  thread : ∀ u, u ≠ (e.txn x).thread → e'.thread u = e.thread u
  own_thread : (e'.thread (e.txn x).thread).segment = (e.thread (e.txn x).thread).segment ∧
    (e'.thread (e.txn x).thread).registered = (e.thread (e.txn x).thread).registered ∧
    (e'.thread (e.txn x).thread).onAbort = .empty ∧ (e'.thread (e.txn x).thread).onCommit = .empty
  txn : ∀ y, y ≠ x → e'.txn y = e.txn y
  own : (e'.txn x).thread = (e.txn x).thread
  segment : ∀ k, k ≠ (e.txn x).segment → (e.segment k).Alike (e'.segment k)
  own_used : (e'.segment (e.txn x).segment).used = 0
  own_objects : (e'.segment (e.txn x).segment).objects = #[]
  own_weakrefs : (e'.segment (e.txn x).segment).weakrefs = #[]
  own_nursery : (e'.segment (e.txn x).segment).nursery.size =
    (e.segment (e.txn x).segment).nursery.size ∧
    ∀ i, (e'.segment (e.txn x).segment).nursery.word i = 0

def finished (e : Engine) (x : TxnId) (t : ThreadId) (k : SegmentId) (phase : Phase) : Engine :=
  (((((e.setTxn x fun tx => { tx with phase }).setThread t fun th =>
    { th with last := phase, txn := none }).setSegment
    k fun s => { s with owner := none, standing := .free }).setThread t fun th =>
      { th with segment := none }).setAsleep
      fun l => (dropFirst .freeSegment l).filter fun (_, d) => d != .safePoint).setTxn
        x fun tx => { tx with reads := [], writes := #[], created := #[], stackAtBegin := #[] }

variable {u : ThreadId} {j : SegmentId} {y : TxnId} {p : Phase}

theorem thread_finished (hu : u ≠ t) : (e.finished x t k p).thread u = e.thread u := by
  simp [finished, thread_setThread, Ne.symm hu]

theorem own_thread_finished (ht : t < e.threads.size) : (e.finished x t k p).thread t =
    { e.thread t with last := p, txn := none, segment := none } := by
  simp [finished, thread_setThread, ht]

theorem txn_finished (hy : y ≠ x) : (e.finished x t k p).txn y = e.txn y := by
  simp [finished, txn_setTxn, Ne.symm hy]

theorem own_txn_finished (hx : x < e.txns.size) : (e.finished x t k p).txn x =
    { e.txn x with
      phase := p, reads := [], writes := #[], created := #[]
      stackAtBegin := #[] } := by
  simp [finished, txn_setTxn, hx]

theorem segment_finished (hj : j ≠ k) : (e.finished x t k p).segment j = e.segment j := by
  simp [finished, segment_setSegment, Ne.symm hj]

theorem own_segment_finished (hk : k < e.segments.size) : (e.finished x t k p).segment k =
    { e.segment k with owner := none, standing := .free } := by
  simp [finished, segment_setSegment, hk]

end Engine

theorem clearTables_run (e : Engine) (t : ThreadId) : clearTables t e =
    .ok () (e.setThread t fun th => { th with onAbort := .empty, onCommit := .empty }) := rfl

theorem leaveSegment_run (hk : (e.thread t).segment = some k) :
    leaveSegment t e = .ok ()
    (((e.setSegment k fun s => { s with owner := none, standing := .free }).setThread
      t fun th => { th with segment := none }).setAsleep
        fun l => (dropFirst .freeSegment l).filter fun (_, d) => d != .safePoint) := by
  rw [leaveSegment, get_bind, hk]
  rfl

theorem finish_run {phase : Phase} (ht : (e.txn x).thread = t)
    (hk : (e.thread t).segment = some k) : finish x phase e = .ok () (e.finished x t k phase) := by
  have held : (((e.setTxn x fun tx => { tx with phase }).setThread t fun th =>
      { th with last := phase, txn := none }).thread t).segment = some k := by
    rw [thread_setThread]
    split
    · exact hk
    · exact hk
  rw [finish, get_bind, ht, bind_ok (updateTxn_run ..), bind_ok (updateThread_run ..),
    bind_ok (leaveSegment_run held)]
  rfl

theorem finish_spec {e1 : Engine} (ok : e.Core) (hx : e.Active x) (sheds : Sheds x e e1)
    (phase : Phase) :
    ∃ e', finish x phase e1 = .ok () e' ∧ Leaves x phase e e' ∧ e'.arena = e1.arena ∧
    e'.clock = e1.clock ∧
      e'.weakrefs = e1.weakrefs ∧ e'.locked = e1.locked ∧ e'.counters = e1.counters ∧
      (e'.thread (e.txn x).thread).stack = (e1.thread (e.txn x).thread).stack := by
  have held := (ok.life.txn _ x (ok.life.thread x hx)).2.2.1
  have run : finish x phase e1 = .ok () (e1.finished x (e.txn x).thread (e.txn x).segment phase) :=
    finish_run sheds.own (sheds.own_thread.1.trans held)
  have own_txn := own_txn_finished (t := (e.txn x).thread) (k := (e.txn x).segment) (p := phase)
    (by rw [sheds.txns_size]; exact active_lt hx)
  have own_thread := own_thread_finished (x := x) (k := (e.txn x).segment) (p := phase)
    (by rw [sheds.threads_size]; exact thread_lt ok hx)
  have own_segment := own_segment_finished (x := x) (t := (e.txn x).thread) (p := phase)
    (by rw [sheds.segments_size]; exact segment_lt ok hx)
  refine ⟨_, run, ?_, by simp [finished], by simp [finished], by simp [finished],
    by simp [finished],
    by simp [finished], by rw [own_thread]⟩
  exact
    { settings := by simpa [finished] using sheds.settings
      layout := by simpa [finished] using sheds.layout
      prebuilt := by simpa [finished] using sheds.prebuilt
      threads_size := by simpa [finished] using sheds.threads_size
      txns_size := by simpa [finished] using sheds.txns_size
      segments_size := by simpa [finished] using sheds.segments_size
      memory_size := by simpa [finished] using sheds.memory_size
      inevitable := by simpa [finished] using sheds.inevitable
      thread := fun u hu => by rw [thread_finished hu, sheds.thread u hu]
      own_thread := by
        rw [own_thread]
        exact ⟨rfl, rfl, sheds.own_thread.2⟩
      txn := fun y hy => by rw [txn_finished hy, sheds.txn y hy]
      own := by rw [own_txn]; exact ⟨rfl, rfl⟩
      segment := fun j hj => by rw [segment_finished hj]; exact sheds.segment j hj
      own_owner := by rw [own_segment]
      own_used := by rw [own_segment]; exact sheds.own_used
      own_objects := by rw [own_segment]; exact sheds.own_objects
      own_weakrefs := by rw [own_segment]; exact sheds.own_weakrefs
      own_nursery := by rw [own_segment]; exact sheds.own_nursery }

def Engine.stripped (e : Engine) (x : TxnId) (a : Arena) : Engine :=
  ((((e.setArena a).setSegment (e.txn x).segment Segment.emptied).setSegment
    (e.txn x).segment fun s => { s with weakrefs := #[] }).setThread
      (e.txn x).thread fun th => { th with stack := (e.txn x).stackAtBegin }).setThread
        (e.txn x).thread fun th => { th with onAbort := .empty, onCommit := .empty }

theorem Engine.sheds_stripped (ok : e.Core) (hx : e.Active x) (running : (e.txn x).phase = .running)
    {a : Arena} (size : a.memory.size = e.arena.memory.size) : Sheds x e (e.stripped x a) := by
  have thread_lt := thread_lt ok hx
  have segment_lt := segment_lt ok hx
  have nursery := (ok.txns x hx).nursery
  have own_segment : (e.stripped x a).segment (e.txn x).segment =
      { (e.segment (e.txn x).segment).emptied with weakrefs := #[] } := by
    simp [stripped, segment_setSegment, segment_lt]
  have own_thread : (e.stripped x a).thread (e.txn x).thread =
      { e.thread (e.txn x).thread with
        stack := (e.txn x).stackAtBegin, onAbort := .empty, onCommit := .empty } := by
    simp [stripped, thread_setThread, thread_lt]
  exact
    { settings := by simp [stripped]
      layout := by simp [stripped]
      prebuilt := by simp [stripped]
      threads_size := by simp [stripped]
      txns_size := by simp [stripped]
      segments_size := by simp [stripped]
      memory_size := by simpa [stripped] using size
      inevitable := fun y => by
        rw [show (e.stripped x a).inevitable = e.inevitable by simp [stripped]]
        refine ⟨fun hy => ⟨hy, ?_⟩, fun hy => hy.1⟩
        rintro rfl
        have inevitable := (ok.life.inevitable y).1 hy
        rw [running] at inevitable
        cases inevitable
      thread := fun u hu => by simp [stripped, thread_setThread, Ne.symm hu]
      own_thread := by rw [own_thread]; exact ⟨rfl, rfl, rfl, rfl⟩
      txn := fun y _ => by simp [stripped]
      own := by simp [stripped]
      segment := fun k hk => by
        simp only [stripped, segment_setThread, segment_setSegment, Ne.symm hk, false_and, if_false,
          segment_setArena]
        exact .refl _
      own_used := by rw [own_segment]; rfl
      own_objects := by rw [own_segment]; rfl
      own_weakrefs := by rw [own_segment]
      own_nursery := by
        rw [own_segment]
        refine ⟨by simp [Segment.emptied], fun i => ?_⟩
        have zero : NurseryOk (e.segment (e.txn x).segment).emptied #[] := nursery.emptied
        exact zero.rest i (by simp [Segment.emptied]) }

theorem discard_spec (ok : e.Core) (hx : e.Active x) (free : .stack (e.txn x).thread ∉ e.locked)
    (running : (e.txn x).phase = .running) (cause : Error) :
    ∃ callbacks e', discard x cause e = .done callbacks e' ∧ e'.locked = e.locked ∧
      e'.counters = { e.counters with aborts := e.counters.aborts + 1 } ∧
      ∃ b, Aborts x e b ∧ Alike b e' := by
  have own := ok.txns x hx
  obtain ⟨a, freed, good, shrinks, frees⟩ := freeAll_spec ok.heap.good own.nodup
    fun r hr => own.created r (Array.mem_toList_iff.1 hr)
  obtain ⟨b, left, leaves, arena, clock, weakrefs, locked, counters, stack⟩ :=
    finish_spec ok hx (sheds_stripped ok hx running shrinks.memory_size) .aborted
  replace arena : b.arena = a := by simpa [stripped] using arena
  have aborts : Aborts x e b :=
    { leaves := leaves
      running := running
      clock := by simpa [stripped] using clock
      weakrefs := by simpa [stripped] using weakrefs
      stack := by
        rw [stack]
        simp [stripped, thread_setThread, thread_lt ok hx]
      good := by rwa [arena]
      room := fun r n => by
        rw [Room, arena]
        exact (shrinks.live r.bits n).trans
          (and_congr_right fun _ => not_congr Array.mem_toList_iff)
      word := fun r n i hr hi => by
        rw [Room, arena] at hr
        rw [wordAt, arena]
        exact shrinks.kept r.bits n i hr hi
      mallocs := by rw [arena]; exact shrinks.mallocs
      frees := by rw [arena]; exact frees }
  replace locked : b.locked = e.locked := by simpa [stripped] using locked
  have hphase : ((e.txn x).phase == .inevitable) = false := by rw [running]; rfl
  unfold discard
  rw [look_bind]
  simp only [hphase, Bool.false_eq_true, if_false]
  rw [look_bind, look_bind, look_bind, lift_done freed,
    lift_done (resetNursery_run ..), lift_done (updateSegment_run ..),
    bind_done (lock_free (by simpa using free)), look_bind, lift_done (updateThread_run ..),
    unlock_bind, look_bind, lift_done (clearTables_run ..),
    giveUp_setThread_acquire]
  change ∃ callbacks e', (liftM (finish x .aborted) >>= _ : EngineCall _) (e.stripped x a) = _ ∧ _
  rw [lift_done left, lift_done (updateCounters_run ..), lift_done (logInfo_run ..)]
  replace counters : b.counters = e.counters := by simpa [stripped] using counters
  refine ⟨_, _, rfl, locked, ?_, b, aborts, (alike_setCounters b _).trans (alike_setLog _ _)⟩
  simp [counters]

open Engine

variable {version : UInt64} {writes : List (Ref × Array UInt64)} {e1 : Engine}

variable {e'' : Engine} {r : Ref}

theorem headerFor_unlocked (v : UInt64) : headerFor v &&& lockBit = 0 := by
  rw [← UInt64.toNat_inj, UInt64.toNat_and, headerFor, UInt64.toNat_shiftLeft]
  simp only [lockBit, UInt64.reduceToNat, Nat.and_one_is_mod, Nat.shiftLeft_eq, Nat.reduceMod,
    Nat.reducePow]
  omega

theorem staleRead?_run (ok : e.HeapOk) {reads : List (Ref × UInt64)}
    (shared : ∀ r v, (r, v) ∈ reads → e.Shared r) :
    ∃ stale, staleRead? reads e = .ok stale e ∧
    (stale = none ↔ ∀ r v, (r, v) ∈ reads → v = e.version r) := by
  induction reads with
  | nil => exact ⟨none, rfl, by simp⟩
  | cons p rest ih =>
    obtain ⟨r, v⟩ := p
    have hr := shared r v (.head _)
    obtain ⟨n, room⟩ := hr.1
    have unlocked : e.wordAt r 0 &&& lockBit = 0 := by
      rw [(ok.header r hr).1]
      exact headerFor_unlocked _
    rw [staleRead?, bind_ok (header_ok ok.good room)]
    by_cases fresh : v = e.version r
    · rw [if_neg (by rw [not_or]; exact ⟨not_not.2 unlocked, not_not.2 fresh.symm⟩)]
      obtain ⟨stale, run, iff⟩ := ih fun q w hq => shared q w (.tail _ hq)
      refine ⟨stale, run, iff.trans ⟨fun all q w hq => ?_, fun all q w hq => all q w (.tail _ hq)⟩⟩
      obtain heq | hq := List.mem_cons.1 hq
      · obtain ⟨rfl, rfl⟩ := Prod.mk.inj heq
        exact fresh
      · exact all q w hq
    · rw [if_pos (.inr (Ne.symm fresh))]
      exact ⟨some r, rfl, ⟨fun none => absurd none (Option.some_ne_none r),
        fun all => absurd (all r v (.head _)) fresh⟩⟩

namespace Engine

structure Rewrites (e e' : Engine) (f : Ref → Nat → UInt64 → UInt64) : Prop where
  tables : e'.toEngineTables = e.toEngineTables
  good : e'.arena.Good
  room : ∀ r n, e'.Room r n ↔ e.Room r n
  word : ∀ r n i, e.Room r n → i < n → e'.wordAt r i = f r i (e.wordAt r i)
  memory_size : e'.arena.memory.size = e.arena.memory.size
  mallocs : e'.arena.mallocs = e.arena.mallocs
  frees : e'.arena.frees = e.arena.frees

theorem Rewrites.refl (good : e.arena.Good) : Rewrites e e fun _ _ w => w :=
  ⟨rfl, good, fun _ _ => .rfl, fun _ _ _ _ _ => rfl, rfl, rfl, rfl⟩

theorem Rewrites.trans {f g : Ref → Nat → UInt64 → UInt64} (h : Rewrites e e' f)
    (h' : Rewrites e' e'' g) :
    Rewrites e e'' fun r i w => g r i (f r i w) :=
  ⟨h'.tables.trans h.tables, h'.good, fun r n => (h'.room r n).trans (h.room r n),
    fun r n i hr hi => by rw [h'.word r n i ((h.room r n).2 hr) hi, h.word r n i hr hi],
    h'.memory_size.trans h.memory_size, h'.mallocs.trans h.mallocs, h'.frees.trans h.frees⟩

theorem Overwrites.rewrites {f : Nat → UInt64} (h : Overwrites e e' r f) {g : Nat → UInt64 → UInt64}
    (hg : ∀ n i, e.Room r n → i < n → f i = g i (e.wordAt r i)) :
    Rewrites e e' fun q i w => if q = r then g i w else w := by
  refine { h with word := fun q n i hq hi => ?_ }
  split
  · next heq =>
    subst heq
    rw [h.here n i hq hi, hg n i hq hi]
  · next hne => exact h.other q n i hq hi hne

end Engine

/-- A word of an object once a copy is published: the header tells the version, and the copy gives
what it has. -/
def publishedWord (version : UInt64) (copy : Array UInt64) (i : Nat) (w : UInt64) : UInt64 :=
  if i = 0 then headerFor version else if i < copy.size then copy.getD i 0 else w

def publishedWith (version : UInt64) : List (Ref × Array UInt64) → Ref → Nat → UInt64 → UInt64
  | [], _, _, w => w
  | (r, copy) :: rest, q, i, w =>
    publishedWith version rest q i (if q = r then publishedWord version copy i w else w)

theorem publishedWith_absent (absent : ∀ c, (r, c) ∉ writes) (i : Nat) (w : UInt64) :
    publishedWith version writes r i w = w := by
  induction writes generalizing w with
  | nil => rfl
  | cons p rest ih =>
    obtain ⟨q, c⟩ := p
    rw [publishedWith, if_neg]
    · exact ih (fun c hc => absent c (.tail _ hc)) w
    · rintro rfl
      exact absent c (.head _)

theorem publishedWith_mem (keys : (writes.map (·.1)).Nodup)
    {c : Array UInt64} (hr : (r, c) ∈ writes) (i : Nat) (w : UInt64) :
    publishedWith version writes r i w = publishedWord version c i w := by
  induction writes generalizing w with
  | nil => cases hr
  | cons p rest ih =>
    obtain ⟨q, d⟩ := p
    obtain ⟨absent, keys⟩ := List.nodup_cons.1 keys
    rw [publishedWith]
    obtain heq | inside := List.mem_cons.1 hr
    · obtain ⟨rfl, rfl⟩ := Prod.mk.inj heq
      rw [if_pos rfl]
      exact publishedWith_absent (fun c hc => absent (List.mem_map.2 ⟨(r, c), hc, rfl⟩)) i _
    · rw [if_neg]
      · exact ih keys inside w
      · rintro rfl
        exact absent (List.mem_map.2 ⟨(r, c), inside, rfl⟩)

theorem publish_spec (good : e.arena.Good) (version : UInt64)
    (fits : ∀ r c, (r, c) ∈ writes → 2 ≤ c.size ∧ ∃ n, e.Room r n ∧ c.size ≤ n) :
    ∃ e', publish version writes e = .ok () e' ∧ Rewrites e e' (publishedWith version writes) := by
  induction writes generalizing e with
  | nil => exact ⟨e, rfl, .refl good⟩
  | cons p rest ih =>
    obtain ⟨r, c⟩ := p
    obtain ⟨least, n, room, most⟩ := fits r c (.head _)
    have first := overwrites_putWord good room (i := 0) (by omega) (c.getD 0 0 ||| lockBit)
    have room1 := (first.room r n).2 room
    obtain ⟨copied, second⟩ :=
      copyFrom_ok first.good room1 (c.toList.drop 1) (i := 1) (by simp; omega)
    have room2 := (second.room r n).2 room1
    have third := overwrites_putWord second.good room2 (i := 0) (by omega) (headerFor version)
    have rewrites := ((first.trans second).trans third).rewrites (g := publishedWord version c)
      fun m i hm hi => by
        rw [second.here m i ((first.room r m).2 hm) hi, first.here m i hm hi, publishedWord]
        by_cases zero : i = 0
        · rw [if_pos zero, if_pos zero]
        · rw [if_neg zero, if_neg zero, if_neg zero, if_pos (by omega), List.getElem?_drop,
            show 1 + (i - 1) = i by omega, Array.getElem?_toList]
          by_cases inside : i < c.size
          · rw [if_pos inside, Array.getD_eq_getD_getElem?, Array.getElem?_eq_getElem inside]
            rfl
          · rw [if_neg inside, Array.getElem?_eq_none (by omega)]
            rfl
    obtain ⟨e', later, rewrites'⟩ := ih rewrites.good fun q d hq => by
      obtain ⟨least, m, hm, most⟩ := fits q d (.tail _ hq)
      exact ⟨least, m, (rewrites.room q m).2 hm, most⟩
    refine ⟨e', ?_, rewrites.trans rewrites'⟩
    rw [publish, bind_ok (oldSpan_ok good room),
      bind_ok (setOld_ok good room (Nat.le_refl n) (by omega) _),
      copyToOld, bind_ok copied,
        bind_ok (setOld_ok second.good room2 (Nat.le_refl n) (by omega) _), later]

def stampedWith (version : UInt64) (rs : List Ref) (q : Ref) (i : Nat) (w : UInt64) : UInt64 :=
  if q ∈ rs ∧ i = 0 then headerFor version else w

theorem stamp_spec (good : e.arena.Good) (version : UInt64) {rs : List Ref}
    (all : ∀ r ∈ rs, e.Allocated r) :
    ∃ e', stamp version rs e = .ok () e' ∧ Rewrites e e' (stampedWith version rs) := by
  induction rs generalizing e with
  | nil =>
    exact ⟨e, rfl, { Rewrites.refl good with word := fun r n i _ _ => by simp [stampedWith] }⟩
  | cons r rest ih =>
    obtain ⟨n, room⟩ := all r (.head _)
    have bounds := room_bounds good room
    have first := (overwrites_putWord good room (i := 0) (by omega) (headerFor version)).rewrites
      fun _ _ _ _ => rfl
    obtain ⟨e', later, rewrites⟩ := ih first.good fun q hq => by
      obtain ⟨m, hm⟩ := all q (.tail _ hq)
      exact ⟨m, (first.room q m).2 hm⟩
    refine ⟨e', by rw [stamp, bind_ok (setHeader_ok good room _), later], ?_⟩
    have both := first.trans rewrites
    refine { both with word := fun q m i hq hi => ?_ }
    rw [both.word q m i hq hi]
    simp only [stampedWith, List.mem_cons]
    grind

/-- The heap has taken in what the transaction `x` wrote and created. -/
structure Engine.Publishes (x : TxnId) (e e' : Engine) : Prop where
  tables : e' = (e.setArena e'.arena).setCommon e'.clock e.inevitable e.weakrefs
  clock : e'.clock = if (e.txn x).writes = #[] ∧ (e.txn x).created = #[] then e.clock
    else e.clock + 1
  good : e'.arena.Good
  room : ∀ r n, e'.Room r n ↔ e.Room r n
  word : ∀ r n i, e.Room r n → i < n →
    e'.wordAt r i = stampedWith e'.clock (e.txn x).created.toList r i
      (publishedWith e'.clock (e.txn x).writes.toList r i (e.wordAt r i))
  memory_size : e'.arena.memory.size = e.arena.memory.size
  mallocs : e'.arena.mallocs = e.arena.mallocs
  frees : e'.arena.frees = e.arena.frees

theorem publishAll_spec (ok : e.Core) (hx : e.Active x) :
    ∃ version e', publishAll x e = .ok version e' ∧
    Publishes x e e' := by
  have own := ok.txns x hx
  by_cases none : (e.txn x).writes = #[] ∧ (e.txn x).created = #[]
  · refine ⟨e.clock, e, ?_, ?_⟩
    · rw [publishAll, get_bind, get_bind, get_bind, if_pos (by rw [none.1, none.2]; rfl)]
      rfl
    · exact
        { tables := rfl
          clock := by rw [if_pos none]
          good := ok.heap.good
          room := fun _ _ => .rfl
          word := fun r n i _ _ => by simp [none.1, none.2, stampedWith, publishedWith]
          memory_size := rfl
          mallocs := rfl
          frees := rfl }
  · obtain ⟨e1, published, first⟩ := publish_spec ok.heap.good (e.clock + 1)
      fun r c hr => (own.writes r c (Array.mem_toList_iff.1 hr)).2
    obtain ⟨e2, stamped, second⟩ := stamp_spec first.good (e.clock + 1)
      fun r (hr : r ∈ (e.txn x).created.toList) => by
        obtain ⟨n, hn⟩ := own.created r (Array.mem_toList_iff.1 hr)
        exact ⟨n, (first.room r n).2 hn⟩
    have both := first.trans second
    refine ⟨e.clock + 1, e2.setCommon (e.clock + 1) e2.inevitable e2.weakrefs, ?_, ?_⟩
    · rw [publishAll, get_bind, get_bind, get_bind, if_neg (by simpa using none), bind_ok published,
        bind_ok stamped]
      rfl
    · refine { both with tables := ?_, clock := by rw [if_neg none]; rfl }
      obtain ⟨tables, a⟩ := e2
      obtain rfl := both.tables
      rfl

structure Engine.Unlists (x : TxnId) (e e' : Engine) : Prop where
  settings : e'.settings = e.settings
  layout : e'.layout = e.layout
  prebuilt : e'.prebuilt = e.prebuilt
  locked : e'.locked = e.locked
  threads : e'.threads = e.threads
  txns : e'.txns = e.txns
  segments : e'.segments = e.segments.modify (e.txn x).segment fun s => { s with weakrefs := #[] }

theorem Engine.Unlists.sheds (h : Unlists x e e1) (ok : e.Core) (hx : e.Active x)
    (empty : (e.segment (e.txn x).segment).used = 0)
    (size : e1.arena.memory.size = e.arena.memory.size)
    (others : ∀ y, e1.inevitable = some y ↔ e.inevitable = some y ∧ y ≠ x) :
    Sheds x e (e1.setThread (e.txn x).thread fun th =>
      { th with onAbort := .empty, onCommit := .empty }) := by
  have thread1 : ∀ u, e1.thread u = e.thread u := fun u => by rw [thread, thread, h.threads]
  have txn1 : ∀ y, e1.txn y = e.txn y := fun y => by rw [txn, txn, h.txns]
  have segment1 : ∀ k, e1.segment k =
      (e.setSegment (e.txn x).segment fun s => { s with weakrefs := #[] }).segment k := fun k => by
    rw [segment, h.segments]
    rfl
  have own_segment : e1.segment (e.txn x).segment =
      { e.segment (e.txn x).segment with weakrefs := #[] } := by
    rw [segment1, segment_setSegment, if_pos ⟨rfl, segment_lt ok hx⟩]
  have own_thread : (e1.setThread (e.txn x).thread fun th =>
      { th with onAbort := .empty, onCommit := .empty }).thread (e.txn x).thread =
      { e.thread (e.txn x).thread with onAbort := .empty, onCommit := .empty } := by
    rw [thread_setThread, if_pos ⟨rfl, by rw [h.threads]; exact thread_lt ok hx⟩, thread1]
  have nursery := (ok.txns x hx).nursery
  exact
    { settings := by rw [setThread_settings, h.settings]
      layout := by rw [setThread_layout, h.layout]
      prebuilt := by rw [setThread_prebuilt, h.prebuilt]
      threads_size := by rw [setThread_threads, Array.size_modify, h.threads]
      txns_size := by rw [setThread_txns, h.txns]
      segments_size := by rw [setThread_segments, h.segments, Array.size_modify]
      memory_size := size
      inevitable := others
      thread := fun u hu => by rw [thread_setThread, if_neg fun h => hu h.1.symm, thread1]
      own_thread := by rw [own_thread]; exact ⟨rfl, rfl, rfl, rfl⟩
      txn := fun y _ => by rw [txn_setThread, txn1]
      own := by rw [txn_setThread, txn1]
      segment := fun k hk => by
        rw [segment_setThread, segment1, segment_setSegment, if_neg fun h => hk h.1.symm]
        exact .refl _
      own_used := by rwa [segment_setThread, own_segment]
      own_objects := by
        rw [segment_setThread, own_segment, Array.eq_empty_iff_forall_not_mem]
        intro o ho
        have inside := (nursery.object o ho).2
        rw [empty] at inside
        exact absurd inside (Nat.not_lt_zero _)
      own_weakrefs := by rw [segment_setThread, own_segment]
      own_nursery := by
        rw [segment_setThread, own_segment]
        refine ⟨rfl, fun i => nursery.rest i ?_⟩
        rw [empty]
        exact Nat.zero_le i }

theorem Engine.Publishes.commits {b : Engine} (h : Publishes x e e1) (ok : e.Core) (hx : e.Active x)
    (leaves : Leaves x .committed e b) (empty : (e.segment (e.txn x).segment).used = 0)
    (alone : ∀ y, e.inevitable = some y → y = x) (arena : b.arena = e1.arena)
    (clock : b.clock = e1.clock)
    (weakrefs : b.weakrefs = addWeakrefs e.weakrefs (e.segment (e.txn x).segment).weakrefs.toList)
    (stack : (b.thread (e.txn x).thread).stack = (e.thread (e.txn x).thread).stack) :
    Commits x e b := by
  have own := ok.txns x hx
  have word : ∀ r i, b.wordAt r i = e1.wordAt r i := fun r i => by rw [wordAt, wordAt, arena]
  have keys := own.keys
  have apart : ∀ r c, (r, c) ∈ (e.txn x).writes → r ∉ (e.txn x).created := by
    intro r c hr hc
    obtain ⟨⟨v, hv⟩, -⟩ := own.writes r c hr
    exact (own.reads r v hv).1.2 ⟨x, hc⟩
  exact
    { leaves, empty, alone, weakrefs, stack
      active := hx
      clock := by rw [clock, h.clock]
      good := by rw [arena]; exact h.good
      room := fun r n => by rw [Room, arena]; exact h.room r n
      stamped := fun r hr => by
        have allocated : e.Allocated r := by
          obtain ⟨c, hc⟩ | hr := hr
          · obtain ⟨-, -, n, hn, -⟩ := own.writes r c hc
            exact ⟨n, hn⟩
          · exact own.created r hr
        obtain ⟨n, hn⟩ := allocated
        have bounds := room_bounds ok.heap.good hn
        rw [word, h.word r n 0 hn (by omega), clock, stampedWith]
        split
        · rfl
        · next absent =>
          obtain ⟨c, hc⟩ | hr := hr
          · rw [publishedWith_mem keys (Array.mem_toList_iff.2 hc), publishedWord, if_pos rfl]
          · exact absurd ⟨Array.mem_toList_iff.2 hr, rfl⟩ absent
      copied := fun r c n i hc hn pos hi => by
        rw [word, h.word r n i hn hi, stampedWith, if_neg fun h => absurd h.2 (by omega),
          publishedWith_mem keys (Array.mem_toList_iff.2 hc), publishedWord, if_neg (by omega)]
      made := fun r n i hr hn pos hi => by
        rw [word, h.word r n i hn hi, stampedWith, if_neg fun h => absurd h.2 (by omega),
          publishedWith_absent fun c hc => apart r c (Array.mem_toList_iff.1 hc) hr]
      kept := fun r n i hw hc hn hi => by
        rw [word, h.word r n i hn hi, stampedWith, if_neg fun h => hc (Array.mem_toList_iff.1 h.1),
          publishedWith_absent fun c h => hw c (Array.mem_toList_iff.1 h)]
      mallocs := by rw [arena]; exact h.mallocs
      frees := by rw [arena]; exact h.frees }

def Engine.committing (e : Engine) (x : TxnId) : Counters :=
  if (e.txn x).phase = .inevitable then
    { e.counters with
      commits := e.counters.commits + 1
      inevitableCommits := e.counters.inevitableCommits + 1 }
  else { e.counters with commits := e.counters.commits + 1 }

theorem settleCommit_spec (ok : e.Core) (hx : e.Active x)
    (empty : (e.segment (e.txn x).segment).used = 0) (alone : ∀ y, e.inevitable = some y → y = x) :
    ∃ done e', settleCommit x e = .ok done e' ∧ e'.locked = e.locked ∧
    e'.counters = e.committing x ∧
      Commits x e e' := by
  obtain ⟨version, e1, published, publishes⟩ := publishAll_spec ok hx
  obtain ⟨a, c, rfl⟩ : ∃ a c, e1 = (e.setArena a).setCommon c e.inevitable e.weakrefs :=
    ⟨_, _, publishes.tables⟩
  have finished : ∀ e2 : Engine, Unlists x e e2 → e2.arena = a → e2.clock = c →
      e2.weakrefs = addWeakrefs e.weakrefs (e.segment (e.txn x).segment).weakrefs.toList →
      (∀ y, e2.inevitable = some y ↔ e.inevitable = some y ∧ y ≠ x) → e2.counters = e.committing x →
      ∀ g : Unit → EngineM Committed, (∀ b, ∃ done, g () b = .ok done b) →
      ∃ done b, (finish x .committed >>= g) (e2.setThread (e.txn x).thread fun th =>
        { th with onAbort := .empty, onCommit := .empty }) = .ok done b ∧ b.locked = e.locked ∧
          b.counters = e.committing x ∧ Commits x e b := by
    intro e2 unlists arena clock weakrefs others counters g hg
    have sheds := unlists.sheds ok hx empty (by rw [arena]; exact publishes.memory_size) others
    obtain ⟨b, run, leaves, arena', clock', weakrefs', locked, counters', stack⟩ :=
      finish_spec ok hx sheds .committed
    obtain ⟨done, last⟩ := hg b
    refine ⟨done, b, by rw [bind_ok run, last], locked.trans unlists.locked,
      counters'.trans counters,
      publishes.commits ok hx leaves empty alone (arena'.trans arena) (clock'.trans clock)
        (weakrefs'.trans weakrefs) ?_⟩
    have same : e2.thread (e.txn x).thread = e.thread (e.txn x).thread := by
      rw [thread, thread, unlists.threads]
    rw [stack, thread_setThread]
    split
    · rw [← same]
    · rw [← same]
  have listed : ∀ (e : Engine) ws,
      (modify fun e : Engine => { e with weakrefs := addWeakrefs e.weakrefs ws } : EngineM Unit) e =
        .ok () (e.setCommon e.clock e.inevitable (addWeakrefs e.weakrefs ws)) := fun _ _ => rfl
  rw [settleCommit, get_bind, get_bind, bind_ok published, get_bind, bind_ok (listed _ _),
    bind_ok (updateSegment_run ..), get_bind, segment_setCommon, segment_setArena]
  dsimp only
  split
  · next inevitable =>
    have released : ∀ e : Engine,
        (modify fun e : Engine =>
          { e with inevitable := none }.wakeAll .inevitableDone : EngineM Unit) e =
          .ok () ((e.setCommon e.clock none e.weakrefs).setAsleep
            (List.filter fun p => p.2 != .inevitableDone)) := fun _ => rfl
    rw [bind_ok (released _), bind_ok (updateCounters_run ..),
      bind_ok (updateCounters_run ..), get_bind,
      bind_ok (clearTables_run ..), get_bind, get_bind, get_bind]
    refine finished _ ?_ ?_ ?_ ?_ (fun y => ?_) ?_ _ fun b => ?_
    · constructor <;> simp
    · simp
    · simp
    · simp
    · simp only [setCounters_inevitable, setAsleep_inevitable, setCommon_inevitable]
      constructor
      · exact fun h => absurd h.symm (Option.some_ne_none y)
      · exact fun h => absurd (alone y h.1) h.2
    · rw [committing, if_pos (by simpa using inevitable)]
      rfl
    · exact ⟨_, rfl⟩
  · next running =>
    rw [bind_ok (updateCounters_run ..), get_bind, bind_ok (clearTables_run ..), get_bind,
      get_bind, get_bind]
    refine finished _ ?_ ?_ ?_ ?_ (fun y => ?_) ?_ _ fun b => ?_
    · constructor <;> simp
    · simp
    · simp
    · simp
    · simp only [setCounters_inevitable, setSegment_inevitable, setCommon_inevitable]
      refine ⟨fun h => ⟨h, fun heq => running ?_⟩, fun h => h.1⟩
      simp [(ok.life.inevitable x).1 (heq ▸ h)]
    · rw [committing, if_neg (by simpa using running)]
      rfl
    · exact ⟨_, rfl⟩

end TxHeap
