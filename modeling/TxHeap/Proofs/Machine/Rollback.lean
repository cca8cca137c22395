import TxHeap.Proofs.Machine.History

/-! A transaction that aborts leaves no trace: its steps change nothing that others can see, what
they allocate is recorded, and the abort frees all of it and puts the thread back. -/

namespace TxHeap
namespace Engine

/-- A step of `x` that changes nothing but what the transaction created itself. -/
structure Discreet (x : TxnId) (e e' : Engine) : Prop where
  clock : e'.clock = e.clock
  weakrefs : e'.weakrefs = e.weakrefs
  prebuilt : e'.prebuilt = e.prebuilt
  room : ∀ r n, e.Room r n → r ∉ (e.txn x).created → e'.Room r n
  word : ∀ r n i, e.Room r n → r ∉ (e.txn x).created → i < n → e'.wordAt r i = e.wordAt r i

/-- A step of `x` that frees nothing and records what it allocates. -/
structure Grows (x : TxnId) (e e' : Engine) : Prop where
  room : ∀ r n, e.Room r n → e'.Room r n
  created : ∀ r, r ∈ (e'.txn x).created ↔ r ∈ (e.txn x).created ∨ ¬ e.Allocated r ∧ e'.Allocated r
  mallocs : e'.arena.mallocs + UInt64.ofNat (e.txn x).created.size = e.arena.mallocs + UInt64.ofNat
    (e'.txn x).created.size
  frees : e'.arena.frees = e.arena.frees

/-- The transaction `x` is undone: what it created is freed once and nothing else is, its thread has
neither transaction nor callbacks, and its segment is free and empty. -/
structure Rollback (x : TxnId) (e e' : Engine) : Prop where
  distinct : (e.txn x).created.toList.Nodup
  allocated : ∀ r ∈ (e.txn x).created, e.Allocated r
  room : ∀ r n, e'.Room r n ↔ e.Room r n ∧ r ∉ (e.txn x).created
  frees : e'.arena.frees = e.arena.frees + UInt64.ofNat (e.txn x).created.size
  mallocs : e'.arena.mallocs = e.arena.mallocs
  thread : (e'.thread (e.txn x).thread).txn = none ∧ (e'.thread (e.txn x).thread).onAbort = .empty ∧
    (e'.thread (e.txn x).thread).onCommit = .empty
  owner : (e'.segment (e.txn x).segment).owner = none
  weakrefs : (e'.segment (e.txn x).segment).weakrefs = #[]
  emptied : (e'.segment (e.txn x).segment).used = 0 ∧ (e'.segment (e.txn x).segment).objects = #[]
  zeroed : ∀ i, (e'.segment (e.txn x).segment).nursery.word i = 0

variable {who : Actor} {e e' m : Engine} {x : TxnId} {r : Ref}

theorem Works.discreet (h : Works x e e') : Discreet x e e' :=
  ⟨h.steady.clock, h.steady.weakrefs, h.steady.prebuilt, fun r n hr _ => h.room r n hr, h.word⟩

theorem Works.not_created {n : Nat} (h : Works x e e') (room : e.Room r n)
    (old : r ∉ (e.txn x).created) :
    r ∉ (e'.txn x).created := fun hr => (h.fresh r hr).elim old fun new => new ⟨n, room⟩

theorem Works.grows (h : Works x e e') (ok : e'.Core) (hx : e'.Active x) : Grows x e e' := by
  refine { h with created := fun r => ⟨fun hr => ?_, ?_⟩ }
  · exact (h.fresh r hr).imp id fun new => ⟨new, (ok.txns x hx).created r hr⟩
  · rintro (hr | ⟨new, n, room⟩)
    · exact h.created r hr
    · exact (h.new r n room).resolve_left fun old => new ⟨n, old⟩

theorem Aborts.rollback (h : Aborts x e e') (ok : e.Core) : Rollback x e e' where
  distinct := (ok.txns x h.active).nodup
  allocated := (ok.txns x h.active).created
  room := h.room
  frees := h.frees
  mallocs := h.mallocs
  thread := ⟨h.leaves.own_thread.1, h.leaves.own_thread.2.2.2⟩
  owner := h.leaves.own_owner
  weakrefs := h.leaves.own_weakrefs
  emptied := ⟨h.leaves.own_used, h.leaves.own_objects⟩
  zeroed := h.leaves.own_nursery.2

theorem discreet_of_arena (clock : e'.clock = e.clock) (weakrefs : e'.weakrefs = e.weakrefs)
    (prebuilt : e'.prebuilt = e.prebuilt) (arena : e'.arena = e.arena) : Discreet x e e' :=
  ⟨clock, weakrefs, prebuilt, fun r n hr _ => (room_congr arena r n).2 hr,
    fun r n i _ _ _ => by rw [wordAt, wordAt, arena]⟩

theorem Runs.eq_of_txn {y : TxnId} (h : e.Runs who y) (mine : who.txn = some x) : y = x :=
  Option.some.inj (h.txn.symm.trans mine)

theorem Deed.discreet (h : Deed who e e') (mine : who.txn = some x) (hx : e.Active x)
    (uncommitted : (e'.txn x).phase ≠ .committed) : Discreet x e e' := by
  cases h with
  | nothing h | promote y runs h | begin t y k _ h | idle t _ h =>
    exact discreet_of_arena h.clock h.weakrefs h.prebuilt h.arena
  | work y runs h =>
    obtain rfl := runs.eq_of_txn mine
    exact h.discreet
  | abort y m runs works core h =>
    obtain rfl := runs.eq_of_txn mine
    have first := works.discreet
    have room : ∀ r n, e.Room r n → r ∉ (e.txn y).created → e'.Room r n := fun r n hr hc =>
      (h.room r n).2 ⟨works.room r n hr, works.not_created hr hc⟩
    exact ⟨h.clock.trans first.clock, h.weakrefs.trans first.weakrefs,
      h.leaves.prebuilt.trans first.prebuilt, room,
      fun r n i hr hc hi => (h.word r n i (room r n hr hc) hi).trans (works.word r n i hr hc hi)⟩
  | commit y m b runs minor valid h after =>
    obtain rfl := runs.eq_of_txn mine
    rw [after.phase, h.leaves.own.1] at uncommitted
    exact absurd rfl uncommitted
  | prebuild r n outside =>
    rw [outside] at mine
    cases mine
  | collect past =>
    rw [Active, past x mine] at hx
    cases hx

theorem grows_of_arena (arena : e'.arena = e.arena)
    (created : (e'.txn x).created = (e.txn x).created) : Grows x e e' where
  room r n hr := (room_congr arena r n).2 hr
  created r := by
    have same : e'.Allocated r ↔ e.Allocated r := exists_congr fun n => room_congr arena r n
    rw [created, same]
    exact ⟨.inl, fun h => h.resolve_right fun new => new.1 new.2⟩
  mallocs := by rw [arena, created]
  frees := by rw [arena]

theorem Deed.grows (h : Deed who e e') (mine : who.txn = some x) (ok : e.Core) (ok' : e'.Core)
    (hx : e.Active x) (hx' : e'.Active x) : Grows x e e' := by
  cases h with
  | nothing h => exact grows_of_arena h.arena (by rw [h.txn])
  | work y runs h =>
    obtain rfl := runs.eq_of_txn mine
    exact h.grows ok' hx'
  | abort y m runs works core h =>
    obtain rfl := runs.eq_of_txn mine
    exact absurd rfl ((h.leaves.active rfl y).1 hx').2
  | commit y m b runs minor valid h after =>
    obtain rfl := runs.eq_of_txn mine
    rw [Active, after.phase, h.leaves.own.1] at hx'
    cases hx'
  | promote y runs h => exact grows_of_arena h.arena (h.created x).1
  | begin t y k _ h => exact grows_of_arena h.arena (h.created ok.life x)
  | idle t _ h => exact grows_of_arena h.arena (by rw [h.sameTxn])
  | prebuild r n outside =>
    rw [outside] at mine
    cases mine
  | collect past =>
    rw [Active, past x mine] at hx
    cases hx

theorem Deed.created_elsewhere (h : Deed who e e') (other : who.txn ≠ some x) (ok : e.Core) :
    (e'.txn x).created = (e.txn x).created := by
  have apart : ∀ {y}, e.Runs who y → x ≠ y := fun runs heq => other (heq ▸ runs.txn)
  cases h with
  | nothing h => rw [h.txn]
  | work y runs h => rw [h.txn x (apart runs)]
  | abort y m runs works core h => rw [h.leaves.txn x (apart runs), works.txn x (apart runs)]
  | commit y m b runs minor valid h after =>
    rw [((after.elsewhere 0).2 x).created, h.leaves.txn x (apart runs),
      minor.serves.works.txn x (apart runs)]
  | promote y runs h => exact (h.created x).1
  | begin t y k _ h => exact h.created ok.life x
  | idle t _ h | prebuild r n outside h => rw [h.sameTxn]
  | collect past h => exact (h.txn x).created

theorem Deed.aborts (h : Deed who e e') (hx : e.Active x) (aborted : (e'.txn x).phase = .aborted) :
    ∃ m, e.Runs who x ∧ Works x e m ∧ m.Core ∧ Aborts x m e' := by
  cases h.turn x with
  | same phase =>
    rw [Active, phase.symm.trans aborted] at hx
    cases hx
  | begins t k h => exact absurd hx h.unknown
  | promotes runs h =>
    obtain ⟨reason, own⟩ := h.own
    rw [own] at aborted
    cases aborted
  | commits m b runs minor valid h after =>
    rw [after.phase, h.leaves.own.1] at aborted
    cases aborted
  | aborts m runs works core h => exact ⟨m, runs, works, core, h⟩

section Stretch
variable {a b : Engine} (before : Alike e a) (after : Alike b e')
include before after

theorem Discreet.alike (h : Discreet x a b) : Discreet x e e' := by
  refine ⟨?_, ?_, ?_, fun r n hr hc => ?_, fun r n i hr hc hi => ?_⟩
  · rw [after.clock, h.clock, before.clock]
  · rw [after.weakrefs, h.weakrefs, before.weakrefs]
  · rw [after.prebuilt, h.prebuilt, before.prebuilt]
  · exact (after.room r n).2 (h.room r n ((before.room r n).2 hr) (by rwa [before.txn]))
  · rw [after.wordAt, h.word r n i ((before.room r n).2 hr) (by rwa [before.txn]) hi, before.wordAt]

theorem Grows.alike (h : Grows x a b) : Grows x e e' := by
  refine ⟨fun r n hr => ?_, fun r => ?_, ?_, ?_⟩
  · exact (after.room r n).2 (h.room r n ((before.room r n).2 hr))
  · rw [after.txn, ← before.txn, after.allocated, ← before.allocated]
    exact h.created r
  · rw [after.arena, after.txn, ← before.arena, ← before.txn]
    exact h.mallocs
  · rw [after.arena, ← before.arena]
    exact h.frees

end Stretch

theorem Rollback.alike (h : Rollback x e m) (after : Alike m e') : Rollback x e e' := by
  have segment := after.segment (e.txn x).segment
  refine ⟨h.distinct, h.allocated, fun r n => ?_, ?_, ?_, ?_, ?_, ?_, ?_, fun i => ?_⟩
  · rw [after.room]
    exact h.room r n
  · rw [after.arena]
    exact h.frees
  · rw [after.arena]
    exact h.mallocs
  · rw [after.thread]
    exact h.thread
  · rw [segment.owner]
    exact h.owner
  · rw [segment.weakrefs]
    exact h.weakrefs
  · rw [segment.used, segment.objects]
    exact h.emptied
  · rw [segment.nursery]
    exact h.zeroed i

theorem Stretch.discreet (h : Stretch who e e') (mine : who.txn = some x) (hx : e.Active x)
    (uncommitted : (e'.txn x).phase ≠ .committed) : Discreet x e e' := by
  obtain ⟨a, b, before, deed, after⟩ := h.deed
  exact (deed.discreet mine (before.active.2 hx) (by rwa [← after.txn])).alike before after

theorem Stretch.grows (h : Stretch who e e') (mine : who.txn = some x) (ok : e.Core) (ok' : e'.Core)
    (hx : e.Active x) (hx' : e'.Active x) : Grows x e e' := by
  obtain ⟨a, b, before, deed, after⟩ := h.deed
  exact (deed.grows mine (ok.alike before) (ok'.alike after.symm) (before.active.2 hx)
    (after.active.1 hx')).alike before after

theorem Stretch.created_elsewhere (h : Stretch who e e') (other : who.txn ≠ some x) (ok : e.Core) :
    (e'.txn x).created = (e.txn x).created := by
  obtain ⟨a, b, before, deed, after⟩ := h.deed
  rw [after.txn, deed.created_elsewhere other (ok.alike before), before.txn]

theorem Stretch.aborts (h : Stretch who e e') (hx : e.Active x)
    (aborted : (e'.txn x).phase = .aborted) :
    who.txn = some x ∧ ∃ m, Discreet x e m ∧ Grows x e m ∧ Rollback x m e' ∧
      (m.txn x).thread = (e.txn x).thread ∧ (m.txn x).segment = (e.txn x).segment ∧
      (e'.thread (e.txn x).thread).stack = (e.txn x).stackAtBegin := by
  obtain ⟨a, b, before, deed, after⟩ := h.deed
  obtain ⟨m, runs, works, core, aborts⟩ :=
    deed.aborts (before.active.2 hx) (by rw [← after.txn, aborted])
  have works := before.works.trans works
  refine ⟨runs.txn, m, works.discreet, works.grows core aborts.active,
    (aborts.rollback core).alike after,
    works.own.thread, works.own.segment, ?_⟩
  rw [after.thread, ← works.own.thread, aborts.stack, works.own.stackAtBegin]

end Engine

open Engine

/-- A transaction that aborts leaves no trace. From its first step on, its steps change nothing but
what it created, which is exactly what they allocate. The abort frees each of these once and no
other, gives the thread the stack with which it began, and leaves the segment free. -/
theorem abort_leaves_no_trace {N n : Nat} {ρ : Nat → Machine} {move : Nat → Move} {x : TxnId}
    (run : Run N ρ move) (hn : n < N) (active : (ρ n).engine.Active x)
    (aborted : ((ρ (n + 1)).engine.txn x).phase = .aborted) :
    ∃ b < n, (x = (ρ b).engine.txns.size ∧ ((ρ (b + 1)).engine.txn x).created = #[]) ∧
      (∀ j, b < j → j ≤ n → ((ρ j).mover (move j)).txn = some x →
        Discreet x (ρ j).engine (ρ (j + 1)).engine) ∧
      (∀ j, b < j → j < n → ((ρ j).mover (move j)).txn = some x →
        Grows x (ρ j).engine (ρ (j + 1)).engine) ∧
      (∀ j, b < j → j < n → ((ρ j).mover (move j)).txn ≠ some x →
        ((ρ (j + 1)).engine.txn x).created = ((ρ j).engine.txn x).created) ∧
      ((ρ n).mover (move n)).txn = some x ∧
      (∃ mid, Discreet x (ρ n).engine mid ∧ Grows x (ρ n).engine mid ∧
        Rollback x mid (ρ (n + 1)).engine ∧
        (mid.txn x).thread = ((ρ n).engine.txn x).thread ∧
        (mid.txn x).segment = ((ρ n).engine.txn x).segment) ∧
      ((ρ (n + 1)).engine.thread ((ρ n).engine.txn x).thread).stack =
        ((ρ b).engine.thread ((ρ n).engine.txn x).thread).stack := by
  obtain ⟨b, hb, fresh, begun⟩ := run.begun hn.le active
  have unknown : ¬ (ρ b).engine.Active x := fun h => Nat.lt_irrefl _ (fresh ▸ active_lt h)
  obtain ⟨-, created, start⟩ := (run.stretch (hb.trans hn)).begins unknown begun
  obtain ⟨thread, kept⟩ := run.stackAtBegin_kept hb hn.le begun active
  have here : ∀ {j}, b < j → j ≤ n → (ρ j).engine.Active x := fun {j} hbj hjn =>
    run.active_before hjn hn.le
      (Nat.lt_of_lt_of_le (active_lt begun) (run.ages hbj (hjn.trans hn.le)).txns_size) active
  obtain ⟨mine, mid, discreet, grows, rollback, sameThread, sameSegment, stack⟩ :=
    (run.stretch hn).aborts active aborted
  refine ⟨b, hb, ⟨fresh, created⟩, fun j hbj hjn own => ?_, fun j hbj hjn own => ?_,
    fun j _ hjn other => ?_, mine,
    ⟨mid, discreet, grows, rollback, sameThread, sameSegment⟩, ?_⟩
  · refine (run.stretch (Nat.lt_of_le_of_lt hjn hn)).discreet own (here hbj hjn) fun committed => ?_
    obtain rfl | hlt := Nat.eq_or_lt_of_le hjn
    · rw [aborted] at committed
      cases committed
    · have later := here (Nat.lt_succ_of_lt hbj) hlt
      rw [Active, committed] at later
      cases later
  · have hj := hjn.trans hn
    exact (run.stretch hj).grows own (run.core hj.le) (run.core hj) (here hbj hjn.le)
      (here (Nat.lt_succ_of_lt hbj) hjn)
  · have hj := hjn.trans hn
    exact (run.stretch hj).created_elsewhere other (run.core hj.le)
  · rw [stack, kept, start, thread]

def overtaken : List Move :=
  [.start (.allocPrebuilt 16 [(1, 7)]), .start .register, .start .register, .start (.begin 0),
    .start (.begin 1), .start (.alloc 1 72), .start (.push 1 ⟨48⟩), .start (.store 0 ⟨16⟩ 1 9),
    .start (.commit 0), .start (.load 1 ⟨16⟩ 1)]

theorem abort_leaves_no_trace_overtaken :
    ∃ ρ move, Run 10 ρ move ∧ ((ρ 9).engine.txn 1).created = #[⟨48⟩] ∧
    ((ρ 9).engine.thread 1).stack = #[⟨48⟩] ∧ ((ρ 10).engine.thread 1).stack = #[] ∧
    ∃ mid, Grows 1 (ρ 9).engine mid ∧ Rollback 1 mid (ρ 10).engine := by
  have run :=
    run_plays overtaken small_unused.new small_honest (by decide +kernel) (by decide)
  obtain ⟨b, hb, -, -, -, -, -, ⟨mid, -, grows, rollback, -⟩, -⟩ :=
    abort_leaves_no_trace run (n := 9) (x := 1) (by decide) (by decide +kernel) (by decide +kernel)
  exact ⟨_, _, run, by decide +kernel, by decide +kernel, by decide +kernel, mid, grows, rollback⟩

end TxHeap
