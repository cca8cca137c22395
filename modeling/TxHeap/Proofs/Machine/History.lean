import TxHeap.Proofs.Machine.Run

/-! What is known of a whole run: the clock and versions only grow, an object whose version has not
changed has not been written, and a transaction keeps what it read. -/

namespace TxHeap.Engine

/-- The object at `r` stays as it is, but for the target of a weak reference. -/
structure Stays (e e' : Engine) (r : Ref) : Prop where
  shared : e'.Shared r
  room : ∀ n, e.Room r n → e'.Room r n
  word : ∀ n i, e.Room r n → i < n → e'.wordAt r i = e.wordAt r i ∨
    0 < i ∧ e'.wordAt r i = 0 ∧ e.TargetAt r i

structure Same (e e' : Engine) (r : Ref) : Prop where
  shared : e'.Shared r
  layout : e'.layout = e.layout
  room : ∀ n, e.Room r n → e'.Room r n
  word : ∀ n i, e.Room r n → i < n → e'.wordAt r i = e.wordAt r i
  weak : r ∈ e'.weakrefs → r ∈ e.weakrefs

inductive Fate (e e' : Engine) (r : Ref) : Prop
  | stays (h : Stays e e' r)
  | written (shared : e'.Shared r) (version : e'.version r = e'.clock) (later : e.clock < e'.clock)
  | gone (h : ¬ e'.Allocated r)

inductive Origin (e e' : Engine) (r : Ref) : Prop
  | committed (version : e'.version r = e'.clock) (later : e.clock < e'.clock)
  | prebuilt (h : e'.prebuilt = e.prebuilt.push r) (header : e'.wordAt r 0 = 0)

variable {e e' m : Engine} {r : Ref} {x : TxnId} {who : Actor}

namespace Same

theorem target {i : Nat} (h : Same e m r) (ok : e.Core) (good : m.arena.Good) (shared : e.Shared r)
    (target : m.TargetAt r i) : e.TargetAt r i := by
  obtain ⟨weak, s, object, last⟩ := target
  obtain ⟨n, room⟩ := shared.1
  exact ⟨h.weak weak, s, oldObject_congr ok.heap.good good room (h.room n room) h.layout ok.honest
    (fun i => h.word n i room) object, last⟩

theorem stays (h : Same e e' r) : Stays e e' r :=
  ⟨h.shared, h.room, fun n i hr hi => .inl (h.word n i hr hi)⟩

theorem trans (h : Same e m r) (h' : Same m e' r) : Same e e' r where
  shared := h'.shared
  layout := h'.layout.trans h.layout
  room n hr := h'.room n (h.room n hr)
  word n i hr hi := (h'.word n i (h.room n hr) hi).trans (h.word n i hr hi)
  weak hw := h.weak (h'.weak hw)

theorem fate (h : Same e m r) (ok : e.Core) (good : m.arena.Good) (shared : e.Shared r)
    (clock : m.clock < e'.clock → e.clock < e'.clock) (fate : Fate m e' r) : Fate e e' r := by
  cases fate with
  | stays stays =>
    refine .stays ⟨stays.shared, fun n hr => stays.room n (h.room n hr), fun n i hr hi => ?_⟩
    obtain same | ⟨hpos, zero, target⟩ := stays.word n i (h.room n hr) hi
    · exact .inl (same.trans (h.word n i hr hi))
    · exact .inr ⟨hpos, zero, h.target ok good shared target⟩
  | written shared version later => exact .written shared version (clock later)
  | gone gone => exact .gone gone

end Same

theorem Stays.version (h : Stays e e' r) (good : e.arena.Good) (shared : e.Shared r) :
    e'.version r = e.version r := by
  obtain ⟨n, room⟩ := shared.1
  have bounds := room_bounds good room
  obtain same | ⟨hpos, -⟩ := h.word n 0 room (by omega)
  · rw [Engine.version, Engine.version, same]
  · exact absurd hpos (Nat.lt_irrefl 0)

theorem Alike.same (h : Alike e e') (shared : e.Shared r) : Same e e' r where
  shared := h.shared.2 shared
  layout := h.layout
  room n hr := (h.room r n).2 hr
  word n i _ _ := h.wordAt r i
  weak hw := by rw [h.weakrefs] at hw; exact hw

theorem Works.same (h : Works x e e') (shared : e.Shared r) : Same e e' r where
  shared := (h.shared r).2 shared
  layout := h.steady.layout
  room n hr := h.room r n hr
  word n i hr hi := h.shared_word shared hr hi
  weak hw := by rw [h.steady.weakrefs] at hw; exact hw

theorem Aborts.same (h : Aborts x e e') (shared : e.Shared r) : Same e e' r where
  shared := (h.shared r).2 shared
  layout := h.leaves.layout
  room n hr := (h.room r n).2 ⟨hr, fun hc => shared.2 ⟨x, hc⟩⟩
  word n i hr hi := h.word r n i ((h.room r n).2 ⟨hr, fun hc => shared.2 ⟨x, hc⟩⟩) hi
  weak hw := by rw [h.weakrefs] at hw; exact hw

theorem same_congr (arena : e'.arena = e.arena) (layout : e'.layout = e.layout)
    (weakrefs : e'.weakrefs = e.weakrefs)
    (created : ∀ y, (e'.txn y).created = (e.txn y).created) (shared : e.Shared r) :
    Same e e' r where
  shared := (shared_congr arena created r).2 shared
  layout := layout
  room n hr := (room_congr arena r n).2 hr
  word n i _ _ := by rw [wordAt, wordAt, arena]
  weak hw := by rw [weakrefs] at hw; exact hw

theorem Collects.fate (h : Collects e e') (ok : e.Core) (shared : e.Shared r) : Fate e e' r := by
  by_cases allocated : e'.Allocated r
  · obtain ⟨n, room⟩ := allocated
    refine .stays ⟨(h.shared r).2 ⟨shared, n, room⟩, fun k hk => ?_, fun k i hk hi => ?_⟩
    · rwa [room_unique ok.heap.good hk (h.room r n room)]
    · rw [room_unique ok.heap.good hk (h.room r n room)] at hi
      obtain same | ⟨hpos, zero, priv | target⟩ := h.word r n i room hi
      · exact .inl same
      · exact absurd priv shared.2
      · exact .inr ⟨hpos, zero, target⟩
  · exact .gone allocated

theorem Fate.alike {b : Engine} (h : Fate e b r) (after : Alike b e') : Fate e e' r := by
  cases h with
  | stays h =>
    exact .stays ⟨after.shared.2 h.shared, fun n hr => (after.room r n).2 (h.room n hr),
      fun n i hr hi => by
      rw [after.wordAt]
      exact h.word n i hr hi⟩
  | written shared version later =>
    exact .written (after.shared.2 shared) (by rw [after.version, version, after.clock])
      (by rwa [after.clock])
  | gone gone => exact .gone fun h => gone (after.allocated.1 h)

theorem Settles.fate (h : Settles e e') (ok : e.Core) (shared : e.Shared r) : Fate e e' r := by
  obtain alike | ⟨a, b, before, collects, after⟩ := h
  · exact .stays (alike.same shared).stays
  · have core := ok.alike before
    exact (before.same shared).fate ok core.heap.good shared (before.clock ▸ ·)
      ((collects.fate core (before.shared.2 shared)).alike after)

theorem Settles.shared (h : Settles e e') (shared : e'.Shared r) : e.Shared r := by
  obtain alike | ⟨a, b, before, collects, after⟩ := h
  · exact alike.shared.1 shared
  · exact before.shared.1 ((collects.shared r).1 (after.shared.1 shared)).1

section Commit
variable {b : Engine} (h : Commits x m b) (ok : m.Core) (small : b.clock.toNat < 2 ^ 63)
include h ok

theorem Commits.clock_lt (changed : (∃ c, (r, c) ∈ (m.txn x).writes) ∨ r ∈ (m.txn x).created) :
    m.clock < b.clock := by
  have bound := ok.heap.clock
  rw [h.clock, if_neg, UInt64.lt_iff_toNat_lt, UInt64.toNat_add]
  · simp only [UInt64.reduceToNat]
    omega
  · rintro ⟨writes, created⟩
    obtain ⟨c, hc⟩ | hr := changed
    · rw [writes] at hc
      exact absurd hc (Array.not_mem_empty _)
    · rw [created] at hr
      exact absurd hr (Array.not_mem_empty _)

theorem Commits.same (weak : m.WeakOk (m.txn x).segment) (shared : m.Shared r)
    (unwritten : ∀ c, (r, c) ∉ (m.txn x).writes) : Same m b r where
  shared := (h.shared ok r).2 (.inl shared)
  layout := h.leaves.layout
  room n hr := (h.room r n).2 hr
  word n i hr hi := h.kept r n i unwritten (fun hc => shared.2 ⟨x, hc⟩) hr hi
  weak hw := by
    rw [h.weakrefs, mem_addWeakrefs] at hw
    refine hw.resolve_right fun listed => ?_
    obtain ⟨t, y, -, -, created | young⟩ := weak r (Array.mem_toList_iff.1 listed)
    · exact shared.2 ⟨y, created⟩
    · obtain ⟨n, room⟩ := shared.1
      have old := Ref.isYoung_of_lt ((ok.room_lt room).trans (by decide))
      rw [young.1] at old
      cases old

include small

theorem Commits.fate (weak : m.WeakOk (m.txn x).segment) (core : b.Core) (shared : m.Shared r)
    (after : Settles b e') :
    Fate m e' r := by
  by_cases written : ∃ c, (r, c) ∈ (m.txn x).writes
  · have now := (h.shared ok r).2 (.inl shared)
    have later := h.clock_lt ok (.inl written)
    have version : b.version r = b.clock := by
      rw [version, h.stamped r (.inl written), versionOf_headerFor small]
    cases after.fate core now with
    | stays stays =>
      refine .written stays.shared ?_ (by rwa [after.clock])
      rw [stays.version core.heap.good now, version, after.clock]
    | written _ _ later => exact absurd (after.clock ▸ later) (UInt64.lt_irrefl _)
    | gone gone => exact .gone gone
  · have same := h.same ok weak shared (not_exists.1 written)
    exact same.fate ok core.heap.good shared
      (fun later => absurd (after.clock ▸ later) (UInt64.lt_irrefl _))
      (after.fate core same.shared)

theorem Commits.origin (core : b.Core) (after : Settles b e') (shared : e'.Shared r)
    (old : ¬ m.Shared r) :
    Origin m e' r := by
  have now := after.shared shared
  have created := ((h.shared ok r).1 now).resolve_left old
  have version : b.version r = b.clock := by
    rw [version, h.stamped r (.inr created), versionOf_headerFor small]
  refine .committed ?_ (by rw [after.clock]; exact h.clock_lt ok (.inr created))
  cases after.fate core now with
  | stays stays => rw [stays.version core.heap.good now, version, after.clock]
  | written _ version => exact version
  | gone gone => exact absurd shared.1 gone

end Commit

theorem Commits.small (h : Commits x e e') (ticks : e.clock.toNat + 1 < 2 ^ 63) :
    e'.clock.toNat < 2 ^ 63 := by
  obtain same | next := h.clock_cases
  · rw [same]
    omega
  · rw [next]
    exact (UInt64.toNat_add ..).trans_lt ((Nat.mod_le _ _).trans_lt ticks)

section Deed
variable (ok : e.Core) (ticks : e.clock.toNat + 1 < 2 ^ 63)
include ok ticks

theorem Deed.fate (h : Deed who e e') (shared : e.Shared r) : Fate e e' r := by
  cases h with
  | nothing h | work x mine h => exact .stays (h.same shared).stays
  | abort x m mine works core h =>
    exact .stays ((works.same shared).trans (h.same ((works.shared r).2 shared))).stays
  | commit x m b mine minor valid h after =>
    have works := minor.serves.works
    have core := minor.serves.core
    have small := h.small (by rwa [works.steady.clock])
    exact (works.same shared).fate ok core.heap.good shared (works.steady.clock ▸ ·)
      (h.fate core small (valid.weak _) (h.core core small (valid.weak _))
        ((works.shared r).2 shared) after)
  | promote x mine h =>
    exact .stays (same_congr h.arena h.layout h.weakrefs (fun y => (h.created y).1) shared).stays
  | begin t x k mine h =>
    exact .stays (same_congr h.arena h.layout h.weakrefs (h.created ok.life) shared).stays
  | idle t mine h =>
    exact .stays (same_congr h.arena h.layout h.weakrefs (fun y => by rw [h.sameTxn]) shared).stays
  | prebuild q n mine h =>
    exact .stays ⟨(h.shared ok r).2 (.inl shared), fun k hk => (h.room r k).2 (.inl hk),
      fun k i hk hi => .inl (h.word r k i hk hi)⟩
  | collect mine h => exact h.fate ok shared

theorem Deed.origin (h : Deed who e e') (shared : e'.Shared r) (old : ¬ e.Shared r) :
    Origin e e' r := by
  cases h with
  | nothing h => exact absurd (h.shared.1 shared) old
  | work x mine h | idle t mine h => exact absurd ((h.shared r).1 shared) old
  | abort x m mine works core h => exact absurd ((works.shared r).1 ((h.shared r).1 shared)) old
  | commit x m b mine minor valid h after =>
    have works := minor.serves.works
    have core := minor.serves.core
    have small := h.small (by rwa [works.steady.clock])
    cases h.origin core small (h.core core small (valid.weak _)) after shared fun hr =>
      old ((works.shared r).1 hr) with
    | committed version later => exact .committed version (works.steady.clock ▸ later)
    | prebuilt h header => exact .prebuilt (by rw [h, works.steady.prebuilt]) header
  | promote x mine h =>
    exact absurd ((shared_congr h.arena (fun y => (h.created y).1) r).1 shared) old
  | begin t x k mine h => exact absurd ((shared_congr h.arena (h.created ok.life) r).1 shared) old
  | prebuild q n mine h =>
    obtain hr | rfl := (h.shared ok r).1 shared
    · exact absurd hr old
    · exact .prebuilt h.prebuilt h.header
  | collect mine h => exact absurd ((h.shared r).1 shared).1 old

theorem Stretch.fate (h : Stretch who e e') (shared : e.Shared r) : Fate e e' r := by
  obtain ⟨a, b, before, deed, after⟩ := h.deed
  have core := ok.alike before
  exact (before.same shared).fate ok core.heap.good shared (before.clock ▸ ·)
    ((deed.fate core (by rwa [before.clock]) (before.shared.2 shared)).alike after)

theorem Stretch.origin (h : Stretch who e e') (shared : e'.Shared r) (old : ¬ e.Shared r) :
    Origin e e' r := by
  obtain ⟨a, b, before, deed, after⟩ := h.deed
  cases deed.origin (ok.alike before) (by rwa [before.clock]) (after.shared.1 shared)
      fun hr => old (before.shared.1 hr) with
  | committed version later =>
    exact .committed (by rw [after.version, version, after.clock])
      (by rwa [after.clock, ← before.clock])
  | prebuilt h header =>
    exact .prebuilt (by rw [after.prebuilt, h, before.prebuilt]) (by rw [after.wordAt, header])

end Deed
end TxHeap.Engine

namespace TxHeap
namespace Engine

/-- What becomes of the transaction `x`: it begins, becomes inevitable, commits or aborts, or goes
on in its phase. -/
inductive Turn (who : Actor) (x : TxnId) (e e' : Engine) : Prop
  | same (phase : (e'.txn x).phase = (e.txn x).phase)
  | begins (t : ThreadId) (k : SegmentId) (h : Begins t x k e e')
  | promotes (runs : e.Runs who x) (h : Promotes x e e')
  | commits (m b : Engine) (runs : e.Runs who x) (minor : Minor x e m) (valid : m.Valid x)
      (h : Commits x m b)
      (after : Settles b e')
  | aborts (m : Engine) (runs : e.Runs who x) (works : Works x e m) (core : m.Core)
      (h : Aborts x m e')

theorem Deed.turn {who : Actor} {e e' : Engine} (h : Deed who e e') (x : TxnId) :
    Turn who x e e' := by
  cases h with
  | nothing h => exact .same (by rw [h.txn])
  | work y runs h => exact .same (h.phase x).1
  | abort y m runs works core h =>
    by_cases hy : x = y
    · subst hy
      exact .aborts m runs works core h
    · exact .same ((congrArg Txn.phase (h.leaves.txn x hy)).trans (works.phase x).1)
  | commit y m b runs minor valid h after =>
    by_cases hy : x = y
    · subst hy
      exact .commits m b runs minor valid h after
    · refine .same ((after.phase x).trans ?_)
      exact (congrArg Txn.phase (h.leaves.txn x hy)).trans (minor.serves.works.phase x).1
  | promote y runs h =>
    by_cases hy : x = y
    · subst hy
      exact .promotes runs h
    · exact .same (by rw [h.txn x hy])
  | begin t y k mine h =>
    by_cases hy : x = y
    · subst hy
      exact .begins t k h
    · exact .same (by rw [h.txn x hy])
  | idle t mine h | prebuild r n mine h => exact .same (by rw [h.sameTxn])
  | collect mine h => exact .same (h.txn x).keeps.phase

/-- What a running transaction keeps. Its read version moves only when it becomes inevitable, and
its reads are fresh then. -/
structure Continues (x : TxnId) (e e' : Engine) : Prop where
  thread : (e'.txn x).thread = (e.txn x).thread
  segment : (e'.txn x).segment = (e.txn x).segment
  stackAtBegin : (e'.txn x).stackAtBegin = (e.txn x).stackAtBegin
  reads : ∀ p ∈ (e.txn x).reads, p ∈ (e'.txn x).reads
  created : ∀ r ∈ (e.txn x).created, r ∈ (e'.txn x).created
  readVersion : (e'.txn x).readVersion = (e.txn x).readVersion ∨
    (e'.txn x).readVersion = e.clock ∧ ∀ r v, (r, v) ∈ (e.txn x).reads → v = e.version r

variable {e e' : Engine} {x y : TxnId} {who : Actor}

theorem continues_of_txn (h : (e.txn x).Continues (e'.txn x))
    (created : ∀ r ∈ (e.txn x).created, r ∈ (e'.txn x).created) : Continues x e e' :=
  ⟨h.thread, h.segment, h.stackAtBegin, h.reads, created, .inl h.readVersion⟩

theorem continues_of_blanks (h : (e.txn x).Blanks (e'.txn x)) : Continues x e e' :=
  continues_of_txn h.keeps (by rw [h.created]; exact fun _ hr => hr)

theorem continues_of_eq (h : e'.txn x = e.txn x) : Continues x e e' :=
  continues_of_blanks (by rw [h]; exact .refl _)

theorem Works.continues (h : Works y e e') (x : TxnId) : Continues x e e' := by
  by_cases hx : x = y
  · subst hx
    exact continues_of_txn h.own h.created
  · exact continues_of_eq (h.txn x hx)

theorem Deed.continues (h : Deed who e e') (hx : e.Active x) (hx' : e'.Active x) :
    Continues x e e' := by
  cases h with
  | nothing h => exact continues_of_eq (h.txn x)
  | work y mine h => exact h.continues x
  | abort y m mine works core h =>
    have hy := ((h.leaves.active rfl x).1 hx').2
    exact continues_of_eq ((h.leaves.txn x hy).trans (works.txn x hy))
  | commit y m b mine minor valid h after =>
    have hy := ((h.leaves.active rfl x).1 (by rwa [Active, ← after.phase])).2
    refine continues_of_blanks ?_
    rw [← minor.serves.works.txn x hy, ← h.leaves.txn x hy]
    exact (after.elsewhere 0).2 x
  | promote y mine h =>
    by_cases hy : x = y
    · subst hy
      obtain ⟨reason, own⟩ := h.own
      rw [Active, own] at hx'
      refine ⟨?_, ?_, ?_, ?_, ?_, .inr ⟨?_, h.fresh⟩⟩ <;> rw [own]
      · exact fun _ hp => hp
      · exact fun _ hr => hr
    · exact continues_of_eq (h.txn x hy)
  | begin t y k mine h =>
    exact continues_of_eq (h.txn x fun heq => Nat.lt_irrefl _ (h.fresh ▸ heq ▸ active_lt hx))
  | idle t mine h | prebuild r n mine h => exact continues_of_eq (h.sameTxn x)
  | collect mine h => exact continues_of_blanks (h.txn x)

theorem Stretch.continues (h : Stretch who e e') (hx : e.Active x) (hx' : e'.Active x) :
    Continues x e e' := by
  obtain ⟨a, b, before, deed, after⟩ := h.deed
  have same := deed.continues (before.active.2 hx) (after.active.1 hx')
  refine ⟨?_, ?_, ?_, ?_, ?_, ?_⟩ <;> rw [after.txn, ← before.txn]
  · exact same.thread
  · exact same.segment
  · exact same.stackAtBegin
  · exact same.reads
  · exact same.created
  · simp only [← before.clock, ← before.version]
    exact same.readVersion

theorem Stretch.begins (h : Stretch who e e') (hx : ¬ e.Active x) (hx' : e'.Active x) :
    x = e.txns.size ∧ (e'.txn x).created = #[] ∧
    (e'.txn x).stackAtBegin = (e.thread (e'.txn x).thread).stack := by
  obtain ⟨a, b, before, deed, after⟩ := h.deed
  rw [← before.active] at hx
  rw [after.active] at hx'
  rw [after.txn]
  cases deed.turn x with
  | same phase =>
    rw [Active, phase] at hx'
    exact absurd hx' hx
  | begins t k h =>
    rw [h.own, h.fresh, before.txns, before.thread]
    exact ⟨rfl, rfl, rfl⟩
  | promotes runs | commits m b runs | aborts m runs => exact absurd runs.1 hx

end Engine

open Engine

namespace Run
variable {N n m : Nat} {ρ : Nat → Machine} {move : Nat → Move} {r : Ref} {x : TxnId}
  (run : Run N ρ move)
include run

theorem clock_le (hnm : n ≤ m) (hm : m ≤ N) : (ρ n).engine.clock ≤ (ρ m).engine.clock := by
  induction m, hnm using Nat.le_induction with
  | base => exact UInt64.le_refl _
  | succ m hnm ih =>
    refine UInt64.le_trans (ih (Nat.le_of_succ_le hm)) ?_
    have ticks := (run.ok (Nat.le_of_succ_le hm)).inv.ticks
    obtain same | next := (run.stretch hm).clock
    · rw [same]
      exact UInt64.le_refl _
    · rw [next, UInt64.le_iff_toNat_le, UInt64.toNat_add]
      simp only [UInt64.reduceToNat]
      omega

theorem fate (hn : n < N) (shared : (ρ n).engine.Shared r) :
    Fate (ρ n).engine (ρ (n + 1)).engine r :=
  (run.stretch hn).fate (run.core hn.le) (run.ok hn.le).inv.ticks shared

theorem origin (hn : n < N) (shared : (ρ (n + 1)).engine.Shared r) (old : ¬ (ρ n).engine.Shared r) :
    Origin (ρ n).engine (ρ (n + 1)).engine r :=
  (run.stretch hn).origin (run.core hn.le) (run.ok hn.le).inv.ticks shared old

section
variable (hnm : n ≤ m) (hm : m ≤ N)
include hnm hm

theorem version_le (shared : ∀ j, n ≤ j → j ≤ m → (ρ j).engine.Shared r) :
    (ρ n).engine.version r ≤ (ρ m).engine.version r := by
  induction m, hnm using Nat.le_induction with
  | base => exact UInt64.le_refl _
  | succ m hnm ih =>
    have hm' := Nat.le_of_succ_le hm
    have here := shared m hnm (Nat.le_succ m)
    refine UInt64.le_trans (ih hm' fun j hj hjm => shared j hj (Nat.le_succ_of_le hjm)) ?_
    cases run.fate hm here with
    | stays stays =>
      rw [stays.version (run.core hm').heap.good here]
      exact UInt64.le_refl _
    | written _ version =>
      rw [version]
      exact UInt64.le_trans ((run.core hm').heap.header r here).2 (run.clock_le (Nat.le_succ m) hm)
    | gone gone => exact absurd (shared (m + 1) (Nat.le_succ_of_le hnm) le_rfl).1 gone

theorem ages : Ages (ρ n).engine (ρ m).engine := by
  induction m, hnm using Nat.le_induction with
  | base => exact (Alike.refl _).ages
  | succ m hnm ih => exact (ih (Nat.le_of_succ_le hm)).trans (run.stretch hm).ages

theorem active_before (known : x < (ρ n).engine.txns.size) (active : (ρ m).engine.Active x) :
    (ρ n).engine.Active x := by
  refine not_not.1 fun past => ?_
  rw [Active, (run.ages hnm hm).ended x known past] at active
  exact past active

end

theorem begun (hn : n ≤ N) (active : (ρ n).engine.Active x) :
    ∃ b < n, x = (ρ b).engine.txns.size ∧ (ρ (b + 1)).engine.Active x := by
  induction n with
  | zero => exact absurd active (run.new.inactive x)
  | succ n ih =>
    by_cases before : (ρ n).engine.Active x
    · obtain ⟨b, hb, begun⟩ := ih (Nat.le_of_succ_le hn) before
      exact ⟨b, Nat.lt_succ_of_lt hb, begun⟩
    · exact ⟨n, Nat.lt_succ_self n, ((run.stretch hn).begins before active).1, active⟩

section
variable (hnm : n ≤ m) (hm : m ≤ N) (hn : (ρ n).engine.Active x) (active : (ρ m).engine.Active x)
include hnm hm hn active

theorem stackAtBegin_kept : ((ρ m).engine.txn x).thread = ((ρ n).engine.txn x).thread ∧
      ((ρ m).engine.txn x).stackAtBegin = ((ρ n).engine.txn x).stackAtBegin := by
  induction m, hnm using Nat.le_induction with
  | base => exact ⟨rfl, rfl⟩
  | succ m hnm ih =>
    have known := (active_lt hn).trans_le (run.ages hnm (Nat.le_of_succ_le hm)).txns_size
    have before := run.active_before (Nat.le_succ m) hm known active
    have continues := (run.stretch hm).continues before active
    obtain ⟨thread, stack⟩ := ih (Nat.le_of_succ_le hm) before
    exact ⟨continues.thread.trans thread, continues.stackAtBegin.trans stack⟩

end
end Run

namespace Engine

variable {e e' : Engine} {x : TxnId} {r : Ref} {w : Int} {v : UInt64}

theorem Serves.noted (h : Serves x e e') (ok : e.Core) (hx : e.Active x) (shared : e.Shared r)
    {u : UInt64} (hu : (r, u) ∈ (e'.txn x).reads) : u ≤ e.version r := by
  rw [← h.works.shared_version ok.heap.good shared]
  exact ((h.core.txns x (h.active hx)).reads r u hu).2.1

end Engine

namespace Run
variable {N n m : Nat} {ρ : Nat → Machine} {move : Nat → Move} {r : Ref} {x : TxnId} {i : Nat}
  {v : UInt64}
  (run : Run N ρ move)
include run

end Run

end TxHeap
