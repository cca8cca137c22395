import TxHeap.Proofs.Engine.Ending

/-! Transactions begin and become inevitable, threads come and go, objects are prebuilt, and the old
heap is collected. Each keeps everything in order. -/

namespace TxHeap
variable {k : SegmentId} {u : ThreadId} {q : Ref}

namespace Engine
variable {e e' : Engine} {x y : TxnId} {t : ThreadId} {r : Ref}

structure Promotes (x : TxnId) (e e' : Engine) : Prop where
  settings : e'.settings = e.settings
  layout : e'.layout = e.layout
  clock : e'.clock = e.clock
  weakrefs : e'.weakrefs = e.weakrefs
  prebuilt : e'.prebuilt = e.prebuilt
  arena : e'.arena = e.arena
  segments_size : e'.segments.size = e.segments.size
  txns_size : e'.txns.size = e.txns.size
  threads_size : e'.threads.size = e.threads.size
  segment : ∀ k, (e.segment k).Alike (e'.segment k)
  none : e.inevitable = none
  inevitable : e'.inevitable = some x
  running : (e.txn x).phase = .running
  thread : ∀ u, u ≠ (e.txn x).thread → e'.thread u = e.thread u
  own_thread : (e.thread (e.txn x).thread).SameBinding (e'.thread (e.txn x).thread) ∧
    (e'.thread (e.txn x).thread).stack = (e.thread (e.txn x).thread).stack
  txn : ∀ y, y ≠ x → e'.txn y = e.txn y
  own : ∃ reason,
    e'.txn x = { e.txn x with readVersion := e.clock, phase := .inevitable, reason }
  fresh : ∀ r v, (r, v) ∈ (e.txn x).reads → v = e.version r

theorem room_congr (arena : e'.arena = e.arena) (r : Ref) (n : Nat) : e'.Room r n ↔ e.Room r n := by
  rw [Room, Room, arena]

theorem shared_congr (arena : e'.arena = e.arena)
    (created : ∀ y, (e'.txn y).created = (e.txn y).created) (r : Ref) :
    e'.Shared r ↔ e.Shared r := by
  simp only [Shared, Allocated, Private, Room, arena, created]

theorem version_congr (arena : e'.arena = e.arena) (r : Ref) : e'.version r = e.version r := by
  rw [version, version, wordAt, wordAt, arena]

theorem HeapOk.congr (ok : e.HeapOk) (arena : e'.arena = e.arena) (clock : e'.clock = e.clock)
    (weakrefs : e'.weakrefs = e.weakrefs)
    (created : ∀ y, (e'.txn y).created = (e.txn y).created) : e'.HeapOk := by
  have shared := shared_congr arena created
  refine ⟨?_, ?_, ?_, ?_, ?_, ?_⟩
  · rw [arena]; exact ok.good
  · rw [arena]; exact ok.small
  · rw [arena]; exact ok.even
  · rw [clock]; exact ok.clock
  · intro r hr
    rw [shared] at hr
    rw [version_congr arena, clock, wordAt, arena]
    exact ok.header r hr
  · simp only [weakrefs, shared]; exact ok.weakrefs

theorem TxnOk.congr (ok : e.TxnOk y) (arena : e'.arena = e.arena) (clock : e'.clock = e.clock)
    (txn : e'.txn y = e.txn y) (created : ∀ y, (e'.txn y).created = (e.txn y).created)
    (segment : (e.segment (e.txn y).segment).Alike (e'.segment (e.txn y).segment)) :
    e'.TxnOk y := by
  refine ok.carry (.of_eq txn) segment.blanks (fun r hr _ => (shared_congr arena created r).2 hr)
    (fun r n hn _ _ => ?_)
    (fun z hz r hr => ?_) clock fun r _ _ => version_congr arena r
  · rwa [Room, arena]
  · rw [created]
    exact ok.apart z hz r hr

namespace Promotes
section
variable (h : Promotes x e e')
include h

theorem active : e.Active x := by
  rw [Active, h.running]
  rfl

theorem sameBinding_thread (u : ThreadId) :
    (e.thread u).SameBinding (e'.thread u) ∧ (e'.thread u).stack = (e.thread u).stack := by
  by_cases hu : u = (e.txn x).thread
  · rw [hu]
    exact h.own_thread
  · rw [h.thread u hu]
    exact ⟨.refl _, rfl⟩

theorem created (y : TxnId) : (e'.txn y).created = (e.txn y).created ∧
    (e'.txn y).thread = (e.txn y).thread ∧ (e'.txn y).segment = (e.txn y).segment := by
  by_cases hy : y = x
  · obtain ⟨reason, own⟩ := h.own
    rw [hy, own]
    exact ⟨rfl, rfl, rfl⟩
  · rw [h.txn y hy]
    exact ⟨rfl, rfl, rfl⟩

theorem phase (y : TxnId) : e'.Active y ↔ e.Active y := by
  by_cases hy : y = x
  · obtain ⟨reason, own⟩ := h.own
    rw [hy, Active, own, Active, h.running]
    exact ⟨fun _ => rfl, fun _ => rfl⟩
  · rw [Active, h.txn y hy, Active]

theorem usable : e'.Usable t r ↔ e.Usable t r := by
  simp only [Usable, shared_congr h.arena fun y => (h.created y).1, (h.sameBinding_thread t).1.txn,
    (h.created _).1, (h.created _).2.2, Young, (h.segment _).objects]

theorem core (ok : e.Core) : e'.Core where
  heap := ok.heap.congr h.arena h.clock h.weakrefs fun y => (h.created y).1
  life := by
    refine ok.life.congr (fun t => ?_) (fun y => ?_) (fun k => (h.segment k).owner)
      (fun k => ok.life.free_blanks (h.segment k).blanks) fun y => ?_
    · have keeps := (h.sameBinding_thread t).1
      exact ⟨keeps.txn, keeps.segment, fun _ => keeps.registered⟩
    · exact ⟨(h.created y).2.1, (h.created y).2.2, h.phase y, fun _ => (h.created y).1⟩
    · rw [h.inevitable]
      by_cases hy : y = x
      · obtain ⟨reason, own⟩ := h.own
        rw [hy, own]
        exact ⟨fun _ => rfl, fun _ => rfl⟩
      · rw [h.txn y hy]
        constructor
        · intro heq
          exact absurd (Option.some.inj heq).symm hy
        · intro hp
          rw [← ok.life.inevitable, h.none] at hp
          cases hp
  txns y hy := by
    rw [h.phase] at hy
    have old := ok.txns y hy
    by_cases hne : y = x
    · subst hne
      obtain ⟨reason, own⟩ := h.own
      have shared := shared_congr h.arena fun z => (h.created z).1
      exact
        { reads := fun r v hr => by
            rw [own] at hr ⊢
            obtain ⟨hs, bound, limit⟩ := old.reads r v hr
            rw [shared, version_congr h.arena]
            exact ⟨hs, bound, UInt64.le_trans limit old.readVersion⟩
          writes := fun r c hr => by
            rw [own] at hr ⊢
            simp only [room_congr h.arena]
            exact old.writes r c hr
          keys := by rw [own]; exact old.keys
          created := fun r hr => by
            rw [own] at hr
            simp only [Allocated, room_congr h.arena]
            exact old.created r hr
          nodup := by rw [own]; exact old.nodup
          apart := fun z hz r hr => by
            rw [(h.created y).1] at hr
            rw [(h.created z).1]
            exact old.apart z hz r hr
          start := fun r hr => by
            rw [own] at hr
            rw [shared]
            exact old.start r hr
          readVersion := by
            rw [own, h.clock]
            exact UInt64.le_refl _
          inevitable := fun _ => by
            rw [own, h.clock]
            refine ⟨rfl, fun r v hr => ?_⟩
            rw [version_congr h.arena]
            exact h.fresh r v hr
          nursery := by
            rw [own]
            exact old.nursery.alike (h.segment _) }
    · exact old.congr h.arena h.clock (h.txn y hne) (fun z => (h.created z).1) (h.segment _)
  stackOk t ht r hr := by
    rw [(h.sameBinding_thread t).1.registered] at ht
    rw [(h.sameBinding_thread t).2] at hr
    exact h.usable.2 (ok.stackOk t ht r hr)
  segments := by rw [h.segments_size]; exact ok.segments
  honest := by rw [h.layout]; exact ok.honest

theorem weakOk (weak : e.WeakOk k) : e'.WeakOk k := by
  simp only [WeakOk, (h.segment k).weakrefs, (h.segment k).owner, (h.sameBinding_thread _).1.txn,
    (h.created _).1, Young, (h.segment k).objects]
  exact weak

end
end Promotes

structure Begins (t : ThreadId) (x : TxnId) (k : SegmentId) (e e' : Engine) : Prop where
  settings : e'.settings = e.settings
  layout : e'.layout = e.layout
  clock : e'.clock = e.clock
  inevitable : e'.inevitable = e.inevitable
  weakrefs : e'.weakrefs = e.weakrefs
  prebuilt : e'.prebuilt = e.prebuilt
  arena : e'.arena = e.arena
  segments_size : e'.segments.size = e.segments.size
  threads_size : e'.threads.size = e.threads.size
  fresh : x = e.txns.size
  txns_size : e'.txns.size = e.txns.size + 1
  idle : (e.thread t).txn = none ∧ (e.thread t).registered = true
  free : (e.segment k).owner = none
  thread : ∀ u, u ≠ t → e'.thread u = e.thread u
  own_thread : (e'.thread t).txn = some x ∧ (e'.thread t).segment = some k ∧
    (e'.thread t).registered = true ∧ (e'.thread t).stack = (e.thread t).stack
  txn : ∀ y, y ≠ x → e'.txn y = e.txn y
  own : e'.txn x =
    { thread := t, segment := k, phase := .running, readVersion := e.clock
      stackAtBegin := (e.thread t).stack }
  segment : ∀ j, j ≠ k → (e.segment j).Alike (e'.segment j)
  own_owner : (e'.segment k).owner = some t
  own_used : (e'.segment k).used = (e.segment k).used
  own_nursery : (e'.segment k).nursery = (e.segment k).nursery
  own_objects : (e'.segment k).objects = (e.segment k).objects
  own_weakrefs : (e'.segment k).weakrefs = (e.segment k).weakrefs

namespace Begins
section
variable (h : Begins t x k e e')
include h

theorem unknown : ¬ e.Active x := by
  intro hx
  exact absurd (active_lt hx) (by rw [h.fresh]; exact Nat.lt_irrefl _)

theorem created (ok : e.LifeOk) (y : TxnId) : (e'.txn y).created = (e.txn y).created := by
  by_cases hy : y = x
  · rw [hy, h.own, ok.ended x h.unknown]
  · rw [h.txn y hy]

theorem active (y : TxnId) : e'.Active y ↔ e.Active y ∨ y = x := by
  by_cases hy : y = x
  · rw [hy, Active, h.own]
    exact ⟨fun _ => .inr rfl, fun _ => rfl⟩
  · rw [Active, h.txn y hy, Active]
    simp [hy]

theorem objects (j : SegmentId) : (e'.segment j).objects = (e.segment j).objects := by
  by_cases hj : j = k
  · rw [hj]
    exact h.own_objects
  · exact (h.segment j hj).objects

theorem life (ok : e.LifeOk) : e'.LifeOk where
  txn u y hy := by
    by_cases hu : u = t
    · rw [hu, h.own_thread.1] at hy
      rw [hu, ← Option.some.inj hy, h.own, h.own_thread.2.1, h.own_thread.2.2.1]
      exact ⟨(h.active x).2 (.inr rfl), rfl, rfl, rfl⟩
    · rw [h.thread u hu] at hy ⊢
      obtain ⟨active, rest⟩ := ok.txn u y hy
      rw [h.txn y fun heq => h.unknown (heq ▸ active)]
      exact ⟨(h.active y).2 (.inl active), rest⟩
  thread y hy := by
    by_cases hne : y = x
    · rw [hne, h.own]
      exact h.own_thread.1
    · have hy := ((h.active y).1 hy).resolve_right hne
      have owner := ok.thread y hy
      rw [h.txn y hne, h.thread _ fun heq => ?_]
      · exact owner
      · rw [heq, h.idle.1] at owner
        cases owner
  holds u j hj := by
    by_cases hu : u = t
    · rw [hu, h.own_thread.2.1] at hj
      rw [hu, ← Option.some.inj hj, h.own_thread.1]
      exact ⟨rfl, h.own_owner⟩
    · rw [h.thread u hu] at hj ⊢
      obtain ⟨some, owner⟩ := ok.holds u j hj
      refine ⟨some, ?_⟩
      rw [(h.segment j fun heq => ?_).owner]
      · exact owner
      · rw [heq, h.free] at owner
        cases owner
  owner j u hj := by
    by_cases hk : j = k
    · rw [hk, h.own_owner] at hj
      rw [← Option.some.inj hj, hk]
      exact h.own_thread.2.1
    · rw [(h.segment j hk).owner] at hj
      have seg := ok.owner j u hj
      rw [h.thread u fun heq => ?_]
      · exact seg
      · have := (ok.holds u j seg).1
        rw [heq, h.idle.1] at this
        cases this
  free j hj := by
    have hk : j ≠ k := by
      rintro rfl
      rw [h.own_owner] at hj
      cases hj
    exact ok.free_blanks (h.segment j hk).blanks hj
  ended y hy := by
    rw [h.created ok]
    exact ok.ended y fun active => hy ((h.active y).2 (.inl active))
  inevitable y := by
    rw [h.inevitable, ok.inevitable]
    by_cases hy : y = x
    · rw [hy, h.own]
      constructor
      · intro hp
        exact absurd (by rw [Active, hp]; rfl) h.unknown
      · intro hp
        cases hp
    · rw [h.txn y hy]

theorem usable (ok : e.LifeOk) (hr : e.Usable u r) : e'.Usable u r := by
  obtain rfl | shared | ⟨y, hy, own⟩ := hr
  · exact .inl rfl
  · exact .inr (.inl ((shared_congr h.arena (h.created ok) r).2 shared))
  · have hu : u ≠ t := by
      rintro rfl
      rw [h.idle.1] at hy
      cases hy
    have hne : y ≠ x := fun heq => h.unknown (heq ▸ (ok.txn u y hy).1)
    refine .inr (.inr ⟨y, by rwa [h.thread u hu], ?_⟩)
    rwa [h.txn y hne, Young, h.objects]

theorem core (ok : e.Core) : e'.Core where
  heap := ok.heap.congr h.arena h.clock h.weakrefs (h.created ok.life)
  life := h.life ok.life
  txns y hy := by
    by_cases hne : y = x
    · subst hne
      obtain ⟨used, objects, -, nursery⟩ := ok.life.free k h.free
      exact
        { reads := fun r v hr => by rw [h.own] at hr; simp at hr
          writes := fun r c hr => by rw [h.own] at hr; simp at hr
          keys := by rw [h.own]; simp
          created := fun r hr => by rw [h.own] at hr; simp at hr
          nodup := by rw [h.own]; simp
          apart := fun z hz r hr => by rw [h.own] at hr; simp at hr
          start := fun r hr => by
            rw [h.own] at hr
            obtain rfl | shared | ⟨z, hz, -⟩ := ok.stackOk t h.idle.2 r hr
            · exact .inl rfl
            · exact .inr ((shared_congr h.arena (h.created ok.life) r).2 shared)
            · rw [h.idle.1] at hz
              cases hz
          readVersion := by
            rw [h.own, h.clock]
            exact UInt64.le_refl _
          inevitable := fun hp => by
            rw [h.own] at hp
            cases hp
          nursery := by
            rw [h.own]
            exact nursery.congr h.own_used h.own_nursery h.own_objects }
    · have hy := ((h.active y).1 hy).resolve_right hne
      refine (ok.txns y hy).congr h.arena h.clock (h.txn y hne) (h.created ok.life) (h.segment _ ?_)
      intro heq
      have owner := ok.life.owned hy
      rw [heq, h.free] at owner
      cases owner
  stackOk u hu r hr := by
    refine h.usable ok.life ?_
    by_cases ht : u = t
    · rw [ht, h.own_thread.2.2.2] at hr
      rw [ht]
      exact ok.stackOk t h.idle.2 r hr
    · rw [h.thread u ht] at hu hr
      exact ok.stackOk u hu r hr
  segments := by rw [h.segments_size]; exact ok.segments
  honest := by rw [h.layout]; exact ok.honest

theorem weakOk (ok : e.LifeOk) {j : SegmentId} (weak : e.WeakOk j) : e'.WeakOk j := by
  intro w hw
  have hk : j ≠ k := by
    rintro rfl
    rw [h.own_weakrefs, (ok.free j h.free).2.2.1] at hw
    simp at hw
  rw [(h.segment j hk).weakrefs] at hw
  obtain ⟨u, y, owner, hy, own⟩ := weak w hw
  have hu : u ≠ t := by
    rintro rfl
    rw [h.idle.1] at hy
    cases hy
  refine ⟨u, y, by rw [(h.segment j hk).owner, owner], by rw [h.thread u hu, hy], ?_⟩
  rwa [h.created ok, Young, h.objects]

end
end Begins

/-- Thread `t` is registered, unregistered, or has its stack changed, outside of transactions. -/
structure Idles (t : ThreadId) (e e' : Engine) : Prop where
  settings : e'.settings = e.settings
  layout : e'.layout = e.layout
  clock : e'.clock = e.clock
  inevitable : e'.inevitable = e.inevitable
  weakrefs : e'.weakrefs = e.weakrefs
  prebuilt : e'.prebuilt = e.prebuilt
  arena : e'.arena = e.arena
  txns : e'.txns = e.txns
  threads_size : e.threads.size ≤ e'.threads.size
  segments_size : e'.segments.size = e.segments.size
  segment : ∀ k, (e.segment k).Alike (e'.segment k)
  thread : ∀ u, u ≠ t → e'.thread u = e.thread u
  idle : (e.thread t).txn = none
  own : (e'.thread t).txn = none ∧ (e'.thread t).segment = (e.thread t).segment
  stack : (e'.thread t).registered = true → ∀ r ∈ (e'.thread t).stack, r = .null ∨ e.Shared r

namespace Idles
section
variable (h : Idles t e e')
include h

theorem sameTxn (y : TxnId) : e'.txn y = e.txn y := by
  rw [txn, txn, h.txns]

theorem thread_txn (u : ThreadId) :
    (e'.thread u).txn = (e.thread u).txn ∧ (e'.thread u).segment = (e.thread u).segment := by
  by_cases hu : u = t
  · rw [hu, h.idle]
    exact h.own
  · rw [h.thread u hu]
    exact ⟨rfl, rfl⟩

theorem shared (r : Ref) : e'.Shared r ↔ e.Shared r :=
  shared_congr h.arena (fun y => by rw [h.sameTxn y]) r

theorem life (ok : e.LifeOk) : e'.LifeOk := by
  refine ok.congr (fun u => ⟨(h.thread_txn u).1, (h.thread_txn u).2, fun some => ?_⟩) (fun y => ?_)
    (fun k => (h.segment k).owner) (fun k => ok.free_blanks (h.segment k).blanks) fun y => ?_
  · rw [h.thread u]
    rintro rfl
    rw [h.idle] at some
    cases some
  · rw [Active, h.sameTxn]
    exact ⟨rfl, rfl, .rfl, fun _ => rfl⟩
  · rw [h.inevitable, h.sameTxn]
    exact ok.inevitable y

theorem usable : e'.Usable u r ↔ e.Usable u r := by
  simp only [Usable, h.shared, (h.thread_txn u).1, h.sameTxn, Young, (h.segment _).objects]

theorem core (ok : e.Core) : e'.Core where
  heap := ok.heap.congr h.arena h.clock h.weakrefs fun y => by rw [h.sameTxn]
  life := h.life ok.life
  txns y hy := by
    rw [Active, h.sameTxn] at hy
    exact (ok.txns y hy).congr h.arena h.clock (h.sameTxn y) (fun z => by rw [h.sameTxn])
      (h.segment _)
  stackOk u hu r hr := by
    by_cases ht : u = t
    · rw [ht] at hu hr
      exact (h.stack hu r hr).imp id fun shared => .inl ((h.shared r).2 shared)
    · rw [h.thread u ht] at hu hr
      exact h.usable.2 (ok.stackOk u hu r hr)
  segments := by rw [h.segments_size]; exact ok.segments
  honest := by rw [h.layout]; exact ok.honest

theorem weakOk (weak : e.WeakOk k) : e'.WeakOk k := by
  simp only [WeakOk, (h.segment k).weakrefs, (h.segment k).owner, (h.thread_txn _).1,
    h.sameTxn, Young,
    (h.segment k).objects]
  exact weak

end
end Idles

structure Prebuilds (r : Ref) (n : Nat) (e e' : Engine) : Prop where
  settings : e'.settings = e.settings
  layout : e'.layout = e.layout
  clock : e'.clock = e.clock
  inevitable : e'.inevitable = e.inevitable
  weakrefs : e'.weakrefs = e.weakrefs
  prebuilt : e'.prebuilt = e.prebuilt.push r
  threads : e'.threads = e.threads
  txns : e'.txns = e.txns
  segments_size : e'.segments.size = e.segments.size
  segment : ∀ k, (e.segment k).Alike (e'.segment k)
  memory_size : e'.arena.memory.size = e.arena.memory.size
  good : e'.arena.Good
  fresh : ¬ e.Allocated r
  room : ∀ q m, e'.Room q m ↔ e.Room q m ∨ q = r ∧ m = n
  word : ∀ q m i, e.Room q m → i < m → e'.wordAt q i = e.wordAt q i
  header : e'.wordAt r 0 = 0

namespace Prebuilds
variable {n : Nat}

section
variable (h : Prebuilds r n e e')
include h

theorem sameTxn (y : TxnId) : e'.txn y = e.txn y := by
  rw [txn, txn, h.txns]

theorem sameThread (u : ThreadId) : e'.thread u = e.thread u := by
  rw [thread, thread, h.threads]

theorem shared (ok : e.Core) (q : Ref) : e'.Shared q ↔ e.Shared q ∨ q = r := by
  constructor
  · rintro ⟨⟨m, hm⟩, shared⟩
    obtain hq | ⟨hq, -⟩ := (h.room q m).1 hm
    · refine .inl ⟨⟨m, hq⟩, ?_⟩
      rintro ⟨y, hy⟩
      exact shared ⟨y, by rwa [h.sameTxn]⟩
    · exact .inr hq
  · rintro (⟨⟨m, hm⟩, shared⟩ | rfl)
    · refine ⟨⟨m, (h.room q m).2 (.inl hm)⟩, ?_⟩
      rintro ⟨y, hy⟩
      exact shared ⟨y, by rwa [← h.sameTxn]⟩
    · refine ⟨⟨n, (h.room q n).2 (.inr ⟨rfl, rfl⟩)⟩, ?_⟩
      rintro ⟨y, hy⟩
      rw [h.sameTxn] at hy
      by_cases active : e.Active y
      · exact h.fresh ((ok.txns y active).created q hy)
      · rw [ok.life.ended y active] at hy
        simp at hy

theorem shared_header (ok : e.Core) (hq : e.Shared q) : e'.wordAt q 0 = e.wordAt q 0 := by
  obtain ⟨m, hm⟩ := hq.1
  have bounds := room_bounds ok.heap.good hm
  exact h.word q m 0 hm (by omega)

theorem shared_version (ok : e.Core) (hq : e.Shared q) : e'.version q = e.version q := by
  rw [version, version, h.shared_header ok hq]

theorem usable (ok : e.Core) (hq : e.Usable t q) : e'.Usable t q := by
  obtain rfl | shared | ⟨y, hy, own⟩ := hq
  · exact .inl rfl
  · exact .inr (.inl ((h.shared ok q).2 (.inl shared)))
  · refine .inr (.inr ⟨y, by rwa [h.sameThread], ?_⟩)
    rwa [h.sameTxn, Young, (h.segment _).objects]

theorem core (ok : e.Core) : e'.Core where
  heap :=
    { good := h.good
      small := by rw [h.memory_size]; exact ok.heap.small
      even := by rw [h.memory_size]; exact ok.heap.even
      clock := by rw [h.clock]; exact ok.heap.clock
      header := fun q hq => by
        obtain hq | rfl := (h.shared ok q).1 hq
        · rw [h.shared_header ok hq, h.shared_version ok hq, h.clock]
          exact ok.heap.header q hq
        · rw [version, h.header]
          exact ⟨rfl, UInt64.le_iff_toNat_le.2 (Nat.zero_le _)⟩
      weakrefs := by
        rw [h.weakrefs]
        exact ⟨ok.heap.weakrefs.1, fun w hw => (h.shared ok w).2 (.inl (ok.heap.weakrefs.2 w hw))⟩ }
  life := by
    refine ok.life.congr (fun u => ?_) (fun y => ?_) (fun k => (h.segment k).owner)
      (fun k => ok.life.free_blanks (h.segment k).blanks) fun y => ?_
    · rw [h.sameThread]
      exact ⟨rfl, rfl, fun _ => rfl⟩
    · rw [Active, h.sameTxn]
      exact ⟨rfl, rfl, .rfl, fun _ => rfl⟩
    · rw [h.inevitable, h.sameTxn]
      exact ok.life.inevitable y
  txns y hy := by
    rw [Active, h.sameTxn] at hy
    have own := ok.txns y hy
    refine own.carry (.of_eq (h.sameTxn y)) (h.segment _).blanks
      (fun q hq _ => (h.shared ok q).2 (.inl hq))
      (fun q m hm _ _ => (h.room q m).2 (.inl hm)) (fun z hz q hq => ?_) h.clock fun q hq _ =>
        h.shared_version ok hq
    rw [h.sameTxn]
    exact own.apart z hz q hq
  stackOk u hu q hq := by
    rw [h.sameThread] at hu hq
    exact h.usable ok (ok.stackOk u hu q hq)
  segments := by rw [h.segments_size]; exact ok.segments
  honest := by rw [h.layout]; exact ok.honest

theorem weakOk (weak : e.WeakOk k) : e'.WeakOk k := by
  simp only [WeakOk, (h.segment k).weakrefs, (h.segment k).owner, h.sameThread, h.sameTxn, Young,
    (h.segment k).objects]
  exact weak

end
end Prebuilds

/-- What a collection must keep: prebuilt objects, what is on the stacks of threads, and what
running transactions hold. -/
def Root (e : Engine) (r : Ref) : Prop :=
  r ∈ e.prebuilt ∨ (∃ t, (e.thread t).registered = true ∧ r ∈ (e.thread t).stack) ∨
    ∃ x, e.Active x ∧ (e.txn x).Holds r

def TargetAt (e : Engine) (r : Ref) (i : Nat) : Prop :=
  r ∈ e.weakrefs ∧ ∃ s, oldObject r e = .ok s e ∧ i + 1 = s.length

structure Collects (e e' : Engine) : Prop where
  settings : e'.settings = e.settings
  layout : e'.layout = e.layout
  clock : e'.clock = e.clock
  inevitable : e'.inevitable = e.inevitable
  prebuilt : e'.prebuilt = e.prebuilt
  threads : e'.threads = e.threads
  txns_size : e'.txns.size = e.txns.size
  segments_size : e'.segments.size = e.segments.size
  memory_size : e'.arena.memory.size = e.arena.memory.size
  txn : ∀ y, (e.txn y).Blanks (e'.txn y)
  segment : ∀ k, (e.segment k).Blanks (e'.segment k)
  weakrefs : e'.weakrefs.Sublist e.weakrefs ∧ ∀ w ∈ e'.weakrefs, e'.Allocated w
  good : e'.arena.Good
  room : ∀ r n, e'.Room r n → e.Room r n
  root : ∀ r n, e.Room r n → e.Root r → e'.Room r n
  word : ∀ r n i, e'.Room r n → i < n →
    e'.wordAt r i = e.wordAt r i ∨ 0 < i ∧ e'.wordAt r i = 0 ∧ (e.Private r ∨ e.TargetAt r i)

variable {e e' : Engine} {y : TxnId} {r : Ref}

namespace Collects
section
variable (h : Collects e e')
include h

theorem sameThread (u : ThreadId) : e'.thread u = e.thread u := by
  rw [thread, thread, h.threads]

theorem active (y : TxnId) : e'.Active y ↔ e.Active y := by
  rw [Active, Active, (h.txn y).keeps.phase]

theorem shared (r : Ref) : e'.Shared r ↔ e.Shared r ∧ e'.Allocated r := by
  have created : e'.Private r ↔ e.Private r := by
    simp only [Private, (h.txn _).created]
  rw [Shared, Shared, created]
  constructor
  · rintro ⟨⟨n, hn⟩, shared⟩
    exact ⟨⟨⟨n, h.room r n hn⟩, shared⟩, n, hn⟩
  · rintro ⟨⟨-, shared⟩, allocated⟩
    exact ⟨allocated, shared⟩

theorem header (allocated : e'.Allocated r) : e'.wordAt r 0 = e.wordAt r 0 := by
  obtain ⟨n, hn⟩ := allocated
  have bounds := room_bounds h.good hn
  obtain same | ⟨hpos, -⟩ := h.word r n 0 hn (by omega)
  · exact same
  · exact absurd hpos (Nat.lt_irrefl 0)

theorem sameVersion (allocated : e'.Allocated r) : e'.version r = e.version r := by
  rw [version, version, h.header allocated]

theorem shared_root (shared : e.Shared r) (root : e.Root r) : e'.Shared r := by
  obtain ⟨n, hn⟩ := shared.1
  exact (h.shared r).2 ⟨shared, n, h.root r n hn root⟩

theorem txnOk (ok : e.TxnOk y) (hy : e.Active y) : e'.TxnOk y := by
  have root : ∀ r, (e.txn y).Holds r → e.Root r := fun r hr => .inr (.inr ⟨y, hy, hr⟩)
  refine ok.carry (h.txn y) (h.segment _) (fun r hs hr => h.shared_root hs (root r hr))
    (fun r n hn _ hr => h.root r n hn (root r hr))
    (fun z hz r hr => ?_) h.clock fun r _ hs => h.sameVersion hs.1
  rw [(h.txn z).created]
  exact ok.apart z hz r hr

theorem life (ok : e.LifeOk) : e'.LifeOk := by
  refine ok.congr (fun u => ?_) (fun z => ?_) (fun k => (h.segment k).owner)
    (fun k => ok.free_blanks (h.segment k)) fun z => ?_
  · rw [h.sameThread]
    exact ⟨rfl, rfl, fun _ => rfl⟩
  · exact ⟨(h.txn z).keeps.thread, (h.txn z).keeps.segment, h.active z, fun _ => (h.txn z).created⟩
  · rw [h.inevitable, (h.txn z).keeps.phase]
    exact ok.inevitable z

theorem core (ok : e.Core) : e'.Core where
  heap :=
    { good := h.good
      small := by rw [h.memory_size]; exact ok.heap.small
      even := by rw [h.memory_size]; exact ok.heap.even
      clock := by rw [h.clock]; exact ok.heap.clock
      header := fun r hr => by
        obtain ⟨shared, allocated⟩ := (h.shared r).1 hr
        rw [h.header allocated, h.sameVersion allocated, h.clock]
        exact ok.heap.header r shared
      weakrefs := ⟨ok.heap.weakrefs.1.sublist h.weakrefs.1, fun w hw =>
        (h.shared w).2 ⟨ok.heap.weakrefs.2 w (h.weakrefs.1.subset hw), h.weakrefs.2 w hw⟩⟩ }
  life := h.life ok.life
  txns y hy := by
    rw [h.active] at hy
    exact h.txnOk (ok.txns y hy) hy
  stackOk u hu r hr := by
    rw [h.sameThread] at hu hr
    obtain rfl | shared | ⟨y, hy, own⟩ := ok.stackOk u hu r hr
    · exact .inl rfl
    · exact .inr (.inl (h.shared_root shared (.inr (.inl ⟨u, hu, hr⟩))))
    · refine .inr (.inr ⟨y, by rwa [h.sameThread], ?_⟩)
      rwa [(h.txn y).created, (h.txn y).keeps.segment, Young, (h.segment _).objects]
  segments := by rw [h.segments_size]; exact ok.segments
  honest := by rw [h.layout]; exact ok.honest

theorem weakOk {k : SegmentId} (weak : e.WeakOk k) : e'.WeakOk k := by
  simp only [WeakOk, (h.segment k).weakrefs, (h.segment k).owner, h.sameThread, (h.txn _).created,
    Young, (h.segment k).objects]
  exact weak

end
end Collects
end Engine
end TxHeap
