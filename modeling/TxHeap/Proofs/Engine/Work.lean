import Mathlib.Data.List.Nodup
import TxHeap.Proofs.Engine.Invariant

/-! A transaction's own work changes what belongs to it alone: its records, the stack of its thread,
its nursery, the objects it created. It keeps the invariant if what the transaction gathered is in
order afterwards. -/

namespace TxHeap
variable {r : Ref} {n : Nat}

structure Thread.SameBinding (th th' : Thread) : Prop where
  txn : th'.txn = th.txn
  segment : th'.segment = th.segment
  registered : th'.registered = th.registered

theorem Thread.SameBinding.refl (th : Thread) : th.SameBinding th := ⟨rfl, rfl, rfl⟩

theorem Thread.SameBinding.trans {a b c : Thread} (h : a.SameBinding b) (h' : b.SameBinding c) :
    a.SameBinding c :=
  ⟨h'.txn.trans h.txn, h'.segment.trans h.segment, h'.registered.trans h.registered⟩

namespace Engine

structure Steady (e e' : Engine) : Prop where
  settings : e'.settings = e.settings
  layout : e'.layout = e.layout
  clock : e'.clock = e.clock
  inevitable : e'.inevitable = e.inevitable
  weakrefs : e'.weakrefs = e.weakrefs
  prebuilt : e'.prebuilt = e.prebuilt
  threads_size : e'.threads.size = e.threads.size
  txns_size : e'.txns.size = e.txns.size
  segments_size : e'.segments.size = e.segments.size
  memory_size : e'.arena.memory.size = e.arena.memory.size

theorem Steady.trans {a b c : Engine} (h : Steady a b) (h' : Steady b c) : Steady a c :=
  ⟨h'.settings.trans h.settings, h'.layout.trans h.layout, h'.clock.trans h.clock,
    h'.inevitable.trans h.inevitable, h'.weakrefs.trans h.weakrefs, h'.prebuilt.trans h.prebuilt,
    h'.threads_size.trans h.threads_size, h'.txns_size.trans h.txns_size,
    h'.segments_size.trans h.segments_size, h'.memory_size.trans h.memory_size⟩

/-- From `e` to `e'` nothing happened but work of the transaction `x`. -/
structure Works (x : TxnId) (e e' : Engine) : Prop where
  steady : Steady e e'
  thread : ∀ u, u ≠ (e.txn x).thread → e'.thread u = e.thread u
  own_thread : (e.thread (e.txn x).thread).SameBinding (e'.thread (e.txn x).thread)
  txn : ∀ y, y ≠ x → e'.txn y = e.txn y
  own : (e.txn x).Continues (e'.txn x)
  segment : ∀ k, k ≠ (e.txn x).segment → (e.segment k).Alike (e'.segment k)
  own_segment : (e'.segment (e.txn x).segment).owner = (e.segment (e.txn x).segment).owner ∧
    (e'.segment (e.txn x).segment).nursery.size = (e.segment (e.txn x).segment).nursery.size
  created : ∀ r ∈ (e.txn x).created, r ∈ (e'.txn x).created
  fresh : ∀ r ∈ (e'.txn x).created, r ∈ (e.txn x).created ∨ ¬ e.Allocated r
  room : ∀ r n, e.Room r n → e'.Room r n
  new : ∀ r n, e'.Room r n → e.Room r n ∨ r ∈ (e'.txn x).created
  word : ∀ r n i, e.Room r n → r ∉ (e.txn x).created → i < n → e'.wordAt r i = e.wordAt r i
  mallocs : e'.arena.mallocs + UInt64.ofNat (e.txn x).created.size =
    e.arena.mallocs + UInt64.ofNat (e'.txn x).created.size
  frees : e'.arena.frees = e.arena.frees

variable {e e' e'' : Engine} {x : TxnId}

theorem active_lt (h : e.Active x) : x < e.txns.size := by
  refine not_not.1 fun hlt => ?_
  rw [Active, txn, getD_out (Nat.le_of_not_lt hlt)] at h
  cases h

theorem Alike.steady (h : Alike e e') : Steady e e' :=
  { h with
    threads_size := by rw [h.threads]
    txns_size := by rw [h.txns]
    memory_size := by rw [h.arena] }

theorem Alike.works (h : Alike e e') : Works x e e' where
  steady := h.steady
  thread u _ := h.thread u
  own_thread := by rw [h.thread]; exact .refl _
  txn y _ := h.txn y
  own := by rw [h.txn]; exact .refl _
  segment k _ := h.segment k
  own_segment := ⟨(h.segment _).owner, by rw [(h.segment _).nursery]⟩
  created r hr := by rwa [h.txn]
  fresh r hr := by rw [h.txn] at hr; exact .inl hr
  room r n hr := (h.room r n).2 hr
  new r n hr := .inl ((h.room r n).1 hr)
  word r n i _ _ _ := h.wordAt r i
  mallocs := by rw [h.arena, h.txn]
  frees := by rw [h.arena]

theorem Works.refl (x : TxnId) (e : Engine) : Works x e e := (Alike.refl e).works

theorem Works.trans (h : Works x e e') (h' : Works x e' e'') : Works x e e'' where
  steady := h.steady.trans h'.steady
  thread u hu := (h'.thread u (by rwa [h.own.thread])).trans (h.thread u hu)
  own_thread := by
    have later := h'.own_thread
    rw [h.own.thread] at later
    exact h.own_thread.trans later
  txn y hy := (h'.txn y hy).trans (h.txn y hy)
  own := h.own.trans h'.own
  segment k hk := (h.segment k hk).trans (h'.segment k (by rwa [h.own.segment]))
  own_segment := by
    have later := h'.own_segment
    rw [h.own.segment] at later
    exact ⟨later.1.trans h.own_segment.1, later.2.trans h.own_segment.2⟩
  created r hr := h'.created r (h.created r hr)
  fresh r hr := by
    obtain hr | gone := h'.fresh r hr
    · exact h.fresh r hr
    · exact .inr fun ⟨n, hn⟩ => gone ⟨n, h.room r n hn⟩
  room r n hr := h'.room r n (h.room r n hr)
  new r n hr := by
    obtain hr | hr := h'.new r n hr
    · obtain hr | hr := h.new r n hr
      · exact .inl hr
      · exact .inr (h'.created r hr)
    · exact .inr hr
  word r n i hr hc hi := by
    have hc' : r ∉ (e'.txn x).created :=
      fun hmem => (h.fresh r hmem).elim hc fun gone => gone ⟨n, hr⟩
    rw [h'.word r n i (h.room r n hr) hc' hi, h.word r n i hr hc hi]
  mallocs := by
    have first := h.mallocs
    have second := h'.mallocs
    have key : e''.arena.mallocs + .ofNat (e.txn x).created.size + .ofNat (e'.txn x).created.size =
        e.arena.mallocs + .ofNat (e''.txn x).created.size +
        .ofNat (e'.txn x).created.size := by
      calc
        _ = e''.arena.mallocs + .ofNat (e'.txn x).created.size +
            .ofNat (e.txn x).created.size := by ac_rfl
        _ = e'.arena.mallocs + .ofNat (e.txn x).created.size +
            UInt64.ofNat (e''.txn x).created.size := by rw [second]; ac_rfl
        _ = _ := by rw [first]; ac_rfl
    exact (UInt64.add_left_inj _).1 key
  frees := h'.frees.trans h.frees

section Kinds

theorem works_setTxn {f : Txn → Txn} (keeps : (e.txn x).Continues (f (e.txn x)))
    (created : (f (e.txn x)).created = (e.txn x).created) : Works x e (e.setTxn x f) := by
  have own : (e.setTxn x f).txn x = f (e.txn x) ∨ (e.setTxn x f).txn x = e.txn x := by
    rw [txn_setTxn]
    split
    · exact .inl rfl
    · exact .inr rfl
  have same : ((e.setTxn x f).txn x).created = (e.txn x).created := by
    obtain own | own := own
    · rw [own, created]
    · rw [own]
  exact
    { Works.refl x e with
      steady := { (Alike.refl e).steady with txns_size := by simp }
      txn := fun y hy => by rw [txn_setTxn, if_neg fun h => hy h.1.symm]
      own := by
        obtain own | own := own
        · rwa [own]
        · rw [own]; exact .refl _
      created := fun r hr => by rwa [same]
      fresh := fun r hr => by rw [same] at hr; exact .inl hr
      new := fun _ _ hr => .inl hr
      mallocs := by rw [same]; rfl }

theorem works_setThread {t : ThreadId} {f : Thread → Thread} (ht : t = (e.txn x).thread)
    (keeps : (e.thread t).SameBinding (f (e.thread t))) : Works x e (e.setThread t f) :=
  { Works.refl x e with
    steady := { (Alike.refl e).steady with threads_size := by simp }
    thread := fun u hu => by rw [thread_setThread, if_neg fun h => hu (h.1.symm.trans ht)]
    own_thread := by
      rw [thread_setThread, ← ht]
      split
      · exact keeps
      · exact .refl _ }

theorem works_setSegment {k : SegmentId} {f : Segment → Segment} (hk : k = (e.txn x).segment)
    (owner : (f (e.segment k)).owner = (e.segment k).owner)
    (size : (f (e.segment k)).nursery.size = (e.segment k).nursery.size) :
    Works x e (e.setSegment k f) :=
  { Works.refl x e with
    steady := { (Alike.refl e).steady with segments_size := by simp }
    segment := fun j hj => by
      rw [segment_setSegment, if_neg fun h => hj (h.1.symm.trans hk)]
      exact .refl _
    own_segment := by
      rw [segment_setSegment, ← hk]
      split
      · exact ⟨owner, size⟩
      · exact ⟨rfl, rfl⟩ }

theorem OnlyHeap.steady (h : OnlyHeap e e') (size : e'.arena.memory.size = e.arena.memory.size) :
    Steady e e' := by
  refine ⟨?_, ?_, ?_, ?_, ?_, ?_, ?_, ?_, ?_, size⟩ <;> rw [h]

theorem OnlyHeap.rewritten (h : OnlyHeap e e')
    (memory_size : e'.arena.memory.size = e.arena.memory.size)
    (room : ∀ r n, e'.Room r n ↔ e.Room r n)
    (word : ∀ r n i, e.Room r n → r ∉ (e.txn x).created → i < n → e'.wordAt r i = e.wordAt r i)
    (mallocs : e'.arena.mallocs = e.arena.mallocs) (frees : e'.arena.frees = e.arena.frees) :
    Works x e e' where
  steady := h.steady memory_size
  thread u _ := h.thread u
  own_thread := by rw [h.thread]; exact .refl _
  txn y _ := h.txn y
  own := by rw [h.txn]; exact .refl _
  segment k _ := by rw [h.segment]; exact .refl _
  own_segment := by rw [h.segment]; exact ⟨rfl, rfl⟩
  created q hq := by rwa [h.txn]
  fresh q hq := by rw [h.txn] at hq; exact .inl hq
  room q n hq := (room q n).2 hq
  new q n hq := .inl ((room q n).1 hq)
  word := word
  mallocs := by rw [mallocs, h.txn]
  frees := frees

theorem Overwrites.works {f : Nat → UInt64} (h : Overwrites e e' r f) (hr : r ∈ (e.txn x).created) :
    Works x e e' :=
  OnlyHeap.rewritten (by rw [OnlyHeap, h.tables]) h.memory_size h.room
    (fun q n i hq hc hi => h.other q n i hq hi fun heq => hc (heq ▸ hr)) h.mallocs h.frees

theorem OnlyHeap.works (h : OnlyHeap e e') (keeps : e.arena.SamePayloads e'.arena) : Works x e e' :=
  h.rewritten keeps.memory_size (fun q => keeps.live q.bits)
    (fun _ n i hq _ hi => keeps.kept _ n i hq hi) keeps.mallocs keeps.frees

theorem works_alloc (h : OnlyHeap e e') (takes : e.arena.Takes e'.arena r.bits n)
    (hx : x < e.txns.size) (allocated : ∀ q ∈ (e.txn x).created, e.Allocated q) :
    Works x e (e'.setTxn x (·.noteCreated r)) ∧
      ((e'.setTxn x (·.noteCreated r)).txn x).created = (e.txn x).created.push r := by
  have gone : ¬ e.Allocated r := fun ⟨m, hm⟩ => takes.fresh m hm
  have absent : (e.txn x).created.contains r = false := by
    rw [Bool.eq_false_iff, ne_eq, Array.contains_iff_mem]
    exact fun hr => gone (allocated r hr)
  have size : e'.txns.size = e.txns.size := by rw [h]
  have own : (e'.setTxn x (·.noteCreated r)).txn x =
      { e.txn x with created := (e.txn x).created.push r } := by
    rw [txn_setTxn, if_pos ⟨rfl, by rwa [size]⟩, h.txn, Txn.noteCreated, absent]
    rfl
  have created : ((e'.setTxn x (·.noteCreated r)).txn x).created = (e.txn x).created.push r := by
    rw [own]
  refine ⟨?_, created⟩
  exact
    { steady := { h.steady takes.memory_size with txns_size := by simp [size] }
      thread := fun u _ => h.thread u
      own_thread := by rw [thread_setTxn, h.thread]; exact .refl _
      txn := fun y hy => by rw [txn_setTxn, if_neg fun hxy => hy hxy.1.symm, h.txn]
      own := by rw [own]; exact ⟨rfl, rfl, rfl, rfl, rfl, rfl, fun _ hp => hp⟩
      segment := fun k _ => by rw [segment_setTxn, h.segment]; exact .refl _
      own_segment := by rw [segment_setTxn, h.segment]; exact ⟨rfl, rfl⟩
      created := fun q hq => by rw [created]; exact Array.mem_push_of_mem _ hq
      fresh := fun q hq => by
        rw [created, Array.mem_push] at hq
        obtain hq | rfl := hq
        · exact .inl hq
        · exact .inr gone
      room := fun q m hq => (takes.live _ m).2 (.inl hq)
      new := fun q m hq => by
        obtain hq | ⟨hq, -⟩ := (takes.live _ m).1 hq
        · exact .inl hq
        · rw [created]
          exact .inr (by rw [show q = r from congrArg Ref.mk hq]; exact Array.mem_push_self)
      word := fun q m i hq _ hi => takes.kept _ m i hq hi
      mallocs := by
        rw [created, Array.size_push, setTxn_arena, takes.mallocs, UInt64.ofNat_add,
          UInt64.add_assoc,
          UInt64.add_comm 1]
        rfl
      frees := takes.frees }

end Kinds

section Keeping
variable {y : TxnId} {t : ThreadId} {k : SegmentId}

theorem LifeOk.distinct (h : e.LifeOk) (hx : e.Active x) (hy : e.Active y) (hne : y ≠ x) :
    (e.txn y).thread ≠ (e.txn x).thread ∧ (e.txn y).segment ≠ (e.txn x).segment := by
  have ofThread : (e.txn y).thread ≠ (e.txn x).thread := by
    intro heq
    have both := h.thread y hy
    rw [heq, h.thread x hx] at both
    exact hne (Option.some.inj both).symm
  refine ⟨ofThread, fun heq => ofThread ?_⟩
  have owner := h.owned hy
  rw [heq, h.owned hx] at owner
  exact (Option.some.inj owner).symm

namespace Works
section
variable (h : Works x e e')
include h

theorem phase (y : TxnId) :
    (e'.txn y).phase = (e.txn y).phase ∧ (e'.txn y).thread = (e.txn y).thread ∧
      (e'.txn y).segment = (e.txn y).segment := by
  by_cases hy : y = x
  · subst hy
    exact ⟨h.own.phase, h.own.thread, h.own.segment⟩
  · rw [h.txn y hy]
    exact ⟨rfl, rfl, rfl⟩

theorem active (y : TxnId) : e'.Active y ↔ e.Active y := by
  rw [Active, Active, (h.phase y).1]

theorem sameBinding_thread (u : ThreadId) : (e.thread u).SameBinding (e'.thread u) := by
  by_cases hu : u = (e.txn x).thread
  · rw [hu]
    exact h.own_thread
  · rw [h.thread u hu]
    exact .refl _

theorem owner (k : SegmentId) : (e'.segment k).owner = (e.segment k).owner := by
  by_cases hk : k = (e.txn x).segment
  · rw [hk]
    exact h.own_segment.1
  · exact (h.segment k hk).owner

theorem shared (r : Ref) : e'.Shared r ↔ e.Shared r := by
  constructor
  · rintro ⟨⟨n, hn⟩, shared⟩
    have back : ¬ e.Private r := by
      rintro ⟨y, hr⟩
      by_cases hy : y = x
      · exact shared ⟨x, h.created r (hy ▸ hr)⟩
      · exact shared ⟨y, by rwa [h.txn y hy]⟩
    obtain hr | hr := h.new r n hn
    · exact ⟨⟨n, hr⟩, back⟩
    · exact absurd ⟨x, hr⟩ shared
  · rintro ⟨⟨n, hn⟩, shared⟩
    refine ⟨⟨n, h.room r n hn⟩, ?_⟩
    rintro ⟨y, hr⟩
    by_cases hy : y = x
    · subst hy
      exact (h.fresh r hr).elim (fun hr => shared ⟨y, hr⟩) fun gone => gone ⟨n, hn⟩
    · exact shared ⟨y, by rwa [← h.txn y hy]⟩

theorem shared_word {i : Nat} (shared : e.Shared r) (hr : e.Room r n) (hi : i < n) :
    e'.wordAt r i = e.wordAt r i :=
  h.word r n i hr (fun hc => shared.2 ⟨x, hc⟩) hi

theorem shared_header (good : e.arena.Good) (shared : e.Shared r) :
    e'.wordAt r 0 = e.wordAt r 0 := by
  obtain ⟨n, hn⟩ := shared.1
  have bounds := room_bounds good hn
  exact h.shared_word shared hn (by omega)

theorem shared_version (good : e.arena.Good) (shared : e.Shared r) :
    e'.version r = e.version r := by
  rw [version, version, h.shared_header good shared]

theorem allocated : e.Allocated r → e'.Allocated r := fun ⟨n, hn⟩ => ⟨n, h.room r n hn⟩

theorem other (good : e.arena.Good) (ok : e.TxnOk y) (hy : y ≠ x)
    (hseg : (e.txn y).segment ≠ (e.txn x).segment) : e'.TxnOk y := by
  refine ok.carry (.of_eq (h.txn y hy)) (h.segment _ hseg).blanks (fun r hr _ => (h.shared r).2 hr)
    (fun r n hn _ _ => h.room r n hn) (fun z hz r hr hr' => ?_) h.steady.clock fun r hr _ =>
      h.shared_version good hr
  by_cases hzx : z = x
  · subst hzx
    exact (h.fresh r hr').elim (ok.apart z hz r hr) fun gone => gone (ok.created r hr)
  · rw [h.txn z hzx] at hr'
    exact ok.apart z hz r hr hr'

theorem life (ok : e.LifeOk) (hx : e.Active x) : e'.LifeOk := by
  refine ok.congr (fun t => ?_) (fun y => ?_) h.owner
    (fun k hk => ok.free_blanks (h.segment k ?_).blanks hk) fun y => ?_
  · exact ⟨(h.sameBinding_thread t).txn, (h.sameBinding_thread t).segment,
      fun _ => (h.sameBinding_thread t).registered⟩
  · exact ⟨(h.phase y).2.1, (h.phase y).2.2, h.active y,
      fun hy => by rw [h.txn y fun heq => hy (heq ▸ hx)]⟩
  · rintro rfl
    rw [h.owner, ok.owned hx] at hk
    cases hk
  · rw [h.steady.inevitable, (h.phase y).1]
    exact ok.inevitable y

theorem heap (ok : e.HeapOk) (good : e'.arena.Good) : e'.HeapOk where
  good := good
  small := by rw [h.steady.memory_size]; exact ok.small
  even := by rw [h.steady.memory_size]; exact ok.even
  clock := by rw [h.steady.clock]; exact ok.clock
  header r hr := by
    rw [h.shared] at hr
    rw [h.shared_header ok.good hr, h.shared_version ok.good hr, h.steady.clock]
    exact ok.header r hr
  weakrefs := by
    simp only [h.steady.weakrefs, h.shared]
    exact ok.weakrefs

theorem usable (ok : e.LifeOk) (hx : e.Active x) (ht : t ≠ (e.txn x).thread)
    (hr : e.Usable t r) : e'.Usable t r := by
  obtain rfl | shared | ⟨y, hy, own⟩ := hr
  · exact .inl rfl
  · exact .inr (.inl ((h.shared r).2 shared))
  · obtain ⟨active, thread, -, -⟩ := ok.txn t y hy
    have hne : y ≠ x := by
      rintro rfl
      exact ht thread.symm
    have apart := ok.distinct hx active hne
    refine .inr (.inr ⟨y, by rwa [h.thread t ht], ?_⟩)
    rwa [h.txn y hne, Young, (h.segment _ apart.2).objects]

theorem weakOk (ok : e.LifeOk) (hx : e.Active x) (hk : k ≠ (e.txn x).segment)
    (weak : e.WeakOk k) : e'.WeakOk k := by
  intro w hw
  rw [(h.segment k hk).weakrefs] at hw
  obtain ⟨t, y, owner, hy, own⟩ := weak w hw
  have seg := ok.owner k t owner
  obtain ⟨-, -, seg', -⟩ := ok.txn t y hy
  have hne : y ≠ x := by
    rintro rfl
    rw [seg] at seg'
    exact hk (Option.some.inj seg')
  refine ⟨t, y, by rw [h.owner, owner], by rw [(h.sameBinding_thread t).txn, hy], ?_⟩
  rwa [h.txn y hne, Young, (h.segment k hk).objects]

end
end Works

/-- Work leaves the transaction in order if it read what is shared at its read version, copied what
it read, and created what is allocated. -/
theorem Works.txnOk (h : Works x e e') (ok : e.Core) (hx : e.Active x)
    (reads : ∀ r v, (r, v) ∈ (e'.txn x).reads → (r, v) ∈ (e.txn x).reads ∨
      e.Shared r ∧ v = e.version r ∧ v ≤ (e.txn x).readVersion)
    (writes : ∀ r c, (r, c) ∈ (e'.txn x).writes →
      (∃ v, (r, v) ∈ (e'.txn x).reads) ∧ 2 ≤ c.size ∧ ∃ n, e.Room r n ∧ c.size ≤ n)
    (keys : ((e'.txn x).writes.toList.map (·.1)).Nodup)
    (created : ∀ r ∈ (e'.txn x).created, e'.Allocated r) (nodup : (e'.txn x).created.toList.Nodup)
    (nursery : NurseryOk (e'.segment (e.txn x).segment) (e'.txn x).created) : e'.TxnOk x := by
  have own := ok.txns x hx
  have version := fun r => h.shared_version ok.heap.good (r := r)
  exact
    { reads := fun r v hr => by
        rw [h.shared, h.own.readVersion]
        obtain hr | ⟨shared, rfl, bound⟩ := reads r v hr
        · obtain ⟨shared, old, bound⟩ := own.reads r v hr
          rw [version r shared]
          exact ⟨shared, old, bound⟩
        · rw [version r shared]
          exact ⟨shared, UInt64.le_refl _, bound⟩
      writes := fun r c hr => by
        obtain ⟨read, least, n, hn, most⟩ := writes r c hr
        exact ⟨read, least, n, h.room r n hn, most⟩
      keys := keys
      created := created
      nodup := nodup
      apart := fun z hz r hr hr' => by
        rw [h.txn z hz] at hr'
        have allocated : e.Allocated r := by
          by_cases active : e.Active z
          · exact (ok.txns z active).created r hr'
          · rw [ok.life.ended z active] at hr'
            exact absurd hr' (Array.not_mem_empty r)
        obtain hr | gone := h.fresh r hr
        · exact own.apart z hz r hr hr'
        · exact gone allocated
      start := fun r hr => by
        rw [h.own.stackAtBegin] at hr
        rw [h.shared]
        exact own.start r hr
      readVersion := by
        rw [h.own.readVersion, h.steady.clock]
        exact own.readVersion
      inevitable := fun hp => by
        rw [h.own.phase] at hp
        rw [h.own.readVersion, h.steady.clock]
        refine ⟨(own.inevitable hp).1, fun r v hr => ?_⟩
        obtain hr | ⟨shared, rfl, -⟩ := reads r v hr
        · rw [version r (own.reads r v hr).1]
          exact (own.inevitable hp).2 r v hr
        · exact (version r shared).symm
      nursery := by
        rw [h.own.segment]
        exact nursery }

theorem Core.works (h : e.Core) (work : Works x e e') (hx : e.Active x) (good : e'.arena.Good)
    (own : e'.TxnOk x)
    (stack : ∀ r ∈ (e'.thread (e.txn x).thread).stack, e'.Usable (e.txn x).thread r) : e'.Core where
  heap := work.heap h.heap good
  life := work.life h.life hx
  txns y hy := by
    by_cases hne : y = x
    · exact hne ▸ own
    · have hy' := (work.active y).1 hy
      exact work.other h.heap.good (h.txns y hy') hne (h.life.distinct hx hy' hne).2
  stackOk t ht r hr := by
    by_cases hne : t = (e.txn x).thread
    · rw [hne] at hr ⊢
      exact stack r hr
    · rw [work.thread t hne] at ht hr
      exact work.usable h.life hx hne (h.stackOk t ht r hr)
  segments := by rw [work.steady.segments_size]; exact h.segments
  honest := by rw [work.steady.layout]; exact h.honest

end Keeping
end Engine

variable {c : Array UInt64} {writes writes' : Array (Ref × Array UInt64)}

theorem Txn.copyOf?_eq_some {tx : Txn} (keys : (tx.writes.toList.map (·.1)).Nodup) {r : Ref} :
    tx.copyOf? r = some c ↔ (r, c) ∈ tx.writes := by
  rw [copyOf?, Option.map_eq_some_iff]
  constructor
  · rintro ⟨⟨q, d⟩, found, rfl⟩
    have key := Array.find?_some found
    rw [← eq_of_beq key]
    exact Array.mem_of_find?_eq_some found
  · intro hc
    obtain ⟨p, found⟩ := Option.isSome_iff_exists.1
      (Array.find?_isSome.2 ⟨(r, c), hc, beq_self_eq_true r⟩ : (tx.writes.find? (·.1 == r)).isSome)
    have key := Array.find?_some found
    have same := List.inj_on_of_nodup_map keys
      (Array.mem_toList_iff.2 (Array.mem_of_find?_eq_some found)) (Array.mem_toList_iff.2 hc)
        (eq_of_beq key)
    exact ⟨p, found, by rw [same]⟩

namespace Engine

structure Serves (x : TxnId) (e e' : Engine) : Prop where
  works : Works x e e'
  core : e'.Core
  locked : e'.locked = e.locked

variable {e e' e'' : Engine} {x : TxnId}

namespace Serves

theorem refl (x : TxnId) (ok : e.Core) : Serves x e e := ⟨.refl x e, ok, rfl⟩

theorem trans (h : Serves x e e') (h' : Serves x e' e'') : Serves x e e'' :=
  ⟨h.works.trans h'.works, h'.core, h'.locked.trans h.locked⟩

theorem active (h : Serves x e e') (hx : e.Active x) : e'.Active x := (h.works.active x).2 hx

end Serves

theorem Alike.serves (h : Alike e e') (ok : e.Core) (locked : e'.locked = e.locked) :
    Serves x e e' :=
  ⟨h.works, ok.alike h, locked⟩

theorem Works.own_usable (h : Works x e e') (ok : e.LifeOk) (hx : e.Active x)
    (objects : ∀ o ∈ (e.segment (e.txn x).segment).objects, o ∈
      (e'.segment (e.txn x).segment).objects)
    (hr : e.Usable (e.txn x).thread r) : e'.Usable (e.txn x).thread r := by
  obtain rfl | shared | ⟨y, hy, own⟩ := hr
  · exact .inl rfl
  · exact .inr (.inl ((h.shared r).2 shared))
  · rw [ok.thread x hx] at hy
    cases hy
    refine .inr (.inr ⟨x, by rw [h.own_thread.txn, ok.thread x hx], ?_⟩)
    rw [h.own.segment]
    exact own.imp (h.created r) fun young => ⟨young.1, young.2.1, objects _ young.2.2⟩

theorem Core.own_usable (ok : e.Core) (hx : e.Active x) :
    ∀ r ∈ (e.thread (e.txn x).thread).stack, e.Usable (e.txn x).thread r := by
  have registered := (ok.life.txn _ x (ok.life.thread x hx)).2.2.2
  exact fun r hr => ok.stackOk _ registered r hr

theorem Works.own_weakOk (h : Works x e e') (ok : e.LifeOk) (hx : e.Active x)
    (weakrefs : ∀ w ∈ (e'.segment (e.txn x).segment).weakrefs, w ∈
      (e.segment (e.txn x).segment).weakrefs ∨
      w ∈ (e'.txn x).created ∨ e'.Young (e.txn x).segment w)
    (objects : ∀ o ∈ (e.segment (e.txn x).segment).objects, o ∈
      (e'.segment (e.txn x).segment).objects)
    (weak : e.WeakOk (e.txn x).segment) : e'.WeakOk (e.txn x).segment := by
  intro w hw
  have held := ok.thread x hx
  have owner := ok.owned hx
  refine ⟨(e.txn x).thread, x, by rw [h.own_segment.1, owner], by rw [h.own_thread.txn, held], ?_⟩
  obtain hw | own := weakrefs w hw
  · obtain ⟨t, y, owner', hy, own⟩ := weak w hw
    rw [owner, Option.some.injEq] at owner'
    rw [← owner', held, Option.some.injEq] at hy
    rw [← hy] at own
    exact own.imp (h.created w) fun young => ⟨young.1, young.2.1, objects _ young.2.2⟩
  · exact own

section
variable (h : writes'.toList.map (fun p => (p.1, p.2.size)) = writes.toList.map fun p =>
    (p.1, p.2.size))
include h

theorem mem_of_sizes (hr : (r, c) ∈ writes') : ∃ d, (r, d) ∈ writes ∧ d.size = c.size := by
  have hmem : (r, c.size) ∈ writes'.toList.map fun p => (p.1, p.2.size) :=
    List.mem_map.2 ⟨(r, c), Array.mem_toList_iff.2 hr, rfl⟩
  rw [h, List.mem_map] at hmem
  obtain ⟨⟨q, d⟩, hd, heq⟩ := hmem
  obtain ⟨rfl, hsize⟩ := Prod.mk.inj heq
  exact ⟨d, Array.mem_toList_iff.1 hd, hsize⟩

theorem keys_of_sizes : writes'.toList.map (·.1) = writes.toList.map (·.1) := by
  have pairs := congrArg (List.map Prod.fst) h
  rwa [List.map_map, List.map_map] at pairs

end

theorem Works.serves (h : Works x e e') (ok : e.Core) (hx : e.Active x) (good : e'.arena.Good)
    (reads : (e'.txn x).reads = (e.txn x).reads)
    (writes : (e'.txn x).writes.toList.map (fun p => (p.1, p.2.size)) =
      (e.txn x).writes.toList.map fun p => (p.1, p.2.size))
    (created : ∀ r ∈ (e'.txn x).created, e'.Allocated r) (nodup : (e'.txn x).created.toList.Nodup)
    (nursery : NurseryOk (e'.segment (e.txn x).segment) (e'.txn x).created)
    (stack : ∀ r ∈ (e'.thread (e.txn x).thread).stack, e'.Usable (e.txn x).thread r)
    (locked : e'.locked = e.locked) : Serves x e e' := by
  have own := ok.txns x hx
  have own' : e'.TxnOk x := by
    refine h.txnOk ok hx (fun r v hr => .inl (reads ▸ hr))
      (fun r c hr => ?_) ?_ created nodup nursery
    · obtain ⟨d, hd, hsize⟩ := mem_of_sizes writes hr
      rw [reads, ← hsize]
      exact own.writes r d hd
    · rw [keys_of_sizes writes]
      exact own.keys
  exact ⟨h, ok.works h hx good own' stack, locked⟩

section Kinds
variable (ok : e.Core) (hx : e.Active x)
include ok hx

theorem serves_copyWord (r : Ref) (i : Nat) (v : UInt64) :
    Serves x e (e.setTxn x (·.setCopyWord r i v)) := by
  have own := ok.txns x hx
  have record : (e.setTxn x (·.setCopyWord r i v)).txn x = (e.txn x).setCopyWord r i v := by
    rw [txn_setTxn, if_pos ⟨rfl, active_lt hx⟩]
  have works : Works x e (e.setTxn x (·.setCopyWord r i v)) :=
    works_setTxn ⟨rfl, rfl, rfl, rfl, rfl, rfl, fun _ hp => hp⟩ rfl
  refine works.serves ok hx ok.heap.good ?_ ?_ ?_ ?_ ?_ ?_ rfl
  · rw [record]
    rfl
  · rw [record]
    simp only [Txn.setCopyWord, Array.toList_map, List.map_map]
    refine List.map_congr_left fun p _ => ?_
    simp only [Function.comp]
    split
    · simp
    · rfl
  · rw [record]
    exact fun q hq => works.allocated (own.created q hq)
  · rw [record]
    exact own.nodup
  · rw [record]
    exact own.nursery
  · exact fun q hq => works.own_usable ok.life hx (fun _ ho => ho) (ok.own_usable hx q hq)

theorem serves_setTxn {f : Txn → Txn} (keeps : (e.txn x).Continues (f (e.txn x)))
    (created : (f (e.txn x)).created = (e.txn x).created)
    (reads : ∀ r v, (r, v) ∈ (f (e.txn x)).reads → (r, v) ∈ (e.txn x).reads ∨
      e.Shared r ∧ v = e.version r ∧ v ≤ (e.txn x).readVersion)
    (writes : ∀ r c, (r, c) ∈ (f (e.txn x)).writes →
      (∃ v, (r, v) ∈ (f (e.txn x)).reads) ∧ 2 ≤ c.size ∧ ∃ n, e.Room r n ∧ c.size ≤ n)
    (keys : ((f (e.txn x)).writes.toList.map (·.1)).Nodup) : Serves x e (e.setTxn x f) := by
  have own := ok.txns x hx
  have record : (e.setTxn x f).txn x = f (e.txn x) := by
    rw [txn_setTxn, if_pos ⟨rfl, active_lt hx⟩]
  have works := works_setTxn keeps created
  have own' : (e.setTxn x f).TxnOk x := by
    refine works.txnOk ok hx ?_ ?_ ?_ ?_ ?_ ?_
    · rwa [record]
    · rwa [record]
    · rwa [record]
    · rw [record, created]
      exact fun q hq => works.allocated (own.created q hq)
    · rw [record, created]
      exact own.nodup
    · rw [record, created]
      exact own.nursery
  refine ⟨works, ok.works works hx ok.heap.good own' fun q hq => ?_, rfl⟩
  exact works.own_usable ok.life hx (fun _ ho => ho) (ok.own_usable hx q hq)

theorem segment_lt : (e.txn x).segment < e.segments.size := by
  have owner := ok.life.owned hx
  refine not_not.1 fun hlt => ?_
  rw [segment, getD_out (Nat.le_of_not_lt hlt)] at owner
  cases owner

theorem serves_nurseryWord {j : Nat} {v : UInt64}
    (hj : j < (e.segment (e.txn x).segment).used.toNat / 8)
    (header : ∀ o ∈ (e.segment (e.txn x).segment).objects, o.toNat / 8 = j →
      ∃ r ∈ (e.txn x).created, v = Ref.forwardedBit ||| r.bits) :
    Serves x e (e.setSegment (e.txn x).segment fun g =>
      { g with nursery := g.nursery.write j v }) := by
  have own := ok.txns x hx
  have nursery := own.nursery
  have works : Works x e
      (e.setSegment (e.txn x).segment fun g => { g with nursery := g.nursery.write j v }) :=
    works_setSegment rfl rfl (by simp)
  have here : (e.setSegment (e.txn x).segment fun g =>
    { g with nursery := g.nursery.write j v }).segment
      (e.txn x).segment =
      { e.segment (e.txn x).segment with
        nursery := (e.segment (e.txn x).segment).nursery.write j v } := by
    rw [segment_setSegment, if_pos ⟨rfl, segment_lt ok hx⟩]
  refine works.serves ok hx ok.heap.good rfl rfl (fun q hq => own.created q hq) own.nodup ?_ ?_ rfl
  · rw [here]
    refine ⟨nursery.aligned, by simpa using nursery.fits, by simpa using nursery.small,
      nursery.object,
      fun i hi => ?_, fun o ho => ?_⟩
    · have hi' : (e.segment (e.txn x).segment).used.toNat / 8 ≤ i := hi
      rw [Memory.word_write, if_neg (by omega)]
      exact nursery.rest i hi
    · rw [Memory.word_write]
      split
      · next h => exact .inr (header o ho h.1.symm)
      · exact nursery.header o ho
  · refine fun q hq => works.own_usable ok.life hx (fun o ho => ?_) (ok.own_usable hx q hq)
    rwa [here]

theorem Works.serves_heap (works : Works x e e') (h : OnlyHeap e e') (good : e'.arena.Good) :
    Serves x e e' := by
  have own := ok.txns x hx
  refine works.serves ok hx good ?_ ?_ ?_ ?_ ?_ ?_ (by rw [h])
  · rw [h.txn]
  · rw [h.txn]
  · rw [h.txn]
    exact fun q hq => works.allocated (own.created q hq)
  · rw [h.txn]
    exact own.nodup
  · rw [h.txn, h.segment]
    exact own.nursery
  · rw [h.thread]
    exact fun q hq => works.own_usable ok.life hx (by rw [h.segment]; exact fun _ ho => ho)
      (ok.own_usable hx q hq)

theorem Overwrites.serves {f : Nat → UInt64} (h : Overwrites e e' r f)
    (hr : r ∈ (e.txn x).created) :
    Serves x e e' := (h.works hr).serves_heap ok hx (by rw [OnlyHeap, h.tables]) h.good

theorem OnlyHeap.serves (h : OnlyHeap e e') (keeps : e.arena.SamePayloads e'.arena)
    (good : e'.arena.Good) :
    Serves x e e' := Works.serves_heap ok hx (h.works keeps) h good

theorem serves_alloc {n : Nat} (h : OnlyHeap e e') (takes : e.arena.Takes e'.arena r.bits n)
    (good : e'.arena.Good) :
    Serves x e (e'.setTxn x (·.noteCreated r)) ∧
      ((e'.setTxn x (·.noteCreated r)).txn x).created = (e.txn x).created.push r := by
  have own := ok.txns x hx
  obtain ⟨works, created⟩ := works_alloc h takes (active_lt hx) own.created
  refine ⟨?_, created⟩
  have size : e'.txns.size = e.txns.size := by rw [h]
  have record : (e'.setTxn x (·.noteCreated r)).txn x = (e.txn x).noteCreated r := by
    rw [txn_setTxn, if_pos ⟨rfl, by rw [size]; exact active_lt hx⟩, h.txn]
  have same : ((e.txn x).noteCreated r).reads = (e.txn x).reads ∧
      ((e.txn x).noteCreated r).writes = (e.txn x).writes := by
    unfold Txn.noteCreated
    split
    · exact ⟨rfl, rfl⟩
    · exact ⟨rfl, rfl⟩
  refine works.serves ok hx good ?_ ?_ ?_ ?_ ?_ ?_ (by rw [setTxn_locked, h])
  · rw [record, same.1]
  · rw [record, same.2]
  · rw [created]
    intro q hq
    obtain hq | rfl := Array.mem_push.1 hq
    · exact works.allocated (own.created q hq)
    · exact ⟨n, (takes.live _ n).2 (.inr ⟨rfl, rfl⟩)⟩
  · rw [created, Array.toList_push]
    refine List.nodup_append.2 ⟨own.nodup, by simp, ?_⟩
    intro q hq q' hq' heq
    rw [List.mem_singleton.1 hq'] at heq
    obtain ⟨m, hm⟩ := own.created q (Array.mem_toList_iff.1 hq)
    exact takes.fresh m (heq ▸ hm)
  · rw [created, segment_setTxn, h.segment]
    refine { own.nursery with header := fun o ho => ?_ }
    exact (own.nursery.header o ho).imp id fun ⟨q, hq, heq⟩ => ⟨q, Array.mem_push_of_mem _ hq, heq⟩
  · rw [thread_setTxn, h.thread]
    exact fun q hq => works.own_usable ok.life hx
      (by rw [segment_setTxn, h.segment]; exact fun _ ho => ho)
      (ok.own_usable hx q hq)

theorem serves_weakrefs (weakrefs : Segment → Array Ref) :
    Serves x e (e.setSegment (e.txn x).segment fun s => { s with weakrefs := weakrefs s }) := by
  have own := ok.txns x hx
  have works : Works x e (e.setSegment (e.txn x).segment fun s =>
    { s with weakrefs := weakrefs s }) :=
    works_setSegment rfl rfl rfl
  have here := segment_setSegment e (e.txn x).segment (e.txn x).segment fun s =>
    { s with weakrefs := weakrefs s }
  rw [if_pos ⟨rfl, segment_lt ok hx⟩] at here
  refine works.serves ok hx ok.heap.good rfl rfl (fun q hq => own.created q hq) own.nodup ?_ ?_ rfl
  · rw [here]
    exact own.nursery.congr rfl rfl rfl
  · exact fun q hq => works.own_usable ok.life hx (by rw [here]; exact fun _ ho => ho)
      (ok.own_usable hx q hq)

theorem thread_lt : (e.txn x).thread < e.threads.size := by
  have held := ok.life.thread x hx
  refine not_not.1 fun hlt => ?_
  rw [thread, getD_out (Nat.le_of_not_lt hlt)] at held
  cases held

theorem serves_thread {f : Thread → Thread}
    (keeps : (e.thread (e.txn x).thread).SameBinding (f (e.thread (e.txn x).thread)))
    (usable : ∀ r ∈ (f (e.thread (e.txn x).thread)).stack, e.Usable (e.txn x).thread r) :
    Serves x e (e.setThread (e.txn x).thread f) := by
  have own := ok.txns x hx
  have works := works_setThread rfl keeps
  refine works.serves ok hx ok.heap.good rfl rfl
    (fun q hq => own.created q hq) own.nodup own.nursery ?_ rfl
  intro q hq
  rw [thread_setThread] at hq
  refine works.own_usable ok.life hx (fun _ ho => ho) ?_
  split at hq
  · exact usable q hq
  · exact ok.own_usable hx q hq

end Kinds
end Engine
end TxHeap
