import TxHeap.Proofs.Engine.Work

/-! Transactions abort and commit. Either lets the thread and the segment go; an abort frees what
was created, a commit shares it. Both keep everything in order. -/

namespace TxHeap

theorem versionOf_headerFor {v : UInt64} (h : v.toNat < 2 ^ 63) : versionOf (headerFor v) = v := by
  apply UInt64.toNat.inj
  rw [versionOf, headerFor, UInt64.toNat_shiftRight, UInt64.toNat_shiftLeft]
  simp only [UInt64.reduceToNat, Nat.shiftLeft_eq, Nat.shiftRight_eq_div_pow, Nat.reduceMod,
    Nat.pow_one]
  omega

namespace Engine
variable {e e' : Engine} {x y : TxnId} {t : ThreadId} {r : Ref}

/-- The transaction `x` ends: its thread and its segment, left empty, are let go. -/
structure Leaves (x : TxnId) (phase : Phase) (e e' : Engine) : Prop where
  settings : e'.settings = e.settings
  layout : e'.layout = e.layout
  prebuilt : e'.prebuilt = e.prebuilt
  threads_size : e'.threads.size = e.threads.size
  txns_size : e'.txns.size = e.txns.size
  segments_size : e'.segments.size = e.segments.size
  memory_size : e'.arena.memory.size = e.arena.memory.size
  inevitable : ∀ y, e'.inevitable = some y ↔ e.inevitable = some y ∧ y ≠ x
  thread : ∀ u, u ≠ (e.txn x).thread → e'.thread u = e.thread u
  own_thread : (e'.thread (e.txn x).thread).txn = none ∧
    (e'.thread (e.txn x).thread).segment = none ∧
    (e'.thread (e.txn x).thread).registered = (e.thread (e.txn x).thread).registered ∧
    (e'.thread (e.txn x).thread).onAbort = .empty ∧ (e'.thread (e.txn x).thread).onCommit = .empty
  txn : ∀ y, y ≠ x → e'.txn y = e.txn y
  own : (e'.txn x).phase = phase ∧ (e'.txn x).created = #[]
  segment : ∀ k, k ≠ (e.txn x).segment → (e.segment k).Alike (e'.segment k)
  own_owner : (e'.segment (e.txn x).segment).owner = none
  own_used : (e'.segment (e.txn x).segment).used = 0
  own_objects : (e'.segment (e.txn x).segment).objects = #[]
  own_weakrefs : (e'.segment (e.txn x).segment).weakrefs = #[]
  own_nursery : (e'.segment (e.txn x).segment).nursery.size =
    (e.segment (e.txn x).segment).nursery.size ∧
    ∀ i, (e'.segment (e.txn x).segment).nursery.word i = 0

namespace Leaves
variable {phase : Phase}

theorem active (h : Leaves x phase e e') (hp : phase.isActive = false) (y : TxnId) :
    e'.Active y ↔ e.Active y ∧ y ≠ x := by
  by_cases hy : y = x
  · subst hy
    simp [Active, h.own.1, hp]
  · simp [Active, h.txn y hy, hy]

theorem apart (h : Leaves x phase e e') (own : e.TxnOk y) (z : TxnId) (hz : z ≠ y) (r : Ref)
    (hr : r ∈ (e.txn y).created) :
    r ∉ (e'.txn z).created := by
  by_cases hzx : z = x
  · rw [hzx, h.own.2]
    exact Array.not_mem_empty r
  · rw [h.txn z hzx]
    exact own.apart z hz r hr

section
variable (h : Leaves x phase e e') (ok : e.LifeOk) (hx : e.Active x)
include h ok hx

theorem life (own : e.TxnOk x) (hp : phase.isActive = false) : e'.LifeOk where
  txn t y hy := by
    have ht : t ≠ (e.txn x).thread := by
      rintro rfl
      rw [h.own_thread.1] at hy
      cases hy
    rw [h.thread t ht] at hy ⊢
    obtain ⟨active, thread, segment, registered⟩ := ok.txn t y hy
    have hne : y ≠ x := by
      rintro rfl
      exact ht thread.symm
    rw [h.txn y hne]
    exact ⟨(h.active hp y).2 ⟨active, hne⟩, thread, segment, registered⟩
  thread y hy := by
    obtain ⟨active, hne⟩ := (h.active hp y).1 hy
    rw [h.txn y hne, h.thread _ (ok.distinct hx active hne).1]
    exact ok.thread y active
  holds t k hk := by
    have ht : t ≠ (e.txn x).thread := by
      rintro rfl
      rw [h.own_thread.2.1] at hk
      cases hk
    rw [h.thread t ht] at hk ⊢
    obtain ⟨some, owner⟩ := ok.holds t k hk
    have hne : k ≠ (e.txn x).segment := by
      rintro rfl
      rw [ok.owned hx] at owner
      exact ht (Option.some.inj owner).symm
    exact ⟨some, (h.segment k hne).owner.trans owner⟩
  owner k t hk := by
    have hne : k ≠ (e.txn x).segment := by
      rintro rfl
      rw [h.own_owner] at hk
      cases hk
    rw [(h.segment k hne).owner] at hk
    have seg := ok.owner k t hk
    have ht : t ≠ (e.txn x).thread := by
      rintro rfl
      rw [(ok.txn _ _ (ok.thread x hx)).2.2.1] at seg
      exact hne (Option.some.inj seg).symm
    rwa [h.thread t ht]
  free k hk := by
    by_cases hne : k = (e.txn x).segment
    · rw [hne, h.own_used, h.own_objects, h.own_weakrefs]
      refine ⟨rfl, rfl, rfl, ?_⟩
      refine ⟨by simp [h.own_used], by simp [h.own_used], ?_, by simp [h.own_objects],
        fun i _ => h.own_nursery.2 i, by simp [h.own_objects]⟩
      rw [h.own_nursery.1]
      exact own.nursery.small
    · exact ok.free_blanks (h.segment k hne).blanks hk
  ended y hy := by
    by_cases hne : y = x
    · rw [hne]
      exact h.own.2
    · rw [h.txn y hne]
      exact ok.ended y fun hy' => hy ((h.active hp y).2 ⟨hy', hne⟩)
  inevitable y := by
    rw [h.inevitable, ok.inevitable]
    by_cases hne : y = x
    · subst hne
      rw [h.own.1]
      constructor
      · intro hy
        exact absurd rfl hy.2
      · intro hy
        rw [hy] at hp
        cases hp
    · rw [h.txn y hne]
      simp [hne]

theorem usable (shared : ∀ r, e.Shared r → e'.Shared r) (ht : t ≠ (e.txn x).thread)
    (hr : e.Usable t r) :
    e'.Usable t r := by
  obtain rfl | hs | ⟨y, hy, own⟩ := hr
  · exact .inl rfl
  · exact .inr (.inl (shared r hs))
  · obtain ⟨active, thread, -, -⟩ := ok.txn t y hy
    have hne : y ≠ x := by
      rintro rfl
      exact ht thread.symm
    refine .inr (.inr ⟨y, by rwa [h.thread t ht], ?_⟩)
    rwa [h.txn y hne, Young, (h.segment _ (ok.distinct hx active hne).2).objects]

theorem weakOk {k : SegmentId} (weak : e.WeakOk k) : e'.WeakOk k := by
  intro w hw
  have hk : k ≠ (e.txn x).segment := by
    rintro rfl
    rw [h.own_weakrefs] at hw
    simp at hw
  rw [(h.segment k hk).weakrefs] at hw
  obtain ⟨t, y, owner, hy, own⟩ := weak w hw
  have seg := ok.owner k t owner
  obtain ⟨active, thread, seg', -⟩ := ok.txn t y hy
  have hne : y ≠ x := by
    rintro rfl
    rw [seg] at seg'
    exact hk (Option.some.inj seg')
  have ht := thread ▸ (ok.distinct hx active hne).1
  refine ⟨t, y, by rw [(h.segment k hk).owner, owner], by rw [h.thread t ht, hy], ?_⟩
  rwa [h.txn y hne, Young, (h.segment k hk).objects]

end
end Leaves

/-- The transaction `x` aborts. What it created is freed and nothing else of the heap changes. -/
structure Aborts (x : TxnId) (e e' : Engine) : Prop where
  leaves : Leaves x .aborted e e'
  running : (e.txn x).phase = .running
  clock : e'.clock = e.clock
  weakrefs : e'.weakrefs = e.weakrefs
  stack : (e'.thread (e.txn x).thread).stack = (e.txn x).stackAtBegin
  good : e'.arena.Good
  room : ∀ r n, e'.Room r n ↔ e.Room r n ∧ r ∉ (e.txn x).created
  word : ∀ r n i, e'.Room r n → i < n → e'.wordAt r i = e.wordAt r i
  mallocs : e'.arena.mallocs = e.arena.mallocs
  frees : e'.arena.frees = e.arena.frees + UInt64.ofNat (e.txn x).created.size

namespace Aborts
section
variable (h : Aborts x e e')
include h

theorem active : e.Active x := by
  rw [Active, h.running]
  rfl

theorem shared (r : Ref) : e'.Shared r ↔ e.Shared r := by
  constructor
  · rintro ⟨⟨n, hn⟩, shared⟩
    obtain ⟨hr, hc⟩ := (h.room r n).1 hn
    refine ⟨⟨n, hr⟩, ?_⟩
    rintro ⟨y, hy⟩
    by_cases hne : y = x
    · exact hc (hne ▸ hy)
    · exact shared ⟨y, by rwa [h.leaves.txn y hne]⟩
  · rintro ⟨⟨n, hn⟩, shared⟩
    refine ⟨⟨n, (h.room r n).2 ⟨hn, fun hc => shared ⟨x, hc⟩⟩⟩, ?_⟩
    rintro ⟨y, hy⟩
    by_cases hne : y = x
    · rw [hne, h.leaves.own.2] at hy
      simp at hy
    · exact shared ⟨y, by rwa [← h.leaves.txn y hne]⟩

theorem shared_header (shared : e.Shared r) : e'.wordAt r 0 = e.wordAt r 0 := by
  obtain ⟨n, hn⟩ := ((h.shared r).2 shared).1
  have bounds := room_bounds h.good hn
  exact h.word r n 0 hn (by omega)

theorem shared_version (shared : e.Shared r) : e'.version r = e.version r := by
  rw [version, version, h.shared_header shared]

theorem core (ok : e.Core) : e'.Core where
  heap :=
    { good := h.good
      small := by rw [h.leaves.memory_size]; exact ok.heap.small
      even := by rw [h.leaves.memory_size]; exact ok.heap.even
      clock := by rw [h.clock]; exact ok.heap.clock
      header := fun r hr => by
        rw [h.shared] at hr
        rw [h.shared_header hr, h.shared_version hr, h.clock]
        exact ok.heap.header r hr
      weakrefs := by
        simp only [h.weakrefs, h.shared]
        exact ok.heap.weakrefs }
  life := h.leaves.life ok.life h.active (ok.txns x h.active) rfl
  txns y hy := by
    obtain ⟨hy, hne⟩ := (h.leaves.active rfl y).1 hy
    have own := ok.txns y hy
    refine own.carry (.of_eq (h.leaves.txn y hne))
      (h.leaves.segment _ (ok.life.distinct h.active hy hne).2).blanks
      (fun r hr _ => (h.shared r).2 hr) (fun r n hn hr _ => (h.room r n).2 ⟨hn, fun hc => ?_⟩)
        (h.leaves.apart own) h.clock
      fun r hr _ => h.shared_version hr
    obtain hr | hr := hr
    · exact hr.2 ⟨x, hc⟩
    · exact own.apart x (.symm hne) r hr hc
  stackOk t ht r hr := by
    by_cases hne : t = (e.txn x).thread
    · rw [hne, h.stack] at hr
      exact ((ok.txns x h.active).start r hr).imp id fun hs => .inl ((h.shared r).2 hs)
    · rw [h.leaves.thread t hne] at ht hr
      exact h.leaves.usable ok.life h.active (fun r => (h.shared r).2) hne (ok.stackOk t ht r hr)
  segments := by rw [h.leaves.segments_size]; exact ok.segments
  honest := by rw [h.leaves.layout]; exact ok.honest

end
end Aborts

/-- The transaction `x` commits: its copies and what it created become part of the heap under the
next version. -/
structure Commits (x : TxnId) (e e' : Engine) : Prop where
  leaves : Leaves x .committed e e'
  active : e.Active x
  alone : ∀ y, e.inevitable = some y → y = x
  empty : (e.segment (e.txn x).segment).used = 0
  stack : (e'.thread (e.txn x).thread).stack = (e.thread (e.txn x).thread).stack
  clock : e'.clock =
    if (e.txn x).writes = #[] ∧ (e.txn x).created = #[] then e.clock else e.clock + 1
  weakrefs : e'.weakrefs = addWeakrefs e.weakrefs (e.segment (e.txn x).segment).weakrefs.toList
  good : e'.arena.Good
  room : ∀ r n, e'.Room r n ↔ e.Room r n
  stamped : ∀ r, (∃ c, (r, c) ∈ (e.txn x).writes) ∨ r ∈ (e.txn x).created →
    e'.wordAt r 0 = headerFor e'.clock
  copied : ∀ r c n i, (r, c) ∈ (e.txn x).writes → e.Room r n → 0 < i → i < n →
    e'.wordAt r i = if i < c.size then c.getD i 0 else e.wordAt r i
  made : ∀ r n i, r ∈ (e.txn x).created → e.Room r n → 0 < i → i < n → e'.wordAt r i = e.wordAt r i
  kept : ∀ r n i, (∀ c, (r, c) ∉ (e.txn x).writes) → r ∉ (e.txn x).created → e.Room r n → i < n →
    e'.wordAt r i = e.wordAt r i
  mallocs : e'.arena.mallocs = e.arena.mallocs
  frees : e'.arena.frees = e.arena.frees

theorem mem_addWeakrefs {w : Ref} (ws known : List Ref) : w ∈ addWeakrefs known ws ↔ w ∈ known ∨
    w ∈ ws := by
  induction ws generalizing known with
  | nil => simp [addWeakrefs]
  | cons v ws ih =>
    rw [addWeakrefs, ih]
    split
    · next h =>
      rw [List.contains_iff_mem] at h
      constructor
      · rintro (hw | hw)
        · exact .inl hw
        · exact .inr (.tail _ hw)
      · rintro (hw | hw)
        · exact .inl hw
        · obtain rfl | hw := List.mem_cons.1 hw
          · exact .inl h
          · exact .inr hw
    · simp only [List.mem_cons]
      rw [or_assoc, or_left_comm]

theorem nodup_addWeakrefs {known : List Ref} (h : known.Nodup) (ws : List Ref) :
    (addWeakrefs known ws).Nodup := by
  induction ws generalizing known with
  | nil => exact h
  | cons v ws ih =>
    rw [addWeakrefs]
    apply ih
    split
    · exact h
    · next hv =>
      rw [List.contains_iff_mem] at hv
      exact List.nodup_cons.2 ⟨hv, h⟩

namespace Commits
section
variable (h : Commits x e e') (ok : e.Core)
include h ok

theorem shared (r : Ref) : e'.Shared r ↔ e.Shared r ∨ r ∈ (e.txn x).created := by
  have own := ok.txns x h.active
  constructor
  · rintro ⟨⟨n, hn⟩, shared⟩
    by_cases hc : r ∈ (e.txn x).created
    · exact .inr hc
    · refine .inl ⟨⟨n, (h.room r n).1 hn⟩, ?_⟩
      rintro ⟨y, hy⟩
      by_cases hne : y = x
      · exact hc (hne ▸ hy)
      · exact shared ⟨y, by rwa [h.leaves.txn y hne]⟩
  · intro hr
    have allocated := hr.elim (·.1) (own.created r)
    obtain ⟨n, hn⟩ := allocated
    refine ⟨⟨n, (h.room r n).2 hn⟩, ?_⟩
    rintro ⟨y, hy⟩
    by_cases hne : y = x
    · rw [hne, h.leaves.own.2] at hy
      simp at hy
    · rw [h.leaves.txn y hne] at hy
      exact hr.elim (fun hs => hs.2 ⟨y, hy⟩) fun hc => own.apart y hne r hc hy

theorem clock_le : e.clock ≤ e'.clock := by
  have small := ok.heap.clock
  rw [h.clock]
  split
  · exact UInt64.le_refl _
  · rw [UInt64.le_iff_toNat_le, UInt64.toNat_add]
    simp only [UInt64.reduceToNat]
    omega

theorem header (small : e'.clock.toNat < 2 ^ 63) (hr : e'.Shared r) :
    (((∃ c, (r, c) ∈ (e.txn x).writes) ∨ r ∈ (e.txn x).created) ∧
      e'.wordAt r 0 = headerFor e'.clock ∧ e'.version r = e'.clock) ∨
    ((∀ c, (r, c) ∉ (e.txn x).writes) ∧ r ∉ (e.txn x).created ∧ e.Shared r ∧
      e'.wordAt r 0 = e.wordAt r 0 ∧ e'.version r = e.version r) := by
  by_cases changed : (∃ c, (r, c) ∈ (e.txn x).writes) ∨ r ∈ (e.txn x).created
  · have stamped := h.stamped r changed
    exact .inl ⟨changed, stamped, by rw [version, stamped, versionOf_headerFor small]⟩
  · rw [not_or, not_exists] at changed
    have shared := ((h.shared ok r).1 hr).resolve_right changed.2
    obtain ⟨n, hn⟩ := shared.1
    have bounds := room_bounds ok.heap.good hn
    have same := h.kept r n 0 changed.1 changed.2 hn (by omega)
    exact .inr ⟨changed.1, changed.2, shared, same, by rw [version, version, same]⟩

theorem version_le (small : e'.clock.toNat < 2 ^ 63)
    (hr : e.Shared r) : e.version r ≤ e'.version r := by
  obtain ⟨-, -, new⟩ | ⟨-, -, -, -, same⟩ := h.header ok small ((h.shared ok r).2 (.inl hr))
  · rw [new]
    exact UInt64.le_trans (ok.heap.header r hr).2 (h.clock_le ok)
  · rw [same]
    exact UInt64.le_refl _

theorem not_young : ¬ e.Young (e.txn x).segment r := fun young => by
  -- an empty nursery has no objects
  have below := ((ok.txns x h.active).nursery.object _ young.2.2).2
  rw [h.empty] at below
  exact absurd below (Nat.not_lt_zero _)

theorem core (small : e'.clock.toNat < 2 ^ 63) (weak : e.WeakOk (e.txn x).segment) : e'.Core where
  heap :=
    { good := h.good
      small := by rw [h.leaves.memory_size]; exact ok.heap.small
      even := by rw [h.leaves.memory_size]; exact ok.heap.even
      clock := small
      header := fun r hr => by
        obtain ⟨-, stamped, new⟩ | ⟨-, -, shared, word, same⟩ := h.header ok small hr
        · rw [new]
          exact ⟨stamped, UInt64.le_refl _⟩
        · obtain ⟨even, bound⟩ := ok.heap.header r shared
          rw [word, same]
          exact ⟨even, UInt64.le_trans bound (h.clock_le ok)⟩
      weakrefs := by
        rw [h.weakrefs]
        refine ⟨nodup_addWeakrefs ok.heap.weakrefs.1 _, fun w hw => ?_⟩
        rw [h.shared ok]
        obtain hw | hw := (mem_addWeakrefs _ _).1 hw
        · exact .inl (ok.heap.weakrefs.2 w hw)
        · obtain ⟨t, y, owner, hy, own⟩ := weak w (by simpa using hw)
          obtain ⟨-, thread, seg, -⟩ := ok.life.txn _ _ (ok.life.thread x h.active)
          rw [(ok.life.holds _ _ seg).2] at owner
          rw [← Option.some.inj owner, ok.life.thread x h.active] at hy
          rw [← Option.some.inj hy] at own
          exact .inr (own.resolve_right (h.not_young ok)) }
  life := h.leaves.life ok.life h.active (ok.txns x h.active) rfl
  txns y hy := by
    obtain ⟨hy, hne⟩ := (h.leaves.active rfl y).1 hy
    have own := ok.txns y hy
    refine own.pass (.of_eq (h.leaves.txn y hne))
      (h.leaves.segment _ (ok.life.distinct h.active hy hne).2).blanks
      (fun r hr _ => (h.shared ok r).2 (.inl hr)) (fun r n hn _ _ => (h.room r n).2 hn)
        (h.leaves.apart own)
      (fun r hr _ => h.version_le ok small hr) (h.clock_le ok) fun hp => ?_
    exact absurd (h.alone y ((ok.life.inevitable y).2 hp)) hne
  stackOk t ht r hr := by
    by_cases hne : t = (e.txn x).thread
    · rw [hne] at hr ht
      rw [h.stack] at hr
      rw [h.leaves.own_thread.2.2.1] at ht
      obtain rfl | shared | ⟨y, hy, own⟩ := ok.stackOk _ ht r hr
      · exact .inl rfl
      · exact .inr (.inl ((h.shared ok r).2 (.inl shared)))
      · rw [ok.life.thread x h.active] at hy
        rw [← Option.some.inj hy] at own
        exact .inr (.inl ((h.shared ok r).2 (.inr (own.resolve_right (h.not_young ok)))))
    · rw [h.leaves.thread t hne] at ht hr
      exact h.leaves.usable ok.life h.active (fun r hr => (h.shared ok r).2 (.inl hr)) hne
        (ok.stackOk t ht r hr)
  segments := by rw [h.leaves.segments_size]; exact ok.segments
  honest := by rw [h.leaves.layout]; exact ok.honest

end
end Commits
end Engine
end TxHeap
