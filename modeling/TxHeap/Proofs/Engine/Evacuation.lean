import TxHeap.Proofs.Engine.Work
import TxHeap.Proofs.Queue

/-! A minor collection is work of the transaction whose nursery it empties: what it leaves is in
order, and what it moved counts as created. -/

namespace TxHeap
variable {r w : Ref} {i n : Nat} {x : TxnId} {k : SegmentId} {p : Ref × Evacuation} {rs : List Ref}

namespace Engine
variable {e e' e'' : Engine} {y : Ref}

/-- Work of `x` that leaves the places of its young objects and its weak references alone. -/
structure Moves (x : TxnId) (e e' : Engine) : Prop where
  serves : Serves x e e'
  used : (e'.segment (e.txn x).segment).used = (e.segment (e.txn x).segment).used
  objects : (e'.segment (e.txn x).segment).objects = (e.segment (e.txn x).segment).objects
  weakrefs : (e'.segment (e.txn x).segment).weakrefs = (e.segment (e.txn x).segment).weakrefs

namespace Moves

theorem refl (x : TxnId) (ok : e.Core) : Moves x e e := ⟨.refl x ok, rfl, rfl, rfl⟩

section
variable (h : Moves x e e')
include h

theorem trans (h' : Moves x e' e'') : Moves x e e'' := by
  obtain ⟨serves, used, objects, weakrefs⟩ := h'
  rw [h.serves.works.own.segment] at used objects weakrefs
  exact ⟨h.serves.trans serves, used.trans h.used, objects.trans h.objects,
    weakrefs.trans h.weakrefs⟩

theorem segment : (e'.txn x).segment = (e.txn x).segment := h.serves.works.own.segment

theorem thread : (e'.txn x).thread = (e.txn x).thread := h.serves.works.own.thread

theorem active (hx : e.Active x) : e'.Active x := h.serves.active hx

theorem young : e'.Young (e'.txn x).segment y ↔ e.Young (e.txn x).segment y := by
  rw [h.segment, Young, Young, h.objects]

theorem weakOk (ok : e.Core) (hx : e.Active x) (weak : e.WeakOk (e.txn x).segment) :
    e'.WeakOk (e'.txn x).segment := by
  rw [h.segment]
  refine h.serves.works.own_weakOk ok.life hx ?_ ?_ weak
  · rw [h.weakrefs]
    exact fun _ hw => .inl hw
  · rw [h.objects]
    exact fun _ ho => ho

end

theorem within {a b : Engine} (h : Moves x a b) (before : Alike e a) (after : Alike b e')
    (locked : e'.locked = e.locked) : Moves x e e' where
  serves :=
    ⟨(before.works.trans h.serves.works).trans after.works, h.serves.core.alike after, locked⟩
  used := by
    have used := h.used
    rw [before.txn, (before.segment _).used] at used
    rw [(after.segment _).used, used]
  objects := by
    have objects := h.objects
    rw [before.txn, (before.segment _).objects] at objects
    rw [(after.segment _).objects, objects]
  weakrefs := by
    have weakrefs := h.weakrefs
    rw [before.txn, (before.segment _).weakrefs] at weakrefs
    rw [(after.segment _).weakrefs, weakrefs]

theorem setOld (h : Moves x e e') (hx : e.Active x) (hr : r ∈ (e.txn x).created) (room : e.Room r n)
    (hi : i < n) (v : UInt64) : Moves x e (e'.putWord r i v) := by
  have works := h.serves.works
  have written := overwrites_putWord h.serves.core.heap.good (works.room r n room) hi v
  exact ⟨h.serves.trans (written.serves h.serves.core (h.active hx) (works.created r hr)), h.used,
    h.objects, h.weakrefs⟩

end Moves

section Young
variable (ok : e.TxnOk x) (hy : e.Young (e.txn x).segment y)
include ok hy

theorem youngWords_of_young : e.youngWords? (e.txn x).segment y = some
    ⟨y.offset.toNat / 8, (e.segment (e.txn x).segment).used.toNat / 8 - y.offset.toNat / 8⟩ := by
  obtain ⟨-, segment, offset⟩ := hy
  have inside := ok.nursery.object _ offset
  have lt := UInt64.lt_iff_toNat_lt.2 inside.2
  simp only [youngWords?, segment, lt, and_self, if_true, Word.index_eq]

theorem header_of_young :
    (e.segment (e.txn x).segment).nursery.word (y.offset.toNat / 8) = 0 ∨ ∃ r ∈ (e.txn x).created,
      (e.segment (e.txn x).segment).nursery.word (y.offset.toNat / 8) =
      Ref.forwardedBit ||| r.bits :=
  ok.nursery.header _ hy.2.2

end Young

theorem Core.room_lt (ok : e.Core) (hr : e.Room r n) : r.bits.toNat < 2 ^ 48 := by
  have bounds := room_bounds ok.heap.good hr
  have small := ok.heap.small
  omega

theorem Core.old_of_allocated (ok : e.Core) (h : e.Allocated r) : r.isYoung = false :=
  h.elim fun _ room => Ref.isYoung_of_lt ((ok.room_lt room).trans (by decide))

theorem Core.created_lt (ok : e.Core) (hx : e.Active x) (hr : r ∈ (e.txn x).created) :
    r.bits.toNat < 2 ^ 48 := by
  obtain ⟨n, hn⟩ := (ok.txns x hx).created r hr
  exact ok.room_lt hn

theorem putWords_setTxn (e : Engine) (f : Txn → Txn) (r : Ref) (i : Nat) (words : List UInt64) :
    (e.setTxn x f).putWords r i words = (e.putWords r i words).setTxn x f := by
  induction words generalizing e i with
  | nil => rfl
  | cons v rest ih => exact ih (e.putWord r i v) (i + 1)

/-- The copy of a young object is written and recorded, and its first word, word `j` of the nursery,
says where it went. -/
def forwardTo (e : Engine) (x : TxnId) (k : SegmentId) (j : Nat) (r : Ref)
    (words : List UInt64) : Engine :=
  ((e.putWords r 1 words).setSegment k fun g =>
    { g with nursery := g.nursery.write j (Ref.forwardedBit ||| r.bits) }).setTxn x
      (·.noteCreated r)

theorem Txn.mem_noteCreated (tx : Txn) (r : Ref) : r ∈ (tx.noteCreated r).created := by
  unfold Txn.noteCreated
  split
  · next h => exact Array.contains_iff_mem.1 h
  · exact Array.mem_push_self

theorem txn_forwardTo (e : Engine) (hx : x < e.txns.size) (k : SegmentId) (j : Nat) (r : Ref)
    (words : List UInt64) : (e.forwardTo x k j r words).txn x = (e.txn x).noteCreated r := by
  have tables := putWords_toEngineTables e r 1 words
  have size : (e.putWords r 1 words).txns = e.txns := by rw [tables]
  rw [forwardTo, txn_setTxn, if_pos ⟨rfl, by rwa [setSegment_txns, size]⟩, txn_setSegment,
    txn, txn, size]

theorem moves_forwardTo {e1 : Engine} {j : Nat} (words : List UInt64) (ok : e.Core)
    (hx : e.Active x)
    (only : OnlyHeap e e1) (good : e1.arena.Good) (takes : e.arena.Takes e1.arena r.bits n)
    (fits : 1 + words.length ≤ n) (hj : j < (e.segment (e.txn x).segment).used.toNat / 8) :
    Moves x e (e1.forwardTo x (e.txn x).segment j r words) ∧
      (e1.forwardTo x (e.txn x).segment j r words).threads = e.threads := by
  -- recording the chunk first gives the same state, and all is in order at each step
  have order : e1.forwardTo x (e.txn x).segment j r words =
      ((e1.setTxn x (·.noteCreated r)).putWords r 1 words).setSegment (e.txn x).segment fun g =>
        { g with nursery := g.nursery.write j (Ref.forwardedBit ||| r.bits) } := by
    rw [putWords_setTxn]
    rfl
  obtain ⟨recorded, created⟩ := serves_alloc ok hx only takes good
  have hr : r ∈ ((e1.setTxn x (·.noteCreated r)).txn x).created := by
    rw [created]
    exact Array.mem_push_self
  have room := (takes.live _ n).2 (.inr ⟨rfl, rfl⟩)
  have written := (copyFrom_ok recorded.core.heap.good room words fits).2
  have copied := written.serves recorded.core (recorded.active hx) hr
  have tables := written.tables
  rw [order]
  generalize he2 : e1.setTxn x (·.noteCreated r) = e2 at *
  generalize he3 : e2.putWords r 1 words = e3 at *
  have same : OnlyHeap e2 e3 := by rw [OnlyHeap, tables]
  have segment : e3.segment (e.txn x).segment = e.segment (e.txn x).segment := by
    rw [same.segment, ← he2, segment_setTxn, only.segment]
  have number := (recorded.trans copied).works.own.segment
  have hr3 := copied.works.created r hr
  have marked := serves_nurseryWord copied.core
    ((recorded.trans copied).active hx) (by rwa [number, segment]) fun _ _ _ => ⟨r, hr3, rfl⟩
  rw [number] at marked
  have size := number ▸ segment_lt copied.core ((recorded.trans copied).active hx)
  refine ⟨⟨(recorded.trans copied).trans marked, ?_, ?_, ?_⟩, ?_⟩
  · rw [segment_setSegment, if_pos ⟨rfl, size⟩, segment]
  · rw [segment_setSegment, if_pos ⟨rfl, size⟩, segment]
  · rw [segment_setSegment, if_pos ⟨rfl, size⟩, segment]
  · rw [setSegment_threads, tables, ← he2, setTxn_threads, only]

theorem ends_youngSpan (x : TxnId) (y : Ref) (e : Engine) :
    Ends (youngSpan x y) e (fun s e' => e' = e ∧ e.youngWords? (e.txn x).segment y = some s)
      fun _ e' => e' = e ∧ e.youngWords? (e.txn x).segment y = none := by
  refine .get_bind (.get_bind ?_)
  cases e.youngWords? (e.txn x).segment y with
  | some | none => exact ⟨rfl, rfl⟩

theorem youngWords_some {s : Span} (h : e.youngWords? k y = some s) :
    y.segment = k ∧ y.offset < (e.segment k).used ∧ s.base = y.offset.toNat / 8 ∧
      s.length = (e.segment k).used.toNat / 8 - y.offset.toNat / 8 := by
  unfold youngWords? at h
  dsimp only at h
  split at h
  · next inside =>
    cases h
    exact ⟨inside.1, inside.2, Word.index_eq _, by simp only [Word.index_eq]⟩
  · cases h

end Engine

namespace Evacuation
open Engine TxHeap.Action

variable {e e' : Engine} {ev : Evacuation} {y : Ref}

structure Ok (x : TxnId) (e : Engine) (ev : Evacuation) : Prop where
  txn : ev.txn = x
  segment : ev.segment = (e.txn x).segment
  cause : ∀ c, ev.failure = some c → c.matchesError .heapExhausted = true
  queue : ∃ items, ev.queue.Holds items ∧ ∀ r ∈ items, r ∈ (e.txn x).created

theorem Ok.works (h : ev.Ok x e) (works : Works x e e') : ev.Ok x e' := by
  obtain ⟨items, holds, created⟩ := h.queue
  exact ⟨h.txn, h.segment.trans works.own.segment.symm, h.cause, items, holds,
    fun r hr => works.created r (created r hr)⟩

theorem Ok.moves (h : ev.Ok x e) (moves : Moves x e e') : ev.Ok x e' := h.works moves.serves.works

def wordsOf (e : Engine) (k : SegmentId) (s : Span) (size : UInt64) : List UInt64 :=
  ((e.segment k).nursery.slice s.base (s.base + (size / 8).toNat)).drop 1

inductive Met (x : TxnId) (e : Engine) (ev : Evacuation) (y : Ref) :
    Ref × Evacuation → Engine → Prop
  | late : ev.failure.isSome = true → Met x e ev y (.null, ev) e
  | again (s : Span) : e.youngWords? (e.txn x).segment y = some s → 0 < s.length →
      e.youngWord (e.txn x).segment s 0 &&& Ref.forwardedBit ≠ 0 →
      Met x e ev y (⟨e.youngWord (e.txn x).segment s 0 &&& ~~~Ref.forwardedBit⟩, ev) e
  | exhausted (size : UInt64) (e' : Engine) : OnlyHeap e e' → e'.arena.Good →
      e.arena.SamePayloads e'.arena →
      Met x e ev y (.null, { ev with
        failure := some (Error.heapExhausted.withDetails
          (some [("size", .word size), ("segment", .int (e.txn x).segment)]) none) }) e'
  | moved (s : Span) (size : UInt64) (e1 : Engine) (r : Ref) (n : Nat) :
      e.youngWords? (e.txn x).segment y = some s → 0 < s.length →
      e.youngWord (e.txn x).segment s 0 &&& Ref.forwardedBit = 0 →
      sizeIn (·.youngView (e.txn x).segment s) e = .ok size e → OnlyHeap e e1 → e1.arena.Good →
      e.arena.Takes e1.arena r.bits n → size.toNat ≤ 8 * n →
      Met x e ev y (r, { ev with
          oldWeak := if ev.youngWeak.contains y then r :: ev.oldWeak else ev.oldWeak
          promoted := ev.promoted + size, queue := ev.queue.append r })
        (e1.forwardTo x (e.txn x).segment s.base r (wordsOf e (e.txn x).segment s size))

/-- Why `y` cannot be moved: it is not in the nursery, or its size makes no sense. -/
def Stuck (x : TxnId) (e : Engine) (y : Ref) : Prop :=
  e.youngWords? (e.txn x).segment y = none ∨ ∃ s, e.youngWords? (e.txn x).segment y = some s ∧
    (s.length = 0 ∨ e.youngWord (e.txn x).segment s 0 &&& Ref.forwardedBit = 0 ∧
      ∀ size, sizeIn (·.youngView (e.txn x).segment s) e ≠ .ok size e)

theorem length_wordsOf (e : Engine) (k : SegmentId) (s : Span) (size : UInt64) :
    (wordsOf e k s size).length ≤ size.toNat / 8 - 1 := by
  simp only [wordsOf, Memory.slice, List.length_drop, List.length_map, List.length_range',
    UInt64.toNat_div,
    UInt64.reduceToNat]
  omega

theorem promote_met (ok : e.Core) (hx : e.Active x) (hev : ev.Ok x e) (y : Ref) :
    Ends ((promote y).run ev) e (Met x e ev y) fun _ e' => e' = e ∧ Stuck x e y := by
  refine .getT ?_
  by_cases failed : ev.failure.isSome = true
  · rw [if_pos failed]
    exact .late failed
  rw [if_neg failed]
  refine .getT (.getT ?_)
  rw [hev.txn, hev.segment]
  refine .liftT (.mono (ends_youngSpan x y e) ?_ fun _ _ h => ⟨h.1, .inl h.2⟩)
  rintro s e' ⟨rfl, hs⟩
  by_cases hlen : 0 < s.length
  · refine .liftT (.of_ok (getYoung_ok hlen) ?_)
    by_cases forwarded : e'.youngWord (e'.txn x).segment s 0 &&& Ref.forwardedBit = 0
    · rw [if_neg (by simp [forwarded])]
      cases hsize : sizeIn (·.youngView (e'.txn x).segment s) e' with
      | error r e1 =>
        have same : e1 = e' := by
          have spec := ends_sizeIn (·.youngView (e'.txn x).segment s) e'
          rwa [Ends, hsize] at spec
        refine .liftT (.of_error hsize ⟨same, .inr ⟨s, hs, .inr ⟨forwarded, fun size heq => ?_⟩⟩⟩)
        rw [hsize] at heq
        cases heq
      | ok size e1 =>
        have spec := ends_sizeIn (·.youngView (e'.txn x).segment s) e'
        rw [Ends, hsize] at spec
        obtain ⟨rfl, -, least, -, most⟩ := spec
        refine .liftT (.of_ok hsize ?_)
        have fits := (ok.txns x hx).nursery.fits
        have small := (ok.txns x hx).nursery.small
        have length : s.length ≤ (e1.segment (e1.txn x).segment).used.toNat / 8 := by
          have := (youngWords_some hs).2.2.2
          omega
        simp only [youngView] at most
        obtain ⟨e2, only, good, ⟨hnull, keeps⟩ | ⟨r, n, hr, hne, hn, takes⟩⟩ :=
          mallocOld_spec ok.heap.good ok.heap.even ok.heap.small (show size.toNat < 2 ^ 60 by omega)
        · exact .liftT (.of_ok hnull (.exhausted size e2 only good keeps))
        · refine .liftT (.of_ok hr ?_)
          rw [if_neg hne]
          have room := (takes.live _ n).2 (.inr ⟨rfl, rfl⟩)
          have short := length_wordsOf e1 (e1.txn x).segment s size
          have copied :=
            (copyFrom_ok good room (wordsOf e1 (e1.txn x).segment s size) (i := 1) (by omega)).1
          refine .liftT (.of_ok (oldSpan_ok good room) (.getTheT ?_))
          rw [only.segment]
          refine .liftT (.of_ok copied ?_)
          have marked : ∀ e3 : Engine, setYoung (e1.txn x).segment s 0
              (Ref.forwardedBit ||| r.bits) e3 =
              .ok () (e3.setSegment (e1.txn x).segment fun g =>
                { g with nursery := g.nursery.write s.base (Ref.forwardedBit ||| r.bits) }) := by
            intro e3
            unfold setYoung
            rw [if_pos hlen]
            rfl
          refine .liftT (.of_ok (marked _) (.liftT (.of_ok (updateTxn_run ..) ?_)))
          exact .moved s size e2 r n hs hlen forwarded hsize only good takes hn
    · rw [if_pos (by simpa using forwarded)]
      exact .again s hs hlen forwarded
  · have first : getYoung (e'.txn x).segment s 0 e' = .error (.fault .outOfBounds) e' :=
      inspectEngine_error (if_neg hlen)
    exact .liftT (.of_error first ⟨rfl, .inr ⟨s, hs, .inl (by omega)⟩⟩)

theorem Met.moves (h : Met x e ev y p e') (ok : e.Core) (hx : e.Active x) :
    Moves x e e' ∧ e'.threads = e.threads := by
  cases h with
  | late | again => exact ⟨.refl x ok, rfl⟩
  | exhausted size _ only good keeps =>
    refine ⟨⟨only.serves ok hx keeps good, ?_, ?_, ?_⟩, by rw [only]⟩
    · rw [only.segment]
    · rw [only.segment]
    · rw [only.segment]
  | moved s size e1 r n hs hlen plain hsize only good takes =>
    have room := (takes.live _ n).2 (.inr ⟨rfl, rfl⟩)
    have bounds := room_bounds good room
    have short := length_wordsOf e (e.txn x).segment s size
    obtain ⟨-, -, base, length⟩ := youngWords_some hs
    exact moves_forwardTo (wordsOf e (e.txn x).segment s size) ok hx only good takes (by omega)
      (by omega)

theorem Met.ok (h : Met x e ev y p e') (ok : e.Core) (hx : e.Active x) (hev : ev.Ok x e) :
    p.2.Ok x e' := by
  have later := hev.moves (h.moves ok hx).1
  cases h with
  | late | again => exact later
  | exhausted =>
    refine ⟨later.txn, later.segment, fun c hc => ?_, later.queue⟩
    rw [← Option.some.inj hc]
    rfl
  | moved s size e1 r n hs hlen plain hsize only =>
    obtain ⟨items, holds, created⟩ := later.queue
    refine ⟨later.txn, later.segment, later.cause, items ++ [r], Queue.holds_append holds r,
      fun q hq => ?_⟩
    obtain hq | hq := List.mem_append.1 hq
    · exact created q hq
    · rw [List.mem_singleton.1 hq, txn_forwardTo e1 (by rw [only]; exact active_lt hx)]
      exact Txn.mem_noteCreated _ r

theorem Met.created (h : Met x e ev y p e') (ok : e.Core) (hx : e.Active x)
    (hy : e.Young (e.txn x).segment y) : p.1 = .null ∨ p.1 ∈ (e'.txn x).created := by
  cases h with
  | late | exhausted => exact .inl rfl
  | again s hs hlen forwarded =>
    have own := ok.txns x hx
    rw [youngWords_of_young own hy] at hs
    cases hs
    obtain zero | ⟨r, hr, header⟩ := header_of_young own hy
    · simp only [youngWord, Nat.add_zero, zero] at forwarded
      exact absurd rfl forwarded
    · right
      have small := ok.created_lt hx hr
      simp only [youngWord, Nat.add_zero, header, Ref.forwarded_address (small.trans (by decide))]
      exact hr
  | moved s size e1 r n hs hlen plain hsize only =>
    right
    rw [txn_forwardTo e1 (by rw [only]; exact active_lt hx)]
    exact Txn.mem_noteCreated _ r

abbrev Shifts (x : TxnId) (e e' : Engine) : Prop := Moves x e e' ∧ e'.threads = e.threads

namespace Shifts

theorem refl (x : TxnId) (ok : e.Core) : Shifts x e e := ⟨.refl x ok, rfl⟩

theorem trans (h : Shifts x e e') (h' : Shifts x e' e'') : Shifts x e e'' :=
  ⟨h.1.trans h'.1, h'.2.trans h.2⟩

theorem ends {α : Type} {y : EngineM α} {Q : α → Engine → Prop} (h : Shifts x e e')
    (later : Ends y e' (fun a e'' => Moves x e' e'' ∧ e''.threads = e'.threads ∧ Q a e'') fun _ =>
      Shifts x e') :
    Ends y e' (fun a e'' => Moves x e e'' ∧ e''.threads = e.threads ∧ Q a e'') fun _ =>
    Shifts x e :=
  .mono later (fun _ _ h' => ⟨h.1.trans h'.1, h'.2.1.trans h.2, h'.2.2⟩) fun _ _ => h.trans

end Shifts

def Carries {α : Type} (x : TxnId) (f : EvacuationM α) (e : Engine) (ev : Evacuation) : Prop :=
  Ends (f.run ev) e (fun p e' => Moves x e e' ∧ e'.threads = e.threads ∧ p.2.Ok x e')
    fun _ e' => Moves x e e' ∧ e'.threads = e.threads

namespace Carries
variable {α β : Type} {f : EvacuationM α} {g : α → EvacuationM β}

protected theorem bind (h : Carries x f e ev)
    (hg : ∀ a ev' e', Moves x e e' → ev'.Ok x e' → Carries x (g a) e' ev') :
    Carries x (f >>= g) e ev := by
  refine .bindT (.imp h ?_)
  rintro ⟨a, ev'⟩ e' ⟨moves, threads, hev⟩
  exact Shifts.ends ⟨moves, threads⟩ (hg a ev' e' moves hev)

theorem lift {f : EngineM α} (hev : ev.Ok x e)
    (h : Ends f e (fun _ => Shifts x e) fun _ => Shifts x e) :
    Carries x (liftM f) e ev := by
  change Ends (f >>= fun a => pure (a, ev)) e _ _
  exact .bind (.imp h (fun _ _ shifts => ⟨shifts.1, shifts.2, hev.moves shifts.1⟩))

protected theorem pure (ok : e.Core) (hev : ev.Ok x e) (a : α) : Carries x (pure a) e ev :=
  ⟨.refl x ok, rfl, hev⟩

theorem get_bind {g : Evacuation → EvacuationM β} (h : Carries x (g ev) e ev) :
    Carries x (get >>= g) e ev := h

theorem getThe_bind {g : Engine → EvacuationM β} (h : Carries x (g e) e ev) :
    Carries x (getThe Engine >>= g) e ev := h

end Carries

section Parts
variable (ok : e.Core) (hx : e.Active x) (hev : ev.Ok x e)
include ok hx hev

theorem carries_promote (y : Ref) : Carries x (promote y) e ev := by
  refine .mono (promote_met ok hx hev y)
    (fun p e' met => ⟨(met.moves ok hx).1, (met.moves ok hx).2, met.ok ok hx hev⟩) ?_
  rintro r e' ⟨rfl, -⟩
  exact Shifts.refl x ok

theorem carries_promoteCopySlots (r : Ref) (slots : List Nat) :
    Carries x (promoteCopySlots r slots) e ev := by
  induction slots generalizing e ev with
  | nil => exact .pure ok hev ()
  | cons i rest ih =>
    rw [promoteCopySlots]
    refine .get_bind (.getThe_bind ?_)
    dsimp only
    split
    · refine .bindT (.imp (carries_promote ok hx hev _) ?_)
      rintro ⟨v, ev1⟩ e1 ⟨moves1, threads1, hev1⟩
      have hx1 := moves1.active hx
      have serves := serves_copyWord moves1.serves.core hx1 r i v.bits
      have moves : Moves x e (e1.setTxn x (·.setCopyWord r i v.bits)) :=
        ⟨moves1.serves.trans serves, moves1.used, moves1.objects, moves1.weakrefs⟩
      rw [hev.txn]
      refine .liftT (.of_ok (updateTxn_run ..) ?_)
      exact Shifts.ends ⟨moves, threads1⟩
        (ih moves.serves.core (moves.active hx) (hev1.works serves.works))
    · exact ih ok hx hev

omit hx in
theorem carries_inspect {α : Type} (f : Engine → Except Fault α) :
    Carries x (liftM (inspectEngine f)) e ev :=
  .lift hev ((ends_inspectEngine f e).stays (fun _ _ => .refl x ok) fun _ => .refl x ok)

theorem carries_promoteCopies (copies : List (Ref × Array UInt64)) :
    Carries x (promoteCopies copies) e ev := by
  induction copies generalizing e ev with
  | nil => exact .pure ok hev ()
  | cons copy rest ih =>
    rw [promoteCopies]
    refine .getThe_bind (.bind (carries_inspect ok hev _) fun slots ev1 e1 moves1 hev1 => ?_)
    refine .bind (carries_promoteCopySlots moves1.serves.core (moves1.active hx) hev1 _ _)
      fun _ ev2 e2 moves2 hev2 => ?_
    exact ih moves2.serves.core ((moves1.trans moves2).active hx) hev2

theorem carries_promoteOldSlots {l : Nat} (hr : r ∈ (e.txn x).created) (room : e.Room r n)
    (hl : l ≤ n) (slots : List Nat) : Carries x (promoteOldSlots (r.span l) slots) e ev := by
  induction slots generalizing e ev with
  | nil => exact .pure ok hev ()
  | cons i rest ih =>
    rw [promoteOldSlots]
    by_cases hi : i < l
    · refine .liftT (.of_ok (getOld_ok hi) ?_)
      dsimp only
      split
      · refine .bindT (.imp (carries_promote ok hx hev _) ?_)
        rintro ⟨v, ev1⟩ e1 ⟨moves1, threads1, hev1⟩
        have moves := moves1.setOld hx hr room (hi.trans_le hl) v.bits
        have room1 := moves1.serves.works.room r n room
        refine .liftT (.of_ok (setOld_ok moves1.serves.core.heap.good room1 hl hi v.bits) ?_)
        have written := overwrites_putWord moves1.serves.core.heap.good room1
          (hi.trans_le hl) v.bits
        have serves := written.serves moves1.serves.core (moves1.active hx)
          (moves1.serves.works.created r hr)
        exact Shifts.ends ⟨moves, threads1⟩
          (ih moves.serves.core (moves.active hx) (hev1.works serves.works)
          (moves.serves.works.created r hr) (moves.serves.works.room r n room))
      · exact ih ok hx hev hr room
    · have refused : getOld (r.span l) i e = .error (.fault .outOfBounds) e :=
        inspectEngine_error (if_neg hi)
      exact .liftT (.of_error refused (Shifts.refl x ok))

theorem carries_scan (hr : r ∈ (e.txn x).created) : Carries x (scan r) e ev := by
  rw [scan]
  refine .get_bind ?_
  split
  · exact .pure ok hev ()
  · obtain ⟨n, room⟩ := (ok.txns x hx).created r hr
    refine .liftT ((ends_oldObject e r).stays ?_ fun _ => Shifts.refl x ok)
    rintro s ⟨-, shape⟩
    obtain ⟨l, rfl, -, hl⟩ := shape n ok.heap.good room
    refine Carries.get_bind (Carries.bind (carries_inspect ok hev _)
      fun slots ev1 e1 moves1 hev1 => ?_)
    exact carries_promoteOldSlots moves1.serves.core (moves1.active hx) hev1
      (moves1.serves.works.created r hr) (moves1.serves.works.room r n room) hl slots

theorem carries_scanAll (hrs : ∀ r ∈ rs, r ∈ (e.txn x).created) : Carries x (scanAll rs) e ev := by
  induction rs generalizing e ev with
  | nil => exact .pure ok hev ()
  | cons r rest ih =>
    rw [scanAll]
    refine .bind (carries_scan ok hx hev (hrs r (.head _))) fun _ ev1 e1 moves1 hev1 => ?_
    exact ih moves1.serves.core (moves1.active hx) hev1
      fun q hq => moves1.serves.works.created q (hrs q (.tail r hq))

theorem carries_scanQueue (n : Nat) : Carries x (scanQueue n) e ev := by
  induction n generalizing e ev with
  | zero => exact Shifts.refl x ok
  | succ n ih =>
    rw [scanQueue]
    refine .get_bind ?_
    obtain ⟨items, holds, created⟩ := hev.queue
    cases items with
    | nil =>
      rw [Queue.pop?_nil holds]
      exact .pure ok hev ()
    | cons r items =>
      obtain ⟨queue, popped, holds'⟩ := Queue.pop?_cons holds
      rw [popped]
      refine .modifyT ?_
      have hev' : Ok x e { ev with queue } :=
        ⟨hev.txn, hev.segment, hev.cause, items, holds', fun q hq => created q (.tail r hq)⟩
      refine Carries.bind (carries_scan ok hx hev' (created r (.head _)))
        fun _ ev1 e1 moves1 hev1 => ?_
      exact ih moves1.serves.core (moves1.active hx) hev1

theorem carries_promoteReachable (k : SegmentId) : Carries x (promoteReachable x k) e ev := by
  rw [promoteReachable]
  refine .getThe_bind (.bind (carries_promoteCopies ok hx hev _) fun _ ev1 e1 moves1 hev1 => ?_)
  refine .getThe_bind (.bind (carries_scanAll moves1.serves.core (moves1.active hx) hev1
    fun r hr => Array.mem_toList_iff.1 hr) fun _ ev2 e2 moves2 hev2 => ?_)
  exact .getThe_bind (carries_scanQueue moves2.serves.core ((moves1.trans moves2).active hx) hev2 _)

end Parts

section
variable (ok : e.Core) (hx : e.Active x)
include ok hx

theorem young_of_usable (hy : e.Usable (e.txn x).thread y)
    (young : y.isYoung = true) : e.Young (e.txn x).segment y := by
  have notRoom : ¬ e.Allocated y := fun allocated => by
    rw [ok.old_of_allocated allocated] at young
    cases young
  obtain rfl | shared | ⟨z, hz, created | own⟩ := hy
  · cases young
  · exact absurd shared.1 notRoom
  · exact absurd ((ok.txns z (ok.life.txn _ z hz).1).created y created) notRoom
  · rw [ok.life.thread x hx] at hz
    cases hz
    exact own

theorem isYoung_of_created (hy : y = .null ∨ y ∈ (e.txn x).created) : y.isYoung = false := by
  obtain rfl | hy := hy
  · rfl
  · exact ok.old_of_allocated ((ok.txns x hx).created y hy)

theorem promoteStack_spec (hev : ev.Ok x e) {t : ThreadId}
    (ht : t = (e.txn x).thread) (hrs : rs = (e.thread t).stack.toList.drop i)
    (below : ∀ j < i, ∀ r, (e.thread t).stack[j]? = some r → r.isYoung = false) :
    Ends ((promoteStack t i rs).run ev) e
      (fun p e' => Moves x e e' ∧ p.2.Ok x e' ∧ ∀ r ∈ (e'.thread t).stack, r.isYoung = false)
      fun _ e' => Moves x e e' := by
  induction rs generalizing e ev i with
  | nil =>
    refine ⟨.refl x ok, hev, fun r hr => ?_⟩
    obtain ⟨j, hj, rfl⟩ := Array.mem_iff_getElem.1 hr
    have all : (e.thread t).stack.size ≤ i := by
      have := List.drop_eq_nil_iff.1 hrs.symm
      simpa using this
    exact below j (by omega) _ (Array.getElem?_eq_getElem hj)
  | cons r rest ih =>
    have here : (e.thread t).stack[i]? = some r := by
      rw [← Array.getElem?_toList, ← List.head?_drop, ← hrs]
      rfl
    have hi := (Array.getElem?_eq_some_iff.1 here).1
    have later : rest = (e.thread t).stack.toList.drop (i + 1) := by
      rw [← List.tail_drop, ← hrs]
      rfl
    rw [promoteStack]
    split
    · next young =>
      have usable := ok.own_usable hx r (by rw [← ht]; exact Array.mem_of_getElem? here)
      have own := young_of_usable ok hx usable young
      refine .bindT (.mono (promote_met ok hx hev r) ?_ ?_)
      · rintro ⟨v, ev1⟩ e1 met
        obtain ⟨moves1, threads1⟩ := met.moves ok hx
        have hev1 := met.ok ok hx hev
        have goes := met.created ok hx own
        have ok1 := moves1.serves.core
        have hx1 := moves1.active hx
        have ht1 := ht.trans moves1.thread.symm
        have same : e1.thread t = e.thread t := by rw [thread, thread, threads1]
        have usable1 : ∀ q ∈ (e1.thread (e1.txn x).thread).stack.setIfInBounds i v,
            e1.Usable (e1.txn x).thread q := by
          intro q hq
          obtain hq | rfl := Array.mem_or_eq_of_mem_setIfInBounds hq
          · exact ok1.own_usable hx1 q hq
          · exact goes.imp id fun created => .inr ⟨x, ok1.life.thread x hx1, .inl created⟩
        have serves2 := serves_thread ok1 hx1
          (f := fun th => { th with stack := th.stack.setIfInBounds i v }) ⟨rfl, rfl, rfl⟩ usable1
        have lt1 := thread_lt ok1 hx1
        rw [← ht1] at serves2 lt1
        have moves2 : Moves x e1
            (e1.setThread t fun th => { th with stack := th.stack.setIfInBounds i v }) :=
          ⟨serves2, rfl, rfl, rfl⟩
        have stack2 :
            ((e1.setThread t fun th =>
            { th with stack := th.stack.setIfInBounds i v }).thread t).stack =
            (e.thread t).stack.setIfInBounds i v := by
          rw [thread_setThread, if_pos ⟨rfl, lt1⟩, same]
        refine .liftT (.of_ok (updateThread_run ..) ?_)
        have moves := moves1.trans moves2
        refine .mono (ih moves2.serves.core (moves2.active hx1) (hev1.moves moves2)
          (ht.trans moves.thread.symm) ?_ fun j hj q hq => ?_) ?_ fun _ _ moves3 =>
            moves.trans moves3
        · rw [stack2, later, Array.toList_setIfInBounds, List.drop_set_of_lt (Nat.lt_succ_self i)]
        · rw [stack2, Array.getElem?_setIfInBounds] at hq
          by_cases hij : i = j
          · subst hij
            rw [if_pos rfl, if_pos hi] at hq
            rw [← Option.some.inj hq]
            exact isYoung_of_created ok1 hx1 goes
          · rw [if_neg hij] at hq
            exact below j (by omega) q hq
        · rintro p e3 ⟨moves3, hev3, settled⟩
          exact ⟨moves.trans moves3, hev3, settled⟩
      · rintro _ e' ⟨rfl, -⟩
        exact .refl x ok
    · next old =>
      refine ih ok hx hev ht later fun j hj q hq => ?_
      by_cases hji : j = i
      · subst hji
        rw [here] at hq
        rw [← Option.some.inj hq]
        exact Bool.eq_false_iff.2 old
      · exact below j (by omega) q hq

theorem moved_created (hw : w ∈ (e.txn x).created ∨ e.Young (e.txn x).segment w) :
    (w.isYoung = true ∧ moved e (e.txn x).segment w = .null) ∨
    moved e (e.txn x).segment w ∈ (e.txn x).created := by
  have own := ok.txns x hx
  obtain hw | hw := hw
  · right
    rwa [moved, isYoung_of_created ok hx (.inr hw)]
  · rw [moved, if_pos hw.1, forwarded, youngWords_of_young own hw]
    obtain zero | ⟨r, hr, header⟩ := header_of_young own hw
    · left
      simp only [youngWord, Nat.add_zero, zero]
      exact ⟨hw.1, rfl⟩
    · right
      have small := (ok.created_lt hx hr).trans (show 2 ^ 48 < 2 ^ 63 by decide)
      simp only [youngWord, Nat.add_zero, header, Ref.forwarded_address small,
        Ref.forwarded_marked small, if_false]
      exact hr

theorem fixWeakrefs_spec (hk : k = (e.txn x).segment)
    {ws : List Ref} (hws : ∀ w ∈ ws, w ∈ (e.txn x).created ∨ e.Young k w) {live : Array Ref}
    (hlive : ∀ r ∈ live, r ∈ (e.txn x).created) :
    Ends (fixWeakrefs k ws live) e
    (fun live' e' => Moves x e e' ∧ e'.threads = e.threads ∧ ∀ r ∈ live', r ∈ (e'.txn x).created)
      fun _ => Shifts x e := by
  induction ws generalizing e live with
  | nil => exact ⟨.refl x ok, rfl, hlive⟩
  | cons w rest ih =>
    have hrest := fun q hq => hws q (.tail w hq)
    have goes := moved_created ok hx (hk ▸ hws w (.head _))
    rw [← hk] at goes
    rw [fixWeakrefs]
    change Ends (if w.isYoung = true ∧ moved e k w = .null then _ else _) e _ _
    by_cases died : w.isYoung = true ∧ moved e k w = .null
    · rw [if_pos died]
      exact ih ok hx hk hrest hlive
    · rw [if_neg died]
      have hr := goes.resolve_left died
      generalize moved e k w = r at hr
      obtain ⟨n, room⟩ := (ok.txns x hx).created r hr
      have goOn : ∀ e1, Shifts x e e1 → Ends (fixWeakrefs k rest (live.push r)) e1
          (fun live' e' => Moves x e e' ∧ e'.threads = e.threads ∧
            ∀ r ∈ live', r ∈ (e'.txn x).created) fun _ => Shifts x e := by
        intro e1 shifts
        have moves := shifts.1
        have hk1 := hk.trans moves.segment.symm
        refine shifts.ends (ih moves.serves.core (moves.active hx) hk1 (fun q hq => ?_)
          fun q hq => ?_)
        · refine (hrest q hq).imp (moves.serves.works.created q) fun young => ?_
          rwa [hk1, moves.young, ← hk]
        · obtain hq | rfl := Array.mem_push.1 hq
          · exact moves.serves.works.created q (hlive q hq)
          · exact moves.serves.works.created q hr
      refine .bind ((ends_oldObject e r).stays ?_ fun _ => .refl x ok)
      rintro s ⟨-, shape⟩
      obtain ⟨l, rfl, least, hl⟩ := shape n ok.heap.good room
      refine .bind (.of_ok (getOld_ok (show l - 1 < l by omega)) ?_)
      dsimp only
      split
      · change Ends (setOld (r.span l) (l - 1) (moved e k _).bits >>= _) e _ _
        refine .bind (.of_ok (setOld_ok ok.heap.good room hl (by omega) _) ?_)
        exact goOn _ ⟨(Moves.refl x ok).setOld hx hr room (show l - 1 < n by omega) _, rfl⟩
      · exact goOn e (.refl x ok)

theorem fixCopies_spec (k : SegmentId) (copies : List (Ref × Array UInt64)) :
    Ends (fixCopies x k copies) e (fun _ => Shifts x e) fun _ => Shifts x e := by
  induction copies generalizing e with
  | nil => exact .refl x ok
  | cons copy rest ih =>
    obtain ⟨r, c⟩ := copy
    rw [fixCopies]
    change Ends (if e.weakrefs.contains r = true ∧ _ then _ else _) e _ _
    split
    · have serves := serves_copyWord ok hx r (c.size - 1) (moved e k ⟨c.getD (c.size - 1) 0⟩).bits
      have shifts : Shifts x e _ := ⟨⟨serves, rfl, rfl, rfl⟩, rfl⟩
      exact .mono (ih serves.core (serves.active hx)) (fun _ _ => shifts.trans) fun _ _ =>
        shifts.trans
    · exact ih ok hx

end
end Evacuation

def Segment.emptied (s : Segment) : Segment :=
  { s with nursery := s.nursery.clear 0 (Word.index s.used), used := 0, objects := #[] }

theorem resetNursery_run (e : Engine) (k : SegmentId) :
    resetNursery k e = .ok () (e.setSegment k Segment.emptied) := rfl

theorem NurseryOk.emptied {s : Segment} {made made' : Array Ref} (h : NurseryOk s made) :
    NurseryOk s.emptied made' := by
  refine ⟨rfl, Nat.zero_le _, by simpa [Segment.emptied] using h.small, by simp [Segment.emptied],
    fun i _ => ?_, by simp [Segment.emptied]⟩
  rw [Segment.emptied, Memory.word_clear, Word.index_eq]
  split
  · rfl
  · next outside => exact h.rest i (by omega)

namespace Engine
variable {e e' : Engine}

theorem serves_reset (ok : e.Core) (hx : e.Active x)
    (stack : ∀ r ∈ (e.thread (e.txn x).thread).stack, r.isYoung = false) :
    Serves x e (e.setSegment (e.txn x).segment Segment.emptied) := by
  have own := ok.txns x hx
  have works : Works x e (e.setSegment (e.txn x).segment .emptied) :=
    works_setSegment rfl rfl (by simp [Segment.emptied])
  have here := segment_setSegment e (e.txn x).segment (e.txn x).segment .emptied
  rw [if_pos ⟨rfl, segment_lt ok hx⟩] at here
  refine works.serves ok hx ok.heap.good rfl rfl (fun q hq => own.created q hq) own.nodup ?_ ?_ rfl
  · rw [here]
    exact own.nursery.emptied
  · intro r hr
    obtain rfl | shared | ⟨y, hy, created | young⟩ := ok.own_usable hx r hr
    · exact .inl rfl
    · exact .inr (.inl ((works.shared r).2 shared))
    · exact .inr (.inr ⟨y, hy, .inl created⟩)
    · have old := stack r hr
      rw [young.1] at old
      cases old

/-- What a minor collection for `x` that comes to an end leaves. -/
structure Minor (x : TxnId) (e e' : Engine) : Prop where
  serves : Serves x e e'
  used : (e'.segment (e.txn x).segment).used = 0

theorem Minor.alike (h : Minor x e e') {e'' : Engine} (same : Alike e' e'')
    (locked : e''.locked = e'.locked) :
    Minor x e e'' where
  serves := h.serves.trans (same.serves h.serves.core locked)
  used := (same.segment _).used.trans h.used

theorem Serves.minor (h : Serves x e e') (hx : e.Active x)
    (stack : ∀ r ∈ (e'.thread (e.txn x).thread).stack, r.isYoung = false) :
    Minor x e (e'.setSegment (e.txn x).segment Segment.emptied) := by
  have hx' := h.active hx
  have reset := serves_reset h.core hx' (by rwa [h.works.own.thread])
  have lt := segment_lt h.core hx'
  rw [h.works.own.segment] at reset lt
  refine ⟨h.trans reset, ?_⟩
  rw [segment_setSegment, if_pos ⟨rfl, lt⟩]
  rfl

theorem Core.weakOk_of_created (ok : e.Core) (hx : e.Active x)
    (made : ∀ w ∈ (e.segment (e.txn x).segment).weakrefs, w ∈ (e.txn x).created) :
    e.WeakOk (e.txn x).segment := by
  intro w hw
  exact ⟨_, x, ok.life.owned hx, ok.life.thread x hx, .inl (made w hw)⟩

theorem Core.weakref_own (ok : e.Core) (hx : e.Active x) (weak : e.WeakOk (e.txn x).segment)
    (hw : w ∈ (e.segment (e.txn x).segment).weakrefs) :
    w ∈ (e.txn x).created ∨ e.Young (e.txn x).segment w := by
  obtain ⟨t, y, owner, held, own⟩ := weak w hw
  rw [ok.life.owned hx, Option.some.injEq] at owner
  rw [← owner, ok.life.thread x hx, Option.some.injEq] at held
  rwa [← held] at own

end Engine

namespace Evacuation
open Engine TxHeap.Action

variable {e e' : Engine} {ev : Evacuation}

theorem evacuate_spec (ok : e.Core) (hx : e.Active x) (free : .stack (e.txn x).thread ∉ e.locked) :
    (evacuate x (e.txn x).segment (e.txn x).thread e).Finishes
      (fun ev e' => Moves x e e' ∧ ev.Ok x e' ∧
        ∀ r ∈ (e'.thread (e.txn x).thread).stack, r.isYoung = false)
      fun _ e' => Works x e e' ∧ e'.Core ∧ ∃ ms, e'.locked = ms ++ e.locked := by
  unfold evacuate
  rw [look_bind, bind_done (lock_free free), look_bind]
  have alike := alike_acquire e (.stack (e.txn x).thread)
  have locked : (e.acquire (.stack (e.txn x).thread)).locked = .stack
      (e.txn x).thread :: e.locked := rfl
  have started : Ok x (e.acquire (.stack (e.txn x).thread))
      { txn := x, segment := (e.txn x).segment
        youngWeak := (e.segment (e.txn x).segment).weakrefs.toList.filter (·.isYoung)
        oldWeak := (e.segment (e.txn x).segment).weakrefs.toList.filter (!·.isYoung) } :=
    ⟨rfl, rfl, nofun, [], ⟨[], [], ⟨rfl, rfl, rfl, List.nodup_nil⟩, rfl⟩, nofun⟩
  generalize e.acquire (.stack (e.txn x).thread) = e1 at *
  have stack := promoteStack_spec (ok.alike alike) (alike.active.2 hx) started
    (by rw [alike.txn]) (rfl)
    fun j hj => absurd hj (Nat.not_lt_zero j)
  refine .lift_bind stack ?_ ?_
  · rintro ⟨⟨⟩, ev2⟩ e2 ⟨moves2, hev2, settled⟩
    dsimp only
    rw [unlock_bind]
    have alike' := alike_giveUp e2 (.stack (e.txn x).thread)
    have locked' : (e2.giveUp (.stack (e.txn x).thread)).locked = e.locked := by
      simp [giveUp, moves2.serves.locked, locked]
    generalize e2.giveUp (.stack (e.txn x).thread) = e3 at alike' locked'
    have moves3 := moves2.within alike alike' locked'
    have hev3 := hev2.works alike'.works
    refine .lift_bind
      (carries_promoteReachable moves3.serves.core (moves3.active hx) hev3 (e.txn x).segment) ?_ ?_
    · rintro ⟨⟨⟩, ev4⟩ e4 ⟨moves4, threads4, hev4⟩
      refine ⟨moves3.trans moves4, hev4, ?_⟩
      rwa [thread, threads4, ← thread, alike'.thread]
    · rintro _ e4 ⟨moves4, -⟩
      have serves := (moves3.trans moves4).serves
      exact ⟨serves.works, serves.core, [], serves.locked⟩
  · rintro _ e2 moves2
    refine ⟨alike.works.trans moves2.serves.works, moves2.serves.core,
      [.stack (e.txn x).thread], ?_⟩
    rw [moves2.serves.locked, locked]
    rfl

theorem fixTargets_spec (ok : e.Core) (hx : e.Active x) (weak : e.WeakOk (e.txn x).segment) :
    Ends (fixTargets x (e.txn x).segment) e
      (fun _ e' => Serves x e e' ∧ e'.threads = e.threads ∧
        ∀ w ∈ (e'.segment (e.txn x).segment).weakrefs, w ∈ (e'.txn x).created)
      fun _ e' => Serves x e e' := by
  refine .get_bind (.bind (.mono (fixWeakrefs_spec ok hx rfl ?_ nofun) ?_ fun _ _ h => h.1.serves))
  · exact fun w hw => ok.weakref_own hx weak (Array.mem_toList_iff.1 hw)
  rintro live e1 ⟨moves1, threads1, made1⟩
  have hx1 := moves1.active hx
  have serves2 := serves_weakrefs moves1.serves.core hx1 fun _ => live
  have lt1 := segment_lt moves1.serves.core hx1
  rw [moves1.segment] at serves2 lt1
  refine .bind (.of_ok (updateSegment_run ..) (.get_bind ?_))
  have listed2 : ((e1.setSegment (e.txn x).segment fun s => { s with weakrefs := live }).segment
      (e.txn x).segment).weakrefs = live := by
    rw [segment_setSegment, if_pos ⟨rfl, lt1⟩]
  have txn2 : (e1.setSegment (e.txn x).segment fun s => { s with weakrefs := live }).txn x =
      e1.txn x := rfl
  have threads2 : (e1.setSegment (e.txn x).segment fun s => { s with weakrefs := live }).threads =
      e1.threads := rfl
  generalize (e1.setSegment (e.txn x).segment fun s => { s with weakrefs := live }) = e2 at *
  have serves2 := moves1.serves.trans serves2
  refine .mono (fixCopies_spec serves2.core (serves2.active hx) (e.txn x).segment _) ?_
    fun _ e3 h => serves2.trans h.1.serves
  rintro ⟨⟩ e3 ⟨moves3, threads3⟩
  have weakrefs3 := moves3.weakrefs
  rw [serves2.works.own.segment, listed2] at weakrefs3
  refine ⟨serves2.trans moves3.serves, (threads3.trans threads2).trans threads1, fun w hw => ?_⟩
  rw [weakrefs3] at hw
  exact moves3.serves.works.created w (txn2 ▸ made1 w hw)

theorem close_run (k : SegmentId) (ev : Evacuation) (e : Engine) : ∃ f g,
    close k ev e = .ok () (((e.setSegment k Segment.emptied).setCounters f).setLog g) :=
  ⟨fun c => { c with minors := c.minors + 1, promoted := c.promoted + ev.promoted },
    (·.info Event.Kind.minorCollectDone.name k
      [("promoted", .uint ev.promoted), ("exhausted", .bool ev.failure.isSome)]), rfl⟩

end Evacuation

open Engine TxHeap.Action in
theorem collectMinor_spec {e : Engine} (ok : e.Core) (hx : e.Active x)
    (free : .stack (e.txn x).thread ∉ e.locked) (weak : e.WeakOk (e.txn x).segment) :
    (collectMinor x e).Finishes
      (fun failure e' => Minor x e e' ∧ (failure = none → e'.WeakOk (e.txn x).segment) ∧
        ∀ c, failure = some c → c.matchesError .heapExhausted = true)
      fun _ e' => Works x e e' ∧ e'.Core ∧ ∃ ms, e'.locked = ms ++ e.locked := by
  unfold collectMinor
  rw [look_bind, look_bind, look_bind]
  by_cases empty : (e.segment (e.txn x).segment).used = 0
  · rw [if_pos empty]
    exact ⟨⟨.refl x ok, empty⟩, fun _ => weak, nofun⟩
  rw [if_neg empty, look_bind, lift_done (logInfo_run ..)]
  generalize (fun l : Event.Log => l.info _ _ _) = f
  have alike := alike_setLog e f
  have gone : ∀ e', Serves x e e' → Works x e e' ∧ e'.Core ∧ ∃ ms, e'.locked = ms ++ e.locked :=
    fun e' serves => ⟨serves.works, serves.core, [], serves.locked⟩
  refine .bind (Course.Finishes.mono
    (Evacuation.evacuate_spec (ok.alike alike) (alike.active.2 hx) free) ?_ fun _ _ h =>
      ⟨alike.works.trans h.1, h.2⟩)
  rintro ev e1 ⟨moves1, hev, stack1⟩
  have serves1 := (alike.serves ok rfl).trans moves1.serves
  have tail : ∀ e2, Serves x e e2 → (∀ r ∈ (e2.thread (e.txn x).thread).stack, r.isYoung = false) →
      (ev.failure = none → ∀ w ∈ (e2.segment (e.txn x).segment).weakrefs, w ∈ (e2.txn x).created) →
      Course.Finishes
        ((do Evacuation.close (e.txn x).segment ev; return ev.failure : EngineCall (Option Error))
        e2)
        (fun failure e' => Minor x e e' ∧ (failure = none → e'.WeakOk (e.txn x).segment) ∧
          ∀ c, failure = some c → c.matchesError .heapExhausted = true)
        fun _ e' => Works x e e' ∧ e'.Core ∧ ∃ ms, e'.locked = ms ++ e.locked := by
    intro e2 serves2 stack2 made2
    obtain ⟨f, g, run⟩ := Evacuation.close_run (e.txn x).segment ev e2
    rw [lift_done run]
    have minor := serves2.minor hx stack2
    have same := (alike_setCounters (e2.setSegment (e.txn x).segment .emptied) f).trans
      (alike_setLog _ g)
    refine ⟨minor.alike same rfl, fun none => ?_, hev.cause⟩
    have weakOk := minor.serves.core.weakOk_of_created (minor.serves.active hx)
    rw [minor.serves.works.own.segment] at weakOk
    refine (weakOk fun w hw => made2 none w ?_).alike same
    rw [segment_setSegment] at hw
    split at hw
    · exact hw
    · exact hw
  split
  · have hx1 := serves1.active hx
    have weak1 := moves1.weakOk (ok.alike alike) (alike.active.2 hx) (weak.alike alike)
    have number := serves1.works.own.segment
    rw [← number]
    refine .lift_bind (Evacuation.fixTargets_spec serves1.core hx1 weak1) ?_
      fun _ e2 h => gone e2 (serves1.trans h)
    rintro ⟨⟩ e2 ⟨serves2, threads2, made2⟩
    rw [number] at made2 ⊢
    refine tail e2 (serves1.trans serves2) ?_ fun _ => made2
    rwa [thread, threads2]
  · next failed =>
    refine tail e1 serves1 stack1 fun none => ?_
    rw [none] at failed
    exact absurd rfl failed

end TxHeap
