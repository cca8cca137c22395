import TxHeap.Proofs.Engine.Beginning

/-! A collection of the old heap: roots are marked, dead weak references and targets are cleared,
the rest is freed and swept. -/

namespace TxHeap
open TxHeap.Action

variable {m : Marking} {r : Ref} {t : ThreadId}

namespace Marking

def Marked (m : Marking) (r : Ref) : Prop := m.marks.bits[Marks.place r]? = some true

theorem marked_of_has (h : m.marks.has r = .ok true) : m.Marked r := by
  unfold Marks.has at h
  split at h
  · next b hb =>
    rw [Marked, hb, Except.ok.inj h]
  · cases h

structure Grows (m m' : Marking) : Prop where
  size : m'.marks.bits.size = m.marks.bits.size
  marked : ∀ r, m.Marked r → m'.Marked r

theorem Grows.refl (m : Marking) : m.Grows m := ⟨rfl, fun _ hr => hr⟩

theorem Grows.trans {a b c : Marking} (h : a.Grows b) (h' : b.Grows c) : a.Grows c :=
  ⟨h'.size.trans h.size, fun r hr => h'.marked r (h.marked r hr)⟩

/-- `x` leaves the engine alone and goes on marking; `P` holds if it gets through, which `R` may
rule out. -/
def Looks {α : Type} (x : MarkingM α) (e : Engine) (m : Marking) (P : Marking → Prop) : Prop :=
  Ends (x.run m) e (fun p e' => e' = e ∧ m.Grows p.2 ∧ P p.2) fun _ e' => e' = e

namespace Looks
variable {α β : Type} {x : MarkingM α} {f : α → MarkingM β} {e : Engine} {P Q : Marking → Prop}

theorem mono (h : Looks x e m P) (hPQ : ∀ m', m.Grows m' → P m' → Q m') : Looks x e m Q :=
  .imp h (fun _ _ hp => ⟨hp.1, hp.2.1, hPQ _ hp.2.1 hp.2.2⟩)

protected theorem bind (h : Looks x e m P)
    (hf : ∀ a m', m.Grows m' → P m' → Looks (f a) e m' Q) : Looks (x >>= f) e m Q := by
  refine .bindT (.imp h ?_)
  rintro ⟨a, m'⟩ e' ⟨rfl, grows, hp⟩
  exact .mono (hf a m' grows hp) (fun _ _ hq => ⟨hq.1, grows.trans hq.2.1, hq.2.2⟩)
    fun _ _ hr => hr

theorem lift {x : EngineM α} (h : Ends x e (fun _ e' => e' = e) fun _ e' => e' = e) :
    Looks (liftM x) e m fun _ => True := by
  change Ends (x >>= fun a => pure (a, m)) e _ _
  exact .bind (.imp h (fun _ _ he => ⟨he, .refl m, trivial⟩))

theorem get_bind {f : Marking → MarkingM β} (h : Looks (f m) e m Q) : Looks (get >>= f) e m Q := h

theorem getThe_bind {f : Engine → MarkingM β} (h : Looks (f e) e m Q) :
    Looks (getThe Engine >>= f) e m Q := h

protected theorem pure {a : α} (h : P m) : Looks (pure a) e m P := ⟨rfl, .refl m, h⟩

end Looks

theorem ends_liftFault {α β : Type} {x : Except Fault α} {f : α → MarkingM β}
    {Q : β × Marking → Engine → Prop}
    {R : Raise → Engine → Prop} (hQ : ∀ a, x = .ok a → Ends ((f a).run m) e Q R) (hR : ∀ r, R r e) :
    Ends ((liftFault x >>= f).run m) e Q R := by
  cases x with
  | ok a => exact hQ a rfl
  | error => exact hR _

def Old (r : Ref) : Prop := ¬ (r = .null ∨ r.isYoung)

theorem marked_set (hr : Marks.place r < m.marks.bits.size) (queue : Queue Ref) (q : Ref) :
    Marked { m with marks := m.marks.set r, queue } q ↔ Marks.place q = Marks.place r ∨
    m.Marked q := by
  simp only [Marked, Marks.set, Array.getElem?_setIfInBounds]
  by_cases hq : Marks.place r = Marks.place q
  · simp [hq, hq ▸ hr]
  · simp [hq, Ne.symm hq]

theorem mark_spec (r : Ref) (e : Engine) (m : Marking) :
    Ends ((mark r).run m) e (fun p e' => e' = e ∧ m.Grows p.2 ∧ (Old r → p.2.Marked r))
      fun _ e' => e' = e ∧ Old r ∧ m.marks.bits.size ≤ Marks.place r := by
  by_cases hr : r = .null ∨ r.isYoung
  · have hrun : (mark r).run m e = .ok ((), m) e := by simp [mark, hr]
    exact .of_ok hrun ⟨rfl, .refl m, fun old => absurd hr old⟩
  · cases hbit : m.marks.bits[Marks.place r]? with
    | none =>
      have hrun : (mark r).run m e = .error (.fault .outOfBounds) e := by
        simp [mark, hr, Marks.has, hbit, liftFault]
        rfl
      exact .of_error hrun ⟨rfl, hr, Array.getElem?_eq_none_iff.1 hbit⟩
    | some bit =>
      cases bit with
      | true =>
        have hrun : (mark r).run m e = .ok ((), m) e := by
          simp [mark, hr, Marks.has, hbit, liftFault]
        exact .of_ok hrun ⟨rfl, .refl m, fun _ => hbit⟩
      | false =>
        have hrun : (mark r).run m e = .ok
            ((), { m with marks := m.marks.set r, queue := m.queue.append r }) e := by
          simp [mark, hr, Marks.has, hbit, liftFault]
        have place := (Array.getElem?_eq_some_iff.1 hbit).1
        have set := marked_set place (m.queue.append r)
        refine .of_ok hrun ⟨rfl, ⟨?_, fun q hq => (set q).2 (.inr hq)⟩,
          fun _ => (set r).2 (.inl rfl)⟩
        simp [Marks.set]

theorem markAll_spec (rs : List Ref) (e : Engine) (m : Marking) : Ends ((markAll rs).run m) e
      (fun p e' => e' = e ∧ m.Grows p.2 ∧ ∀ r ∈ rs, Old r → p.2.Marked r)
      fun _ e' => e' = e ∧ ∃ r ∈ rs, Old r ∧ m.marks.bits.size ≤ Marks.place r := by
  induction rs generalizing m with
  | nil => exact ⟨rfl, .refl m, fun r hr => absurd hr (by simp)⟩
  | cons r rest ih =>
    rw [markAll, StateT.run_bind]
    refine .bind (.mono (mark_spec r e m) ?_ ?_)
    · rintro ⟨⟨⟩, m1⟩ e' ⟨rfl, grows, marked⟩
      refine .mono (ih m1) ?_ ?_
      · rintro ⟨⟨⟩, m2⟩ e' ⟨rfl, grows', marked'⟩
        refine ⟨rfl, grows.trans grows', fun q hq old => ?_⟩
        obtain rfl | hq := List.mem_cons.1 hq
        · exact grows'.marked q (marked old)
        · exact marked' q hq old
      · rintro - e' ⟨rfl, q, hq, old, beyond⟩
        exact ⟨rfl, q, .tail r hq, old, grows.size ▸ beyond⟩
    · rintro - e' ⟨rfl, old, beyond⟩
      exact ⟨rfl, r, .head _, old, beyond⟩

section Parts
variable (e : Engine) (m : Marking)

theorem looks_mark (r : Ref) : Looks (mark r) e m fun m' => Old r → m'.Marked r :=
  Ends.mono (mark_spec r e m) (fun _ _ hp => hp) fun _ _ hr => hr.1

theorem looks_markAll (rs : List Ref) :
    Looks (markAll rs) e m fun m' => ∀ r ∈ rs, Old r → m'.Marked r :=
  Ends.mono (markAll_spec rs e m) (fun _ _ hp => hp) fun _ _ hr => hr.1

theorem looks_markSlots (view : Engine → View) (weak : Bool) :
    Looks (markSlots view weak) e m fun _ => True := by
  refine .bind (.lift (.imp (ends_inspectEngine _ e) (fun _ _ h => h.1))) ?_
  intro slots m' _ _
  exact .getThe_bind (.mono (looks_markAll e m' _) fun _ _ _ => trivial)

theorem looks_markCopies (copies : List (Ref × Array UInt64)) :
    Looks (markCopies copies) e m fun m' => ∀ p ∈ copies, Old p.1 → m'.Marked p.1 := by
  induction copies generalizing m with
  | nil => exact .pure fun p hp => absurd hp (by simp)
  | cons copy rest ih =>
    refine .bind (looks_mark e m copy.1) fun _ m1 _ first => ?_
    refine .get_bind (.bind (looks_markSlots e m1 _ _) fun _ m2 grows _ => ?_)
    refine .mono (ih m2) fun m3 grows' later p hp old => ?_
    obtain rfl | hp := List.mem_cons.1 hp
    · exact grows'.marked _ (grows.marked _ (first old))
    · exact later p hp old

theorem looks_markTxn (x : TxnId) : Looks (markTxn x) e m fun m' => ∀ r, (e.txn x).Holds r → Old r →
    m'.Marked r := by
  refine .getThe_bind ?_
  refine .bind (looks_markAll e m _) fun _ m1 _ start => ?_
  refine .bind (looks_markAll e m1 _) fun _ m2 grows2 reads => ?_
  refine .bind (looks_markAll e m2 _) fun _ m3 grows3 created => ?_
  refine .mono (looks_markCopies e m3 _) fun m4 grows4 writes r hr old => ?_
  obtain hr | ⟨v, hr⟩ | hr | ⟨c, hr⟩ := hr
  · exact ((grows2.trans grows3).trans grows4).marked r (start r (by simpa using hr) old)
  · exact (grows3.trans grows4).marked r (reads r (List.mem_map.2 ⟨(r, v), hr, rfl⟩) old)
  · exact grows4.marked r (created r (by simpa using hr) old)
  · exact writes (r, c) (by simpa using hr) old

theorem looks_markNursery (k : SegmentId) (offs : List UInt64) :
    Looks (markNursery k offs) e m fun _ => True := by
  induction offs generalizing m with
  | nil => exact .pure trivial
  | cons off rest ih =>
    rw [markNursery]
    refine .getThe_bind ?_
    cases e.youngWords? k (.young k off) with
    | none => exact ih m
    | some s =>
      have still := Ends.imp (Engine.ends_sizeIn (·.youngView k s) e) (fun _ _ h => h.1)
      refine .bind (.lift still) fun size m1 _ _ => ?_
      exact .get_bind (.bind (looks_markSlots e m1 _ _) fun _ m2 _ _ => ih m2)

theorem looks_markNurseries (k : Nat) (segments : List Segment) :
    Looks (markNurseries k segments) e m fun _ => True := by
  induction segments generalizing k m with
  | nil => exact .pure trivial
  | cons s rest ih =>
    rw [markNurseries]
    split
    · exact .bind (looks_markNursery e m k _) fun _ m1 _ _ => ih m1 _
    · exact ih m _

theorem looks_markQueue (n : Nat) : Looks (markQueue n) e m fun _ => True := by
  induction n generalizing m with
  | zero => exact rfl
  | succ n ih =>
    rw [markQueue]
    refine .get_bind ?_
    cases m.queue.pop? with
    | none => exact .pure trivial
    | some found =>
      obtain ⟨r, queue⟩ := found
      have popped : Looks (modify fun m => { m with queue } : MarkingM Unit) e m fun _ => True :=
        ⟨rfl, ⟨rfl, fun _ h => h⟩, trivial⟩
      refine .bind popped fun _ m1 _ _ => ?_
      have still := Ends.imp (Engine.ends_oldObject e r) (fun _ _ h => h.1)
      refine .bind (.lift still) fun s m2 _ _ => .get_bind ?_
      exact .bind (looks_markSlots e m2 _ _) fun _ m3 _ _ => ih m3

theorem looks_markReachable : Looks markReachable e m fun _ => True := by
  refine .getThe_bind (.bind (looks_markNurseries e m 0 _) fun _ m1 _ _ => ?_)
  exact .get_bind (looks_markQueue e m1 _)

end Parts

section Threads
variable {e : Engine}

def Reaches (e : Engine) (m : Marking) (t : ThreadId) : Prop :=
  ∀ r ∈ (e.thread t).stack, Old r → Marks.place r < m.marks.bits.size

def Covers (e : Engine) (t : ThreadId) (m : Marking) : Prop :=
  (∀ r ∈ (e.thread t).stack, Old r → m.Marked r) ∧
    ∀ x, (e.thread t).txn = some x → ∀ r, (e.txn x).Holds r → Old r → m.Marked r

theorem Covers.grows {m' : Marking} (h : Covers e t m) (grows : m.Grows m') : Covers e t m' :=
  ⟨fun r hr old => grows.marked r (h.1 r hr old), fun x hx r hr old =>
    grows.marked r (h.2 x hx r hr old)⟩

theorem markThread_spec (free : .stack t ∉ e.locked) (reaches : Reaches e m t) :
    (markThread t m e).Finishes (fun m' e' => e' = e ∧ m.Grows m' ∧ Covers e t m') fun _ e' =>
    e' = e := by
  unfold markThread
  rw [bind_done (lock_free free), look_bind]
  refine .lift_bind (markAll_spec _ (e.acquire _) m) ?_ ?_
  · rintro ⟨⟨⟩, m1⟩ e' ⟨rfl, grows, stack⟩
    have marked : ∀ r ∈ (e.thread t).stack, Old r → m1.Marked r :=
      fun r hr => stack r (Array.mem_toList_iff.2 hr)
    have unlocked : unlock (.stack t) (e.acquire (.stack t)) = .ok () e := by simp [unlock]
    dsimp only
    rw [lift_done unlocked, look_bind]
    cases htxn : (e.thread t).txn with
    | none =>
      exact ⟨rfl, grows, marked, fun x hx => by rw [htxn] at hx; cases hx⟩
    | some x =>
      refine .lift_bind (looks_markTxn e m1 x) ?_ fun _ _ h => h
      rintro ⟨⟨⟩, m2⟩ e' ⟨rfl, grows', holds⟩
      refine ⟨rfl, grows.trans grows', fun r hr old => grows'.marked r (marked r hr old), ?_⟩
      intro y hy
      rw [htxn] at hy
      cases hy
      exact holds
  · rintro - e' ⟨rfl, r, hr, old, beyond⟩
    exact absurd (reaches r (Array.mem_toList_iff.1 hr) old) (Nat.not_lt.2 beyond)

theorem markThreads_spec {ts : List ThreadId} (free : ∀ t, .stack t ∉ e.locked)
    (reaches : ∀ t ∈ ts, Reaches e m t) :
    (markThreads ts m e).Finishes (fun m' e' => e' = e ∧ m.Grows m' ∧ ∀ t ∈ ts, Covers e t m')
      fun _ e' => e' = e := by
  induction ts generalizing m with
  | nil => exact ⟨rfl, .refl m, fun t ht => absurd ht (by simp)⟩
  | cons t rest ih =>
    have first := markThread_spec (free t) (reaches t (.head _))
    refine .bind (first.mono ?_ fun _ _ h => h)
    rintro m1 e' ⟨rfl, grows, covers⟩
    have reaches' : ∀ u ∈ rest, Reaches e' m1 u := fun u hu r hr old => by
      rw [grows.size]
      exact reaches u (.tail t hu) r hr old
    refine (ih reaches').mono ?_ fun _ _ h => h
    rintro m2 e'' ⟨rfl, grows', later⟩
    refine ⟨rfl, grows.trans grows', fun u hu => ?_⟩
    obtain rfl | hu := List.mem_cons.1 hu
    · exact covers.grows grows'
    · exact later u hu

end Threads
end Marking

variable {a : Arena} {ws : List Ref} {e : Engine}

namespace Engine
variable {e1 e2 : Engine} {w : Ref} {n i : Nat}

theorem Core.allocated_of_private (ok : e.Core) (hr : e.Private r) : e.Allocated r := by
  obtain ⟨x, hr⟩ := hr
  by_cases hx : e.Active x
  · exact (ok.txns x hx).created r hr
  · rw [ok.life.ended x hx] at hr
    exact absurd hr (Array.not_mem_empty r)

structure Clears (e e' : Engine) : Prop where
  collects : Collects e e'
  room : ∀ r n, e.Room r n → e'.Room r n
  top : e'.arena.top = e.arena.top
  locked : e'.locked = e.locked

namespace Clears

theorem refl (ok : e.Core) : Clears e e where
  collects :=
    { settings := rfl, layout := rfl, clock := rfl, inevitable := rfl, prebuilt := rfl
      threads := rfl, txns_size := rfl, segments_size := rfl, memory_size := rfl
      txn := fun _ => .refl _
      segment := fun _ => (Segment.Alike.refl _).blanks
      weakrefs := ⟨.refl _, fun w hw => (ok.heap.weakrefs.2 w hw).1⟩
      good := ok.heap.good
      room := fun _ _ hr => hr
      root := fun _ _ hr _ => hr
      word := fun _ _ _ _ _ => .inl rfl }
  room _ _ hr := hr
  top := rfl
  locked := rfl

theorem put (h : Clears e e1) (hw : e.Room w n) (pos : 0 < i) (hi : i < n)
    (mayClear : e.Private w ∨ e.TargetAt w i) : Clears e (e1.putWord w i 0) := by
  have good := h.collects.good
  have hw1 := h.room w n hw
  have room : ∀ q m, (e1.putWord w i 0).Room q m ↔ e1.Room q m :=
    fun q m => room_putWord good hw1 hi 0
  exact
    { collects :=
        { h.collects with
          memory_size := by simpa [putWord] using h.collects.memory_size
          weakrefs := ⟨h.collects.weakrefs.1, fun q hq => by
            obtain ⟨m, hm⟩ := h.collects.weakrefs.2 q hq
            exact ⟨m, (room q m).2 hm⟩⟩
          good := good_putWord good hw1 hi 0
          room := fun q m hq => h.collects.room q m ((room q m).1 hq)
          root := fun q m hq hroot => (room q m).2 (h.collects.root q m hq hroot)
          word := fun q m j hq hj => by
            rw [room] at hq
            rw [wordAt_putWord good hw1 hi hq hj]
            split
            · next heq =>
              rw [heq.1, heq.2]
              exact .inr ⟨pos, rfl, mayClear⟩
            · exact h.collects.word q m j hq hj }
      room := fun q m hq => (room q m).2 (h.room q m hq)
      top := h.top
      locked := h.locked }

theorem nursery (h : Clears e e1) (k : SegmentId) (j : Nat) :
    Clears e (e1.setSegment k fun g => { g with nursery := g.nursery.write j 0 }) := by
  refine { h with collects := { h.collects with segments_size := ?_, segment := fun l => ?_ } }
  · simpa using h.collects.segments_size
  · rw [segment_setSegment]
    split
    · next hl =>
      rw [← hl.1]
      refine (h.collects.segment k).trans ⟨rfl, rfl, rfl, rfl, by simp, fun i => ?_⟩
      rw [Memory.word_write]
      split
      · exact .inr rfl
      · exact .inl rfl
    · exact h.collects.segment l

theorem copy (h : Clears e e1) (x : TxnId) (r : Ref) (i : Nat) (v : UInt64) :
    Clears e (e1.setTxn x (·.setCopyWord r i v)) := by
  refine { h with collects := { h.collects with txns_size := ?_, txn := fun y => ?_ } }
  · simpa using h.collects.txns_size
  · rw [txn_setTxn]
    split
    · next hy =>
      rw [← hy.1]
      refine (h.collects.txn x).trans ⟨⟨rfl, rfl, rfl, rfl, rfl, rfl, fun _ hp => hp⟩, rfl, rfl, ?_⟩
      simp only [Txn.setCopyWord, Array.toList_map, List.map_map]
      refine List.map_congr_left fun p _ => ?_
      simp only [Function.comp]
      split
      · simp
      · rfl
    · exact h.collects.txn y

theorem forget (h : Clears e e1) {left : List Ref} (sub : left.Sublist e.weakrefs) (ok : e.Core) :
    Clears e { e1 with weakrefs := left } := by
  refine { h with collects := { h.collects with weakrefs := ⟨sub, fun w hw => ?_⟩ } }
  obtain ⟨n, hn⟩ := (ok.heap.weakrefs.2 w (sub.subset hw)).1
  exact ⟨n, h.room w n hn⟩

theorem free (h : Clears e e1) {keep : UInt64 → Prop} (good : a.Good)
    (shrinks : e1.arena.Shrinks a keep) (roots : ∀ r n, e.Room r n → e.Root r → keep r.bits)
    (weakrefs : ∀ w ∈ e1.weakrefs, keep w.bits) : Collects e (e1.setArena a) :=
  { h.collects with
    memory_size := shrinks.memory_size.trans h.collects.memory_size
    weakrefs := ⟨h.collects.weakrefs.1, fun w hw => by
      obtain ⟨n, hn⟩ := h.collects.weakrefs.2 w hw
      exact ⟨n, (shrinks.live w.bits n).2 ⟨hn, weakrefs w hw⟩⟩⟩
    good := good
    room := fun r n hr => h.collects.room r n ((shrinks.live r.bits n).1 hr).1
    root := fun r n hr root => (shrinks.live r.bits n).2 ⟨h.room r n hr, roots r n hr root⟩
    word := fun r n i hr hi => by
      have same : (e1.setArena a).wordAt r i = e1.wordAt r i := shrinks.kept r.bits n i hr hi
      rw [same]
      exact h.collects.word r n i ((shrinks.live r.bits n).1 hr).1 hi }

end Clears
end Engine

namespace Marking
open Engine TxHeap.Action

variable {e1 : Engine} {w : Ref} {n : Nat}

theorem ends_clearTarget {β : Type} (next : Unit → MarkingM β) {Q : β × Marking → Engine → Prop}
    {R : Raise → Engine → Prop} (h : Clears e e1) (hw : e.Room w n)
    (mayClear : ∀ l, 2 ≤ l → oldObject w e1 = .ok (w.span l) e1 → e.Private w ∨
      e.TargetAt w (l - 1))
    (hnext : ∀ e2, Clears e e2 → e2.weakrefs = e1.weakrefs →
      (∀ q l i, e1.Room q l → i < l → q ≠ w → e2.wordAt q i = e1.wordAt q i) →
      Ends ((next ()).run m) e2 Q R) (hR : ∀ r e2, Clears e e2 → R r e2) :
    Ends (StateT.run (do
      let s ← oldObject w
      let last := s.length - 1
      let target : Ref := ⟨← getOld s last⟩
      if !(← liftFault (survives (← get).marks target)) then setOld s last 0
      next () : MarkingM β) m) e1 Q R := by
  have good := h.collects.good
  have hw1 := h.room w n hw
  refine .liftT ((ends_oldObject e1 w).stays ?_ fun r => hR r e1 h)
  rintro s ⟨found, shape⟩
  obtain ⟨l, rfl, least, most⟩ := shape n good hw1
  refine .liftT (.of_ok (getOld_ok (by change l - 1 < l; omega)) ?_)
  refine .getT (ends_liftFault (fun survived _ => ?_) fun r => hR r e1 h)
  cases survived with
  | true => exact hnext e1 h rfl fun _ _ _ _ _ _ => rfl
  | false =>
    refine .liftT (.of_ok (setOld_ok good hw1 most (by change l - 1 < l; omega) 0) ?_)
    have put := h.put hw (by omega) (by omega) (mayClear l least found)
    refine hnext _ put rfl fun q k i hq hi hne => ?_
    change (e1.putWord w (l - 1) 0).wordAt q i = _
    rw [wordAt_putWord good hw1 (by omega) hq hi, if_neg fun heq => hne heq.1]

theorem clearCommitted_spec (ok : e.Core) (h : Clears e e1) (weakrefs : e1.weakrefs = e.weakrefs)
    (known : ∀ w ∈ ws, w ∈ e.weakrefs) (nodup : ws.Nodup)
    (same : ∀ w ∈ ws, ∀ n i, e.Room w n → i < n → e1.wordAt w i = e.wordAt w i) :
    Ends ((clearCommitted ws).run m) e1
      (fun p e' => Clears e e' ∧ p.2 = m ∧ p.1.Sublist ws ∧ ∀ w ∈ p.1, m.Marked w)
      fun _ e' => Clears e e' := by
  induction ws generalizing e1 with
  | nil => exact ⟨h, rfl, .refl _, fun w hw => absurd hw (by simp)⟩
  | cons w rest ih =>
    have knownRest : ∀ q ∈ rest, q ∈ e.weakrefs := fun q hq => known q (.tail w hq)
    obtain ⟨absent, nodupRest⟩ := List.nodup_cons.1 nodup
    have hmem := known w (.head _)
    obtain ⟨n, hw⟩ := (ok.heap.weakrefs.2 w hmem).1
    rw [clearCommitted]
    refine .getT (ends_liftFault (fun marked has => ?_) fun _ => h)
    cases marked with
    | false =>
      refine .imp (ih h weakrefs knownRest nodupRest fun q hq => same q (.tail w hq)) ?_
      rintro ⟨left, m''⟩ e'' ⟨clears, rfl, sub, marked⟩
      exact ⟨clears, rfl, sub.cons w, marked⟩
    | true =>
      refine ends_clearTarget (fun _ => return w :: (← clearCommitted rest)) h hw
        (fun l least found => ?_)
        (fun e2 clears sameWeak others => ?_) fun _ _ clears => clears
      · refine .inr ⟨hmem, w.span l, ?_, ?_⟩
        · exact oldObject_congr ok.heap.good h.collects.good hw
            (h.room w n hw) h.collects.layout ok.honest
            (fun i hi => same w (.head _) n i hw hi) found
        · rw [Ref.span_length]
          omega
      · have sameRest : ∀ q ∈ rest, ∀ n i, e.Room q n → i < n → e2.wordAt q i = e.wordAt q i := by
          intro q hq n i hn hi
          have hne : q ≠ w := fun heq => absent (heq ▸ hq)
          rw [others q n i (h.room q n hn) hi hne]
          exact same q (.tail w hq) n i hn hi
        have later := ih clears (sameWeak.trans weakrefs) knownRest nodupRest sameRest
        refine .bindT (.imp later ?_)
        rintro ⟨left, m''⟩ e'' ⟨clears', rfl, sub, marked⟩
        refine ⟨clears', rfl, sub.cons_cons w, fun q hq => ?_⟩
        obtain rfl | hq := List.mem_cons.1 hq
        · exact marked_of_has has
        · exact marked q hq

theorem clearPrivate_spec (ok : e.Core) (k : SegmentId) (h : Clears e e1)
    (own : ∀ w ∈ ws, w.isYoung = true ∨ e.Private w) :
    Ends ((clearPrivate k ws).run m) e1
      (fun p e' => Clears e e' ∧ p.2 = m ∧ e'.weakrefs = e1.weakrefs) fun _ e' => Clears e e' := by
  induction ws generalizing e1 with
  | nil => exact ⟨h, rfl, rfl⟩
  | cons w rest ih =>
    have ownRest : ∀ q ∈ rest, q.isYoung = true ∨ e.Private q := fun q hq => own q (.tail w hq)
    rw [clearPrivate]
    split
    · refine .getTheT (.liftT ((ends_sizeIn _ e1).stays (fun size _ => ?_) fun _ => h))
      refine .liftT ((ends_inspectEngine _ e1).stays (fun target _ => ?_) fun _ => h)
      refine .getT (ends_liftFault (fun survived _ => ?_) fun _ => h)
      cases survived with
      | true => exact ih h ownRest
      | false =>
        refine .liftT ?_
        unfold setYoung
        split
        · exact ih (h.nursery k _) ownRest
        · exact h
    · next old =>
      have priv := (own w (.head _)).resolve_left old
      obtain ⟨n, hw⟩ := ok.allocated_of_private priv
      refine ends_clearTarget (fun _ => clearPrivate k rest) h hw (fun _ _ _ => .inl priv)
        (fun e2 clears sameWeak _ => ?_) fun _ _ clears => clears
      refine .imp (ih clears ownRest) ?_
      rintro ⟨⟨⟩, m'⟩ e' ⟨clears', rfl, sameWeak'⟩
      exact ⟨clears', rfl, sameWeak'.trans sameWeak⟩

theorem clearCopies_spec (x : TxnId) {copies : List (Ref × Array UInt64)} (h : Clears e e1) :
    Ends ((clearCopies x copies).run m) e1
      (fun p e' => Clears e e' ∧ p.2 = m ∧ e'.weakrefs = e1.weakrefs) fun _ e' => Clears e e' := by
  induction copies generalizing e1 with
  | nil => exact ⟨h, rfl, rfl⟩
  | cons copy rest ih =>
    rw [clearCopies]
    refine .getT ?_
    split
    · refine .getT (ends_liftFault (fun survived _ => ?_) fun _ => h)
      cases survived with
      | true => exact ih h
      | false => exact .liftT (.of_ok (updateTxn_run e1 x _) (ih (h.copy x _ _ 0)))
    · exact ih h

theorem clearSegments_spec (ok : e.Core) {k : Nat} {segments : List Segment} (h : Clears e e1)
    (own : ∀ s ∈ segments, ∀ w ∈ s.weakrefs, w.isYoung = true ∨ e.Private w) :
    Ends ((clearSegments k segments).run m) e1
      (fun p e' => Clears e e' ∧ p.2 = m ∧ e'.weakrefs = e1.weakrefs) fun _ e' => Clears e e' := by
  induction segments generalizing k e1 with
  | nil => exact ⟨h, rfl, rfl⟩
  | cons s rest ih =>
    have ownRest := fun q hq => own q (.tail s hq)
    have ownHere :=
      fun w hw => own s (.head _) w (Array.mem_toList_iff.1 hw)
    rw [clearSegments]
    refine .bindT (.imp (clearPrivate_spec ok k h ownHere) ?_)
    rintro ⟨⟨⟩, m'⟩ e2 ⟨clears, rfl, sameWeak⟩
    have goOn : ∀ e3, Clears e e3 → e3.weakrefs = e1.weakrefs →
        Ends ((clearSegments (k + 1) rest).run m') e3
        (fun p e' => Clears e e' ∧ p.2 = m' ∧ e'.weakrefs = e1.weakrefs) fun _ e' =>
          Clears e e' := by
      intro e3 clears3 sameWeak3
      refine .imp (ih clears3 ownRest) ?_
      rintro ⟨⟨⟩, m''⟩ e' ⟨clears', rfl, sameWeak'⟩
      exact ⟨clears', rfl, sameWeak'.trans sameWeak3⟩
    cases s.owner with
    | none => exact goOn e2 clears sameWeak
    | some t =>
      refine .getTheT ?_
      cases (e2.thread t).txn with
      | none => exact goOn e2 clears sameWeak
      | some x =>
        refine .getTheT (.bindT (.imp (clearCopies_spec x clears) ?_))
        rintro ⟨⟨⟩, m''⟩ e3 ⟨clears3, rfl, sameWeak3⟩
        exact goOn e3 clears3 (sameWeak3.trans sameWeak)

theorem clearWeakrefs_spec (ok : e.Core) (weak : ∀ k, e.WeakOk k) (m : Marking) :
    Ends (clearWeakrefs.run m) e
      (fun p e' => Clears e e' ∧ p.2 = m ∧ ∀ w ∈ e'.weakrefs, m.Marked w) fun _ e' =>
      Clears e e' := by
  have committed := clearCommitted_spec (m := m) ok (.refl ok) rfl
    (fun _ hw => hw) ok.heap.weakrefs.1
    fun _ _ _ _ _ _ => rfl
  refine .getTheT (.bindT (.imp committed ?_))
  rintro ⟨left, m'⟩ e1 ⟨clears, rfl, sub, marked⟩
  have own : ∀ s ∈ e1.segments.toList, ∀ w ∈ s.weakrefs, w.isYoung = true ∨ e.Private w := by
    intro s hs w hw
    obtain ⟨k, hk, rfl⟩ := List.getElem_of_mem hs
    have here : e1.segments.toList[k] = e1.segment k := by
      simp only [Array.getElem_toList, Engine.segment]
      rw [Array.getD_eq_getD_getElem?, Array.getElem?_eq_getElem]
      rfl
    rw [here, (clears.collects.segment k).weakrefs] at hw
    obtain ⟨-, x, -, -, created | young⟩ := weak k w hw
    · exact .inr ⟨x, created⟩
    · exact .inl young.1
  refine .modifyTheT (.getTheT ?_)
  refine .bindT (.imp (clearSegments_spec ok (clears.forget sub ok) own) ?_)
  rintro ⟨⟨⟩, m''⟩ e2 ⟨clears2, rfl, sameWeak⟩
  refine ⟨clears2, rfl, fun w hw => marked w ?_⟩
  rwa [sameWeak] at hw

theorem freeUnmarked_spec (good : a.Good)
    (covers : ∀ p : UInt64, p.toNat < a.top.toNat → Marks.place ⟨p⟩ < m.marks.bits.size) :
    ∃ freed a', freeUnmarked m.marks a = .ok freed a' ∧ a'.Good ∧
    a.Shrinks a' fun q => m.Marked ⟨q⟩ := by
  let unmarked : UInt64 → Bool := fun p => !m.marks.bits.getD (Marks.place ⟨p⟩) false
  have bit : ∀ p : UInt64, p.toNat < a.top.toNat → m.marks.has ⟨p⟩ = .ok (!unmarked p) := by
    intro p hp
    have inside := covers p hp
    simp [Marks.has, unmarked, inside]
  have visits : ∀ (freed p size : UInt64) (_ : Memory), p.toNat < a.top.toNat → ∃ freed',
      (do if ← m.marks.has ⟨p⟩ then return { value := freed }
          else return { value := freed + (size + Arena.overhead), free := true } :
        Except Fault (Arena.Visit UInt64)) = .ok { value := freed', free := unmarked p } := by
    intro freed p size _ hp
    rw [bit p hp]
    cases hu : unmarked p with
    | true | false => exact ⟨_, rfl⟩
  obtain ⟨freed, a', cs, hrun, wf, shrinks⟩ := Arena.walk_spec good visits 0
  refine ⟨freed, a', hrun, wf.good, { shrinks with live := fun q n => ?_ }⟩
  rw [shrinks.live]
  refine and_congr_right fun hq => ?_
  have bounds := good.live_bounds hq
  have inside := covers q (by omega)
  simp [Marked, unmarked, inside]

theorem releaseAbove_spec (e : Engine) (good : e.arena.Good) :
    ∃ e', releaseAbove e = .ok () e' ∧ e'.arena.Good ∧ e.arena.Shrinks e'.arena (fun _ => True) ∧
      Alike (e.setArena e'.arena) e' ∧ e'.locked = e.locked := by
  unfold releaseAbove
  simp only [get_bind]
  cases hfail : e.releaseFailure with
  | some =>
    refine ⟨_, rfl, good, .refl fun _ _ _ => trivial, ?_, rfl⟩
    exact { Alike.refl _ with }
  | none =>
    obtain ⟨wf, shrinks⟩ := Arena.Wf.releasePages good e.arena.size
    exact ⟨_, onArena_ok rfl, wf.good, shrinks, .refl _, rfl⟩

structure Complete (e : Engine) (m : Marking) : Prop where
  size : m.marks.bits.size = (Marks.none e.arena.top).bits.size
  roots : ∀ r n, e.Room r n → e.Root r → m.Marked r

theorem place_lt (good : a.Good) {p : UInt64} (hp : p.toNat < a.top.toNat) :
    Marks.place ⟨p⟩ < (Marks.none a.top).bits.size := by
  have top := good.top_eq
  have whole := good.chain.span_mod
  simp only [Marks.place, Marks.none, Array.size_replicate, UInt64.toNat_div, Arena.alignment,
    UInt64.reduceToNat]
  omega

end Marking

def Engine.Collected (e e' : Engine) : Prop :=
  ∃ a b, Engine.Alike e a ∧ Engine.Collects a b ∧ Engine.Alike b e' ∧ e'.locked = e.locked

open Engine in
theorem sweepUnmarked_spec (ok : e.Core) (weak : ∀ k, e.WeakOk k) (complete : m.Complete e) :
    Ends (sweepUnmarked m) e (fun _ e' => e.Collected e') fun _ e' => e.Collected e' := by
  refine .bind (Ends.mono (Marking.clearWeakrefs_spec ok weak m) ?_ ?_)
  · rintro ⟨dead, m'⟩ e1 ⟨clears, rfl, marked⟩
    have good := clears.collects.good
    have covers : ∀ p : UInt64, p.toNat < e1.arena.top.toNat →
        Marks.place ⟨p⟩ < m'.marks.bits.size := by
      intro p hp
      rw [complete.size]
      exact Marking.place_lt ok.heap.good (clears.top ▸ hp)
    obtain ⟨freed, a2, hfree, good2, shrinks2⟩ := Marking.freeUnmarked_spec good covers
    obtain ⟨merged, a3, hsweep, wf3, shrinks3, -⟩ := Arena.sweep_spec good2
    obtain ⟨e4, hrelease, good4, shrinks4, alike4, locked4⟩ :=
      Marking.releaseAbove_spec (e1.setArena a3) wf3.good
    have swept : e1.arena.Shrinks a3 fun q => m'.Marked ⟨q⟩ :=
      shrinks2.trans shrinks3 fun _ _ _ => by simp
    have shrinks : e1.arena.Shrinks e4.arena fun q => m'.Marked ⟨q⟩ :=
      swept.trans shrinks4 fun _ _ _ => by simp
    have collects := clears.free good4 shrinks complete.roots marked
    have alike : Alike (e1.setArena e4.arena) e4 := alike4
    refine .bind (.of_ok (onArena_ok hfree) ?_)
    refine .bind (.of_ok (onArena_ok hsweep) ?_)
    refine .bind (.of_ok hrelease ?_)
    refine ⟨e, e1.setArena e4.arena, .refl e, collects, alike.trans ?_, locked4.trans clears.locked⟩
    exact { Alike.refl _ with }
  · rintro r e1 clears
    exact ⟨e, e1, .refl e, clears.collects, .refl e1, clears.locked⟩

namespace Engine
variable {e' : Engine} {n : Nat}

theorem Core.old_of_room (ok : e.Core) (hr : e.Room r n) : Marking.Old r := by
  have bounds := room_bounds ok.heap.good hr
  have small := ok.heap.small
  rintro (rfl | young)
  · simp [Ref.null] at bounds
  · rw [Ref.isYoung_of_lt (by omega)] at young
    cases young

theorem Core.reaches (ok : e.Core) (size : m.marks.bits.size = (Marks.none e.arena.top).bits.size)
    {t : ThreadId} (ht : (e.thread t).registered = true) : Marking.Reaches e m t := by
  intro r hr old
  have allocated : e.Allocated r := by
    obtain rfl | shared | ⟨x, hx, created | young⟩ := ok.stackOk t ht r hr
    · exact absurd (.inl rfl) old
    · exact shared.1
    · exact (ok.txns x (ok.life.txn t x hx).1).created r created
    · exact absurd (.inr young.1) old
  obtain ⟨n, hn⟩ := allocated
  have bounds := ok.heap.good.live_bounds hn
  rw [size]
  exact Marking.place_lt ok.heap.good (by omega)

theorem mem_registered (e : Engine) (t : ThreadId) :
    t ∈ e.registered ↔ (e.thread t).registered = true := by
  simp only [registered, List.mem_filter, List.mem_range]
  refine ⟨fun h => h.2, fun h => ⟨?_, h⟩⟩
  refine not_not.1 fun hlt => ?_
  rw [thread, getD_out (Nat.le_of_not_lt hlt)] at h
  cases h

theorem Collected.refl (ok : e.Core) : e.Collected e :=
  ⟨e, e, .refl e, (Clears.refl ok).collects, .refl e, rfl⟩

theorem Collected.of_alike {a b : Engine} (h : a.Collected b) (same : Alike e a)
    (locked : a.locked = e.locked) :
    e.Collected b := by
  obtain ⟨c, d, first, collects, last, hlocked⟩ := h
  exact ⟨c, d, same.trans first, collects, last, hlocked.trans locked⟩

end Engine

open Engine TxHeap.Action in
theorem collectOld_spec (ok : e.Core) (weak : ∀ k, e.WeakOk k) (free : ∀ t, .stack t ∉ e.locked) :
    (collectOld e).Finishes (fun _ e' => e.Collected e') fun _ e' => e.Collected e' := by
  unfold collectOld
  rw [look_bind, look_bind, lift_done (logInfo_run ..)]
  generalize hlog : (fun l : Event.Log => l.info _ _ _) = f
  have same := alike_setLog e f
  have ok1 := ok.alike same
  have unchanged : ∀ e', e' = e.setLog f → e.Collected e' := by
    rintro e' rfl
    exact (Collected.refl ok1).of_alike same rfl
  rw [look_bind, look_bind]
  refine .lift_bind (Marking.looks_markAll _ _ _) ?_ fun _ => unchanged
  rintro ⟨⟨⟩, m1⟩ e1 ⟨rfl, grows1, prebuilt⟩
  dsimp only
  rw [look_bind]
  have size1 := grows1.size
  have reaches :=
    fun t ht => ok1.reaches size1 ((mem_registered _ t).1 ht)
  refine .bind ((Marking.markThreads_spec (e := e.setLog f) free reaches).mono ?_
    fun _ => unchanged)
  rintro m2 e1 ⟨rfl, grows2, threads⟩
  refine .lift_bind (Marking.looks_markReachable _ m2) ?_ fun _ => unchanged
  rintro ⟨⟨⟩, m3⟩ e1 ⟨rfl, grows3, -⟩
  have complete : m3.Complete (e.setLog f) := by
    refine ⟨(grows3.size.trans grows2.size).trans size1, fun r n hn root => ?_⟩
    have old := ok1.old_of_room hn
    obtain hr | ⟨t, ht, hr⟩ | ⟨x, hx, holds⟩ := root
    · exact grows3.marked r (grows2.marked r (prebuilt r (Array.mem_toList_iff.2 hr) old))
    · exact grows3.marked r ((threads t ((mem_registered _ t).2 ht)).1 r hr old)
    · have hthread := ok1.life.thread x hx
      have ht := (ok1.life.txn _ x hthread).2.2.2
      exact grows3.marked r ((threads _ ((mem_registered _ _).2 ht)).2 x hthread r holds old)
  refine .lift (Ends.mono (sweepUnmarked_spec ok1 (fun k => (weak k).alike same) complete) ?_ ?_)
  · exact fun _ _ collected => collected.of_alike same rfl
  · exact fun _ _ collected => collected.of_alike same rfl

end TxHeap
