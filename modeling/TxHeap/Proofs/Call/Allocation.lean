import TxHeap.Proofs.Call.Access

/-! Calls on shadow stacks, and allocation. A new object is the last of its nursery, which is
emptied first if it is full, or one of the old heap. If that is exhausted, the transaction gives up.
-/

namespace TxHeap
open Engine

variable {i : Int} {r : Ref}

variable {α β : Type} {who : Actor} {t : ThreadId} {e0 e : Engine} {Q : Engine → Post α}

theorem sound_ending {x : EngineCall α} {last : EngineM Unit}
    (h : Sound who (fun e out e' => Ends last e' (fun _ => Q e out) fun r =>
      Q e (.error r)) e0 (x e)) :
    Sound who Q e0 (x.ending last e) := by
  refine .bindOutcome (h.mono fun e1 out e' ends => ?_)
  unfold Ends at ends
  split at ends
  · next run =>
    simp only [run]
    cases out with
    | ok | error => exact ends
  · next run =>
    simp only [run]
    exact ends

theorem sound_unlocking {x : EngineCall α} {m : Mutex}
    (h : Sound who (fun e out e' => Q e out (e'.giveUp m)) e0 (x e)) :
    Sound who Q e0 (x.ending (unlock m) e) :=
  sound_ending h

namespace Engine

theorem restacked (ok : e.Core) (mine : who = ⟨some t, (e.thread t).txn⟩)
    (stack : Thread → Array Ref)
    (usable : (e.thread t).registered = true → ∀ r ∈ stack (e.thread t), e.Usable t r) :
    Deed who e (e.setThread t fun th => { th with stack := stack th }) ∧
      (e.setThread t fun th => { th with stack := stack th }).Core ∧
      ∀ k, e.WeakOk k → (e.setThread t fun th => { th with stack := stack th }).WeakOk k := by
  cases held : (e.thread t).txn with
  | some x =>
    obtain ⟨hx, rfl, -, registered⟩ := ok.life.txn t x held
    have serves := serves_thread ok hx (f := fun th => { th with stack := stack th })
      ⟨rfl, rfl, rfl⟩ (usable registered)
    refine ⟨.work x ⟨hx, by rw [mine, held]; rfl⟩ serves.works, serves.core, fun k weak => ?_⟩
    by_cases hk : k = (e.txn x).segment
    · rw [hk] at weak ⊢
      exact serves.works.own_weakOk ok.life hx (fun _ hw => .inl hw) (fun _ ho => ho) weak
    · exact serves.works.weakOk ok.life hx hk weak
  | none =>
    have shared_of : ∀ r, e.Usable t r → r = .null ∨ e.Shared r := by
      rintro r (null | shared | ⟨x, hx, -⟩)
      · exact .inl null
      · exact .inr shared
      · rw [held] at hx
        cases hx
    have own : (e.setThread t fun th => { th with stack := stack th }).thread t = e.thread t ∨
        (e.setThread t fun th => { th with stack := stack th }).thread t =
          { e.thread t with stack := stack (e.thread t) } := by
      rw [thread_setThread]
      split
      · exact .inr rfl
      · exact .inl rfl
    have idles : Idles t e (e.setThread t fun th => { th with stack := stack th }) := by
      refine ⟨rfl, rfl, rfl, rfl, rfl, rfl, rfl, rfl, by simp, rfl, fun _ => .refl _,
        fun u hu => ?_, held, ?_, ?_⟩
      · rw [thread_setThread, if_neg fun h => hu h.1.symm]
      · obtain same | changed := own
        · rw [same]
          exact ⟨held, rfl⟩
        · rw [changed]
          exact ⟨held, rfl⟩
      · obtain same | changed := own
        · rw [same]
          exact fun registered r hr => shared_of r (ok.stackOk t registered r hr)
        · rw [changed]
          exact fun registered r hr => shared_of r (usable registered r hr)
    exact ⟨.idle t (.inl (by rw [mine])) idles, idles.core ok, fun k => idles.weakOk⟩

theorem stretch_restack (inv : e.Inv) (mine : who = ⟨some t, (e.thread t).txn⟩)
    (stack : Thread → Array Ref)
    (usable : (e.thread t).registered = true → ∀ r ∈ stack (e.thread t), e.Usable t r) :
    Stretch who e (((e.acquire (.stack t)).setThread t fun th =>
      { th with stack := stack th }).giveUp (.stack t)) := by
  have lull := lull_acquire e (.stack t)
  have alike := lull.alike
  have taken : Amid who .nothing [.stack t] e (e.acquire (.stack t)) :=
    (Amid.rest inv).lull lull rfl
  obtain ⟨deed, core, weak⟩ := restacked (inv.core.alike alike) mine stack
    fun registered r hr => alike.usable.2 (usable registered r hr)
  refine taken.ends alike deed
    (.stack t stack fun registered r hr => alike.usable.2 (usable registered r hr)) core
    (fun free k => weak k (taken.weak free k)) (lull_giveUp _ _) ?_
  simp [giveUp, acquire, setThread]

theorem stretch_unlocked (inv : e.Inv) (m : Mutex) : Stretch who e ((e.acquire m).giveUp m) := by
  have lull := (lull_acquire e m).trans (lull_giveUp _ m)
  have amid : Amid who .nothing [] e ((e.acquire m).giveUp m) :=
    (Amid.rest inv).lull lull (by simp [giveUp, acquire])
  exact amid.stretch

end Engine

theorem ends_popTop (t : ThreadId) (e : Engine) : Ends (popTop t) e
    (fun r e' => (e.thread t).stack.back? = some r ∧
      e' = e.setThread t fun th => { th with stack := th.stack.pop })
    fun _ e' => e' = e := by
  rw [popTop]
  refine .get_bind ?_
  split
  · exact rfl
  · next r top => exact ⟨top, rfl⟩

theorem stackEntry_run (least : 0 ≤ i) (most : i.toNat < (e.thread t).stack.size) :
    inspectEngine (·.stackEntry t i) (e.acquire (.stack t)) =
    .ok (e.thread t).stack[i.toNat] (e.acquire (.stack t)) := by
  refine inspectEngine_ok ?_
  have entry : ((e.acquire (.stack t)).thread t).stack[i.toNat]? =
      some (e.thread t).stack[i.toNat] :=
    Array.getElem?_eq_getElem most
  simp only [stackEntry, if_neg (Int.not_lt.2 least), entry]

section Stack

theorem sound_ownStack {f : Unit → EngineCall α} (inv : e.Inv)
    (next : Sound who Q e (f () (e.acquire (.stack t)))) :
    Sound who Q e ((lock (.stack t) >>= f) e) :=
  sound_lock (fun _ => .refl inv) (inv.locks t) fun _ => next

variable (inv : e.Inv) (mine : who = ⟨some t, (e.thread t).txn⟩)
include inv

include mine in
theorem sound_push (usable : e.Usable t r) : Tame who e (push t r e) := by
  refine sound_ownStack inv (stretch_restack inv mine _ fun registered q hq => ?_)
  obtain hq | rfl := Array.mem_push.1 hq
  · exact inv.core.stackOk t registered q hq
  · exact usable

include mine in
theorem sound_pop : Tame who e (pop t e) := by
  refine sound_ownStack inv (sound_unlocking ?_)
  refine Sound.of_finishes (Course.Finishes.lift (ends_popTop t _)) ?_ ?_
  · rintro r e' ⟨-, rfl⟩
    refine stretch_restack inv mine _ fun registered q hq => inv.core.stackOk t registered q ?_
    rw [← Array.mem_toList_iff, Array.toList_pop] at hq
    exact Array.mem_toList_iff.1 (List.dropLast_subset _ hq)
  · rintro v e' rfl
    exact stretch_unlocked inv _

theorem sound_root (i : Int) : Tame who e (root t i e) := by
  refine sound_ownStack inv (sound_unlocking ?_)
  refine Sound.of_finishes (Course.Finishes.lift (ends_inspectEngine _ _)) ?_ ?_
  · rintro r e' ⟨rfl, -⟩
    exact stretch_unlocked inv _
  · rintro v e' rfl
    exact stretch_unlocked inv _

include mine in
theorem sound_setRoot (usable : e.Usable t r) (least : 0 ≤ i)
    (most : i.toNat < (e.thread t).stack.size) : Tame who e (setRoot t i r e) := by
  refine sound_ownStack inv ?_
  rw [Action.lift_done (stackEntry_run least most)]
  refine stretch_restack inv mine _ fun registered q hq => ?_
  obtain hq | rfl := Array.mem_or_eq_of_mem_setIfInBounds hq
  · exact inv.core.stackOk t registered q hq
  · exact usable

end Stack

variable {n : UInt64} {k : SegmentId} {held : List Mutex} {target : Ref}

def Segment.bumped (s : Segment) (used size : UInt64) : Segment :=
  { s with used := used + size, objects := s.objects.push used }

namespace Engine
variable {e' : Engine} {x : TxnId} {size : UInt64}

def Rounds (n size : UInt64) : Prop := size.toNat = max 16 ((n.toNat + 7) / 8 * 8)

theorem Rounds.eq (h : Rounds n size) (whole : Sizeable n) : size = n := by
  obtain ⟨multiple, least, -⟩ := whole
  rw [Rounds] at h
  exact UInt64.toNat_inj.1 (by omega)

theorem roundSize?_sizeable (ok : e.HeapOk) (h : e.roundSize? n = some size) :
    Sizeable size ∧ Rounds n size := by
  have capacity := Arena.Wf.capacity_eq ok.good
  have small := ok.small
  unfold roundSize? at h
  split at h
  · cases h
  · next most =>
    have bound := UInt64.le_iff_toNat_le.1 (UInt64.not_lt.1 most)
    have rounded := Word.toNat_alignUp n 8 3 (by decide) rfl (by omega)
    have sixteen : Settings.minObject.toNat = 16 := rfl
    have rounds : Rounds n size := by
      cases h
      rw [Rounds]
      split
      · next least =>
        rw [UInt64.lt_iff_toNat_lt, rounded, sixteen] at least
        omega
      · next least =>
        rw [UInt64.lt_iff_toNat_lt, rounded, sixteen] at least
        omega
    refine ⟨?_, rounds⟩
    rw [Rounds] at rounds
    rw [Sizeable]
    omega

end Engine

theorem NurseryOk.bumped {s : Segment} {made : Array Ref} (ok : NurseryOk s made) {size : UInt64}
    (whole : Engine.Sizeable size) (fits : s.used.toNat + size.toNat ≤ 8 * s.nursery.size) :
    NurseryOk (s.bumped s.used size) made ∧ (s.used + size).toNat = s.used.toNat + size.toNat := by
  have sum : (s.used + size).toNat = s.used.toNat + size.toNat := by
    have small := ok.small
    rw [UInt64.toNat_add]
    omega
  obtain ⟨multiple, least, -⟩ := whole
  have aligned := ok.aligned
  refine ⟨⟨?_, ?_, ok.small, fun o ho => ?_, fun i hi => ?_, fun o ho => ?_⟩, sum⟩
  · rw [Segment.bumped, sum]
    omega
  · rwa [Segment.bumped, sum]
  · rw [Segment.bumped, sum]
    obtain ho | rfl := Array.mem_push.1 ho
    · have := ok.object o ho
      omega
    · omega
  · rw [Segment.bumped, sum] at hi
    exact ok.rest i (by omega)
  · obtain ho | rfl := Array.mem_push.1 ho
    · exact ok.header o ho
    · exact .inl (ok.rest _ le_rfl)

namespace Engine
variable {e' : Engine} {x : TxnId} {size : UInt64}

def bumped (e : Engine) (x : TxnId) (size : UInt64) : Engine :=
  e.setSegment (e.txn x).segment (·.bumped (e.segment (e.txn x).segment).used size)

theorem serves_bump (ok : e.Core) (hx : e.Active x) (whole : Sizeable size)
    (fits : (e.segment (e.txn x).segment).used.toNat + size.toNat ≤
      8 * (e.segment (e.txn x).segment).nursery.size) :
    Serves x e (e.bumped x size) ∧
    (e.WeakOk (e.txn x).segment → (e.bumped x size).WeakOk (e.txn x).segment) ∧
      (e.bumped x size).Fresh x
      (.young (e.txn x).segment (e.segment (e.txn x).segment).used) size := by
  have own := ok.txns x hx
  have works : Works x e (e.bumped x size) := works_setSegment rfl rfl rfl
  have lt := segment_lt ok hx
  have here : (e.bumped x size).segment (e.txn x).segment = _ := segment_setSegment ..
  rw [if_pos ⟨rfl, lt⟩] at here
  obtain ⟨nursery, sum⟩ := own.nursery.bumped whole fits
  have objects : ∀ o ∈ (e.segment (e.txn x).segment).objects,
      o ∈ ((e.bumped x size).segment (e.txn x).segment).objects := by
    rw [here]
    exact fun o ho => Array.mem_push_of_mem _ ho
  have number : (e.txn x).segment < 2 ^ 22 := lt.trans_le (ok.segments.trans (by decide))
  have near : (e.segment (e.txn x).segment).used.toNat < 2 ^ 40 := by
    have := own.nursery.small
    omega
  refine ⟨?_, ?_, .inl ⟨⟨Ref.isYoung_young number near, ?_, ?_⟩, ?_, fun o ho => ?_⟩⟩
  · refine works.serves ok hx ok.heap.good rfl rfl
      (fun q hq => own.created q hq) own.nodup ?_ ?_ rfl
    · rwa [here]
    · exact fun q hq => works.own_usable ok.life hx objects (ok.own_usable hx q hq)
  · refine works.own_weakOk ok.life hx ?_ objects
    rw [here]
    exact fun _ hw => .inl hw
  · exact Ref.segment_young number near
  · rw [Ref.offset_young number near]
    change _ ∈ ((e.bumped x size).segment (e.txn x).segment).objects
    rw [here]
    exact Array.mem_push_self
  · rw [Ref.offset_young number near]
    change _ = ((e.bumped x size).segment (e.txn x).segment).used.toNat
    rw [here]
    exact sum.symm
  · change o ∈ ((e.bumped x size).segment (e.txn x).segment).objects at ho
    rw [here] at ho
    rw [Ref.offset_young number near]
    obtain ho | rfl := Array.mem_push.1 ho
    · exact (own.nursery.object o ho).2.le
    · exact le_rfl

theorem toNat_room (ok : e.TxnOk x) :
    (UInt64.ofNat (e.segment (e.txn x).segment).nursery.size * 8).toNat =
    8 * (e.segment (e.txn x).segment).nursery.size := by
  have small := ok.nursery.small
  rw [UInt64.toNat_mul, Word.toNat_ofNat_lt (by omega)]
  change _ * 8 % 2 ^ 64 = _
  omega

theorem bump_fits (ok : e.TxnOk x) (whole : Sizeable size) :
    (e.segment (e.txn x).segment).used + size >
    UInt64.ofNat (e.segment (e.txn x).segment).nursery.size * 8 ↔
      8 * (e.segment (e.txn x).segment).nursery.size <
      (e.segment (e.txn x).segment).used.toNat + size.toNat := by
  have small := ok.nursery.small
  have fits := ok.nursery.fits
  have bound := whole.2.2
  rw [gt_iff_lt, UInt64.lt_iff_toNat_lt, toNat_room ok, UInt64.toNat_add,
    Nat.mod_eq_of_lt (by omega)]

theorem bump?_full
    (full : (e.segment k).used + size > UInt64.ofNat (e.segment k).nursery.size * 8) :
    bump? k size e = .ok none e := by
  rw [bump?, get_bind, get_bind, if_pos full]
  rfl

theorem bump?_fits
    (fits : ¬ (e.segment k).used + size > UInt64.ofNat (e.segment k).nursery.size * 8) :
    bump? k size e =
      .ok (some (.young k (e.segment k).used))
      (e.setSegment k (·.bumped (e.segment k).used size)) := by
  rw [bump?, get_bind, get_bind, if_neg fits]
  rfl

theorem Amid.own {o : Doing} (h : Amid who o held e0 e)
    (runs : e.Runs who x) (mine : o = .nothing ∨ o = .work x) : Amid who (.work x) held e0 e := by
  refine { h with sofar := ?_ }
  obtain rfl | rfl := mine
  · have alike := Lull.alike h.sofar
    exact ⟨⟨alike.active.1 runs.1, by rw [actor, ← alike.txn]; exact runs.2⟩, alike.works⟩
  · exact h.sofar

theorem Amid.tears (h : Amid who (.work x) held e0 e)
    (serves : Serves x e e') (drifts : Drifts x e e') : Torn who x held e0 e' where
  inv := h.inv
  mine := h.sofar.1
  works := h.sofar.2.trans serves.works
  drifts free := ⟨e, h.feats free, h.core, h.weak free, h.runs.1, drifts⟩
  core := serves.core
  weak free k hk := by
    rw [serves.works.own.segment] at hk
    exact serves.works.weakOk h.core.life h.runs.1 hk (h.weak free k)
  locked := serves.locked.trans h.locked

theorem Amid.fails {ms : List Mutex} (h : Amid who (.work x) [.engine] e0 e)
    (works : Works x e e') (core : e'.Core) (locked : e'.locked = ms ++ e.locked) :
    Stretch who e0 e' := by
  have sofar : Sofar who (.work x) e0 e' := ⟨h.sofar.1, h.sofar.2.trans works⟩
  have all : e'.locked = (ms ++ [.engine]) ++ e0.locked := by
    rw [locked, h.locked, List.append_assoc]
  exact sofar.stuck core all (by rw [all]; simp)

end Engine

open Engine TxHeap.Action

variable {x : TxnId} {o : Doing} {size : UInt64}

theorem abortWith_bind {β : Type} (x : TxnId) (cause : Error) (f : α → EngineCall β) :
    (abortWith x cause >>= f) = abortWith x cause := by
  simp only [abortWith, bind_assoc]
  rfl

variable {f : Ref → EngineCall α}

theorem Engine.Amid.sound_poll {f : Unit → EngineCall α} (h : Amid who o [] e0 e) (c : Caller)
    (next : ∀ e1 e2, Later who e e2 → Amid who o [] e1 e2 → Sound who Q e1 (f () e2)) :
    Sound who Q e0 ((poll c >>= f) e) := by
  simp only [poll, bind_assoc]
  rw [look_bind]
  split
  · simp only [bind_assoc]
    refine h.sound_engine fun free amid => amid.sound_park free c fun e1 e2 later amid2 _ => ?_
    rw [unlock_bind]
    exact next _ _ ((alike_acquire e .engine).later.trans
      (later.trans (alike_giveUp e2 .engine).later)) amid2.unlock
  · exact next _ _ (.refl who e) h

theorem sound_givenUp (fails : ∀ e1 v e2, Stretch who e1 e2 → Q e1 (.error v) e2)
    (h : Torn who x [] e0 e) (stuck : .engine ∈ e0.locked → Stretch who e0 e) (cause : Error) :
    Sound who Q e0 (abortWith x cause e) :=
  sound_abortWith h cause stuck (fun _ => fails e0) fun e1 v e2 stretch _ => fails e1 v e2 stretch

section Parts
variable (fails : ∀ e1 v e2, Stretch who e1 e2 → Q e1 (.error v) e2) (h : Amid who o [] e0 e)
  (runs : e.Runs who x)
  (mine : o = .nothing ∨ o = .work x)
include fails h runs mine

theorem sound_roundSize {f : UInt64 → EngineCall α}
    (next : ∀ size, Sizeable size → Rounds n size → Sound who Q e0 (f size e)) :
    Sound who Q e0 ((roundSize x n >>= f) e) := by
  unfold roundSize
  rw [bind_assoc, look_bind]
  split
  · next size rounded =>
    obtain ⟨whole, rounds⟩ := roundSize?_sizeable h.core.heap rounded
    exact next size whole rounds
  · rw [abortWith_bind]
    exact sound_givenUp fails (h.own runs mine).torn (fun _ => h.stretch) _

theorem sound_allocLarge (whole : Sizeable size)
    (next : ∀ e1 e2 r, Amid who (.work x) [] e1 e2 → e2.Fresh x r size → Sound who Q e1 (f r e2)) :
    Sound who Q e0 ((allocLarge x size >>= f) e) := by
  unfold allocLarge
  simp only [bind_assoc]
  rw [look_bind]
  refine h.sound_engine fun free amid => amid.sound_park free _ fun e1 e2 later amid2 free1 => ?_
  have ok := amid2.core
  have later := (alike_acquire e .engine).later.trans later
  have runs2 := later.runs h.core.life runs
  have own := amid2.own runs2 mine
  obtain ⟨e3, only, good, ⟨run, keeps⟩ | ⟨r, n, run, hne, hn, takes⟩⟩ :=
    mallocOld_spec ok.heap.good ok.heap.even ok.heap.small whole.2.2
  · have serves := only.serves ok runs2.1 keeps good
    have same : e3.segment (e2.txn x).segment = e2.segment (e2.txn x).segment := by
      rw [only.segment]
    have amid3 := own.serves serves (.grow whole run) fun free => by
      refine serves.works.own_weakOk ok.life runs2.1 ?_ ?_ (own.weak free _)
      · rw [same]
        exact fun _ hw => .inl hw
      · rw [same]
        exact fun _ ho => ho
    rw [lift_done run, unlock_bind, if_pos rfl, abortWith_bind]
    exact sound_givenUp fails amid3.unlock.torn (fun _ => amid3.unlock.stretch) _
  · obtain ⟨serves, created⟩ := serves_alloc ok runs2.1 only takes good
    have amid3 := own.serves serves (.large runs2.1 whole hne run) fun free => by
      refine serves.works.own_weakOk ok.life runs2.1 ?_ ?_ (own.weak free _)
      · rw [segment_setTxn, only.segment]
        exact fun _ hw => .inl hw
      · rw [segment_setTxn, only.segment]
        exact fun _ ho => ho
    rw [lift_done run, unlock_bind, if_neg hne, bind_assoc, lift_done (updateTxn_run ..)]
    have mem : r ∈ ((e3.setTxn x (·.noteCreated r)).txn x).created := by
      rw [created]
      exact Array.mem_push_self
    exact next e1 _ r amid3.unlock (.inr ⟨mem, n, (takes.live _ n).2 (.inr ⟨rfl, rfl⟩), hn⟩)

theorem sound_allocAfterMinor (whole : Sizeable size)
    (most : size.toNat ≤ 8 * (e.segment (e.txn x).segment).nursery.size)
    (next : ∀ e1 e2 r, Amid who (.work x) [] e1 e2 → e2.Fresh x r size → Sound who Q e1 (f r e2)) :
    Sound who Q e0 ((allocAfterMinor x size >>= f) e) := by
  unfold allocAfterMinor
  simp only [bind_assoc]
  rw [look_bind]
  refine h.sound_engine fun free amid => amid.sound_park free _ fun e1 e2 later amid2 free1 => ?_
  have later := (alike_acquire e .engine).later.trans later
  have runs2 := later.runs h.core.life runs
  have own := amid2.own runs2 mine
  have number :=
    (later.txn _ x runs.thread (h.core.life.thread x runs.1)).keeps.segment
  have stack := amid2.stack_free free1
  have minor := collectMinor_spec amid2.core runs2.1 (stack _) (amid2.weak free1 _)
  rw [bind_run]
  generalize hrun : collectMinor x e2 = course at minor
  cases course with
  | waiting | calling => exact minor.elim
  | raised v e3 =>
    obtain ⟨works, core, ms, locked⟩ := minor
    exact fails e1 v e3 (own.fails works core locked)
  | done failure e3 =>
    obtain ⟨minor, weak, -⟩ := minor
    rw [Course.bind_done, unlock_bind]
    cases failure with
    | some cause =>
      have torn := own.tears minor.serves (.minor cause stack hrun)
      have unlocked : Torn who x [] e1 _ :=
        torn.lull (lull_giveUp e3 .engine) (by simp [giveUp, torn.locked])
      rw [abortWith_bind]
      exact sound_givenUp fails unlocked (fun held => absurd held free1) cause
    | none =>
      have amid3 := (own.serves minor.serves (.minor runs2.1 stack hrun) fun _ => weak rfl).unlock
      have ok3 := amid3.core
      have runs3 := amid3.runs
      have segment3 : ((e3.giveUp .engine).txn x).segment = (e2.txn x).segment :=
        minor.serves.works.own.segment
      have used : ((e3.giveUp .engine).segment ((e3.giveUp .engine).txn x).segment).used = 0 := by
        rw [segment3]
        exact minor.used
      have fits : ((e3.giveUp .engine).segment ((e3.giveUp .engine).txn x).segment).used.toNat +
          size.toNat ≤
          8 * ((e3.giveUp .engine).segment ((e3.giveUp .engine).txn x).segment).nursery.size := by
        have kept : ((e3.giveUp .engine).segment (e2.txn x).segment).nursery.size =
            (e.segment (e.txn x).segment).nursery.size := by
          rw [number]
          exact (number ▸ minor.serves.works.own_segment.2).trans (later.ages.nursery _)
        rw [used, segment3, kept]
        simpa using most
      have bumped := bump?_fits
        ((bump_fits (ok3.txns x runs3.1) whole).not.2 (Nat.not_lt.2 fits))
      obtain ⟨serves, weakly, fresh⟩ := serves_bump ok3 runs3.1 whole fits
      rw [bind_assoc, look_bind, bind_assoc, lift_done bumped]
      exact next e1 _ _ (amid3.serves serves (.bump runs3.1 whole bumped) fun free =>
        weakly (amid3.weak free _)) fresh

theorem sound_allocFrom
    (next : ∀ e1 e2 r size, Sizeable size → Rounds n size → Amid who (.work x) [] e1 e2 →
      e2.Fresh x r size →
      Sound who Q e1 (f r e2)) : Sound who Q e0 ((alloc x n >>= f) e) := by
  unfold alloc
  simp only [bind_assoc]
  rw [lift_done (check_ok h.core.life runs.1), look_bind]
  refine h.sound_poll _ fun e1 e2 later amid2 => ?_
  have runs2 := later.runs h.core.life runs
  have own2 := amid2.own runs2 mine
  refine sound_roundSize fails amid2 runs2 mine fun size whole rounds => ?_
  have enough : size ≤ .ofNat (e2.segment (e2.txn x).segment).nursery.size * 8 ↔
      size.toNat ≤ 8 * (e2.segment (e2.txn x).segment).nursery.size := by
    rw [UInt64.le_iff_toNat_le, toNat_room (amid2.core.txns x runs2.1)]
  rw [look_bind, look_bind, look_bind]
  split
  · exact sound_allocLarge fails amid2 runs2 mine whole fun e3 e4 r =>
      next e3 e4 r size whole rounds
  · next small =>
    rw [not_or, UInt64.not_lt, UInt64.not_lt, enough] at small
    rw [bind_assoc]
    by_cases fits : (e2.segment (e2.txn x).segment).used + size >
        .ofNat (e2.segment (e2.txn x).segment).nursery.size * 8
    · rw [lift_done (bump?_full fits)]
      exact sound_allocAfterMinor fails amid2 runs2 mine whole small.2
        fun e3 e4 r => next e3 e4 r size whole rounds
    · rw [lift_done (bump?_fits fits)]
      have room := Nat.not_lt.1 ((bump_fits (amid2.core.txns x runs2.1) whole).not.1 fits)
      obtain ⟨serves, weakly, new⟩ := serves_bump amid2.core runs2.1 whole room
      exact next e1 _ _ size whole rounds
        (own2.serves serves (.bump runs2.1 whole (bump?_fits fits)) fun free =>
          weakly (own2.weak free _)) new

end Parts

namespace Engine

theorem Settles.phase (h : Settles e e0) (y : TxnId) : (e0.txn y).phase = (e.txn y).phase := by
  obtain alike | ⟨a, b, before, collects, after⟩ := h
  · rw [alike.txn]
  · rw [after.txn, (collects.txn y).keeps.phase, before.txn]

end Engine

theorem sound_alloc (inv : e.Inv) (mine : who = e.actor x) (n : UInt64) :
    Tame who e (alloc x n e) := by
  by_cases hx : e.Active x
  · have allocated := sound_allocFrom (f := pure) (Q := fun e _ e' => Stretch who e e') (n := n)
      (fun _ _ _ stretch => stretch) (.rest inv) ⟨hx, mine⟩ (.inl rfl) fun _ _ _ _ _ _ amid _ =>
        amid.stretch
    rwa [bind_pure] at allocated
  · obtain ⟨v, refused⟩ := check_refused hx
    unfold alloc
    rw [lift_bind_error refused]
    exact .refl inv

theorem Engine.Fresh.congr (fresh : e.Fresh x r size) {e' : Engine} (txns : e'.txns = e.txns)
    (segments : e'.segments = e.segments) (arena : e'.arena = e.arena) : e'.Fresh x r size := by
  simpa only [Fresh, Young, Room, txn, segment, txns, segments, arena] using fresh

section
variable (h : Amid who (.work x) [] e0 e) (ht : t = (e.txn x).thread)
include h ht

theorem Engine.Amid.restack (stack : Thread → Array Ref)
    (usable : ∀ r ∈ stack (e.thread t), e.Usable t r) : Amid who (.work x) [] e0
      (((e.acquire (.stack t)).setThread t fun th => { th with stack := stack th }).giveUp
        (.stack t)) := by
  subst ht
  have alike := alike_acquire e (.stack (e.txn x).thread)
  have taken : Amid who (.work x) [.stack (e.txn x).thread] e0 _ :=
    h.lull (lull_acquire e (.stack (e.txn x).thread)) (by simp [acquire, h.locked])
  have hx := taken.runs.1
  have serves := serves_thread taken.core hx (f := fun th => { th with stack := stack th })
    ⟨rfl, rfl, rfl⟩
    fun r hr => alike.usable.2 (usable r hr)
  have served := taken.serves serves
    (.stack _ stack fun _ r hr => alike.usable.2 (usable r hr)) fun free =>
    serves.works.own_weakOk taken.core.life hx (fun _ hw => .inl hw) (fun _ ho => ho)
      (taken.weak free _)
  exact served.lull (lull_giveUp _ _) (by simp [giveUp, acquire, h.locked])

theorem sound_pushFrom {f : Unit → EngineCall α} (usable : e.Usable t r)
    (next : ∀ e2, Amid who (.work x) [] e0 e2 → Sound who Q e0 (f () e2)) :
    Sound who Q e0 ((push t r >>= f) e) := by
  simp only [push, bind_assoc]
  refine h.sound_stack fun _ => ?_
  rw [lift_done (updateThread_run ..), unlock_bind]
  refine next _ (h.restack ht _ fun q hq => ?_)
  obtain hq | rfl := Array.mem_push.1 hq
  · subst ht
    exact h.core.own_usable h.runs.1 q hq
  · exact usable

theorem sound_popFrom (empty : ∀ v e2, Amid who (.work x) [] e0 e2 → Q e0 (.error v) e2)
    (next : ∀ r e2, Amid who (.work x) [] e0 e2 → e2.txns = e.txns → e2.segments = e.segments →
      e2.arena = e.arena →
      e2.Usable t r → Sound who Q e0 (f r e2)) : Sound who Q e0 ((pop t >>= f) e) := by
  simp only [pop, withLock, bind_assoc]
  refine h.sound_stack fun _ => Sound.bind (sound_unlocking ?_)
  refine Sound.of_finishes (Course.Finishes.lift (ends_popTop t _)) ?_ ?_
  · rintro r e' ⟨top, rfl⟩
    have hx := h.runs.1
    subst ht
    have popped := h.restack rfl (fun th => th.stack.pop) fun q hq => by
      rw [← Array.mem_toList_iff, Array.toList_pop] at hq
      exact h.core.own_usable hx q (Array.mem_toList_iff.1 (List.dropLast_subset _ hq))
    have alike := (alike_acquire e (.stack (e.txn x).thread)).usable.2
      (h.core.own_usable hx r (Array.mem_of_back? top))
    refine next r _ popped rfl rfl rfl ?_
    obtain null | shared | ⟨y, hy, own⟩ := alike
    · exact .inl null
    · exact .inr (.inl shared)
    · refine .inr (.inr ⟨y, ?_, own⟩)
      change (thread (setThread _ _ _) _).txn = _
      rw [thread_setThread]
      split
      · exact hy
      · exact hy
  · rintro v e' rfl
    exact empty v _ (h.lull ((lull_acquire e _).trans (lull_giveUp _ _))
      (by simp [giveUp, acquire, h.locked]))

end

theorem Engine.Amid.list (h : Amid who (.work x) [] e0 e) (whole : Sizeable size)
    (fresh : e.Fresh x r size) (usable : e.Usable (e.txn x).thread target)
    (serves : Serves x e (e.putOwn x r (size.toNat / 8 - 1) target.bits))
    (objects : ((e.putOwn x r (size.toNat / 8 - 1) target.bits).segment (e.txn x).segment).objects =
      (e.segment (e.txn x).segment).objects)
    (weakrefs : ((e.putOwn x r (size.toNat / 8 - 1) target.bits).segment
      (e.txn x).segment).weakrefs =
      (e.segment (e.txn x).segment).weakrefs) :
    Amid who (.work x) [] e0 (e.aimed x r (size.toNat / 8 - 1) target) := by
  have hx := h.runs.1
  have segment1 := serves.works.own.segment
  have listed := serves_weakrefs serves.core (serves.active hx) fun s => s.weakrefs.push r
  have here := segment_setSegment (e.putOwn x r (size.toNat / 8 - 1) target.bits) (e.txn x).segment
    (e.txn x).segment
    fun s => { s with weakrefs := s.weakrefs.push r }
  have lt := segment_lt serves.core (serves.active hx)
  rw [segment1] at listed lt
  rw [if_pos ⟨rfl, lt⟩] at here
  refine h.serves (serves.trans listed) (.weak hx whole fresh usable) fun free =>
    (serves.trans listed).works.own_weakOk h.core.life hx ?_ ?_ (h.weak free _)
  · intro w hw
    rw [here, weakrefs] at hw
    obtain hw | rfl := Array.mem_push.1 hw
    · exact .inl hw
    · right
      rw [Young, here]
      obtain ⟨young, -⟩ | ⟨created, -⟩ := fresh
      · exact .inr ⟨young.1, young.2.1, by rw [objects]; exact young.2.2⟩
      · exact .inl ((serves.trans listed).works.created _ created)
  · rw [here, objects]
    exact fun _ ho => ho

theorem sound_allocWeak (inv : e.Inv) (mine : who = e.actor x) (n : UInt64)
    (usable : e.Usable (e.txn x).thread target) :
    Tame who e (allocWeak x n target e) := by
  unfold allocWeak
  by_cases hx : e.Active x
  · rw [lift_done (check_ok inv.core.life hx)]
    have amid : Amid who (.work x) [] e e := .work inv ⟨hx, mine⟩
    have fails : ∀ e1 (_ : Raise) e2, Stretch who e1 e2 → Stretch who e1 e2 :=
      fun _ _ _ stretch => stretch
    refine sound_roundSize fails amid ⟨hx, mine⟩ (.inr rfl) fun size whole _ => ?_
    rw [look_bind]
    refine sound_pushFrom amid rfl usable fun e2 amid2 => ?_
    refine sound_allocFrom fails amid2 amid2.runs (.inr rfl)
      fun e3 e4 r size' _ rounds amid4 new => ?_
    obtain rfl := rounds.eq whole
    have thread :=
      Option.some.inj ((congrArg Actor.thread mine).symm.trans amid4.runs.thread)
    refine sound_popFrom amid4 thread (fun _ _ amid => amid.stretch)
      fun target e5 amid5 txns segments arena aim => ?_
    have fresh := new.congr txns segments arena
    have thread5 : (e.txn x).thread = (e5.txn x).thread := by rw [thread, txn, txn, txns]
    rw [thread5] at aim
    have ok5 := amid5.core
    have hx5 := amid5.runs.1
    have words : (size' / 8).toNat = size'.toNat / 8 := by rw [UInt64.toNat_div]; rfl
    have least := whole.2.1
    dsimp only
    rw [look_bind, words]
    obtain ⟨young, ends', after⟩ | ⟨created, m, room, bound⟩ := id fresh
    · rw [if_pos young.1]
      have found := youngWords_of_young (ok5.txns x hx5) young
      have span : youngSpan x r e5 = .ok ⟨r.offset.toNat / 8,
          (e5.segment (e5.txn x).segment).used.toNat / 8 - r.offset.toNat / 8⟩ e5 := by
        rw [youngSpan, get_bind, get_bind, found]
        rfl
      rw [lift_done span, setYoung, if_pos (by simp only; omega), lift_done (updateSegment_run ..),
        lift_done (updateSegment_run ..)]
      have put : e5.putOwn x r (size'.toNat / 8 - 1) target.bits =
          e5.setSegment (e5.txn x).segment fun g => { g with
            nursery := g.nursery.write (r.offset.toNat / 8 + (size'.toNat / 8 - 1))
              target.bits } := by
        rw [putOwn, if_pos young.1]
      have serves := serves_nurseryWord ok5 hx5 (j := r.offset.toNat / 8 + (size'.toNat / 8 - 1))
        (v := target.bits)
        (by omega) fun o ho at' => by have := after o ho; omega
      have here := segment_setSegment e5 (e5.txn x).segment (e5.txn x).segment fun g =>
        { g with
          nursery := g.nursery.write (r.offset.toNat / 8 + (size'.toNat / 8 - 1)) target.bits }
      rw [if_pos ⟨rfl, segment_lt ok5 hx5⟩] at here
      rw [← put] at serves here ⊢
      exact (amid5.list whole fresh aim serves (by rw [here]) (by rw [here])).stretch
    · have old := Evacuation.isYoung_of_created ok5 hx5 (.inr created)
      rw [if_neg (by rw [old]; exact Bool.false_ne_true), lift_done (oldSpan_ok ok5.heap.good room),
        lift_done (setOld_ok ok5.heap.good room (Nat.le_refl m) (by omega) target.bits),
        lift_done (updateSegment_run ..)]
      have put : e5.putOwn x r (size'.toNat / 8 - 1) target.bits = e5.putWord r
          (size'.toNat / 8 - 1) target.bits := by
        rw [putOwn, if_neg (by rw [old]; exact Bool.false_ne_true)]
      have serves := (overwrites_putWord ok5.heap.good room (i := size'.toNat / 8 - 1)
        (by omega) target.bits).serves
        ok5 hx5 created
      rw [← put] at serves ⊢
      exact (amid5.list whole fresh aim serves (by rw [put]; rfl) (by rw [put]; rfl)).stretch
  · obtain ⟨v, refused⟩ := check_refused hx
    rw [lift_bind_error refused]
    exact .refl inv

end TxHeap
