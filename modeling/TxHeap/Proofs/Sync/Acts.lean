import TxHeap.Proofs.Sync.Quiet

/-! What a call does, act by act, to who holds and who waits for what, until it waits or ends, and
what such acts keep. -/

namespace TxHeap
variable {σ : Stance} {t u : ThreadId} {i : Nat} {mode : PauseMode} {k : SegmentId}

/-- Who acts in a call, and what it has taken so far. -/
structure Stance where
  /-- The foreign caller that it acts for. -/
  control : Option Nat := none
  threads : List ThreadId := []
  /-- How many threads there were when it last went on. -/
  known : Nat
  held : List Mutex := []
  /-- For whom it has asked for a pause. -/
  pausing : Option Caller := none
  /-- Whether it has found a free segment and not taken one yet. -/
  seeking : Bool := false

namespace Stance

def mine (σ : Stance) (t : ThreadId) : Prop := t ∈ σ.threads ∨ σ.known ≤ t

def Mine (σ : Stance) : Caller → Prop
  | .thread t => σ.mine t
  | _ => True

@[simp] def take (σ : Stance) (m : Mutex) : Stance := { σ with held := m :: σ.held }

@[simp] def drop (σ : Stance) (m : Mutex) : Stance := { σ with held := σ.held.erase m }

@[simp] theorem drop_take (σ : Stance) (m : Mutex) : (σ.take m).drop m = σ := by
  simp [take, drop]

end Stance

namespace Engine
variable {e e' e'' : Engine} {who : Caller}

/-- The states differ in nothing that a transaction or a collection depends on but shadow stacks. -/
structure SameButStacks (e e' : Engine) : Prop where
  clock : e'.clock = e.clock
  inevitable : e'.inevitable = e.inevitable
  weakrefs : e'.weakrefs = e.weakrefs
  prebuilt : e'.prebuilt = e.prebuilt
  arena : e'.arena = e.arena
  txns : e'.txns = e.txns
  threads_size : e'.threads.size = e.threads.size
  thread : ∀ t, e'.thread t = { e.thread t with stack := (e'.thread t).stack }
  segments_size : e'.segments.size = e.segments.size
  segment : ∀ k, (e.segment k).Alike (e'.segment k)

theorem Alike.sameButStacks (h : Alike e e') : SameButStacks e e' :=
  { h with threads_size := by rw [h.threads], thread := fun t => by rw [h.thread] }

theorem SameButStacks.trans (h : SameButStacks e e') (h' : SameButStacks e' e'') :
    SameButStacks e e'' where
  clock := h'.clock.trans h.clock
  inevitable := h'.inevitable.trans h.inevitable
  weakrefs := h'.weakrefs.trans h.weakrefs
  prebuilt := h'.prebuilt.trans h.prebuilt
  arena := h'.arena.trans h.arena
  txns := h'.txns.trans h.txns
  threads_size := h'.threads_size.trans h.threads_size
  thread t := by rw [h'.thread t, h.thread t]
  segments_size := h'.segments_size.trans h.segments_size
  segment k := (h.segment k).trans (h'.segment k)

/-- No thread is forgotten, no other foreign caller is affected, and transactions stay as they
ended. -/
structure Tidy (σ : Stance) (e e' : Engine) : Prop where
  threads_size : e.threads.size ≤ e'.threads.size
  others : ∀ c, σ.control ≠ some c → e'.foreign.lookup c = e.foreign.lookup c
  own : ∀ c f, e'.foreign.lookup c = some f →
    (∃ g, e.foreign.lookup c = some g ∧ g.thread = f.thread) ∨
      σ.mine f.thread ∧ f.thread < e'.threads.size
  past : ∀ y, y < e.txns.size → (e.txn y).phase.isActive = false →
    y < e'.txns.size ∧ (e'.txn y).phase = (e.txn y).phase

theorem Tidy.trans (h : Tidy σ e e') (h' : Tidy σ e' e'') : Tidy σ e e'' where
  threads_size := Nat.le_trans h.threads_size h'.threads_size
  others c hc := (h'.others c hc).trans (h.others c hc)
  own c f hf := by
    obtain ⟨g, hg, same⟩ | new := h'.own c f hf
    · rw [← same]
      exact (h.own c g hg).imp id fun new => ⟨new.1, Nat.lt_of_lt_of_le new.2 h'.threads_size⟩
    · exact .inr new
  past y hy ended := by
    obtain ⟨known, same⟩ := h.past y hy ended
    obtain ⟨known', same'⟩ := h'.past y known (by rwa [same])
    exact ⟨known', same'.trans same⟩

theorem tidy_of_eq (threads_size : e'.threads.size = e.threads.size)
    (foreign : e'.foreign = e.foreign) (txns : e'.txns = e.txns) : Tidy σ e e' where
  threads_size := Nat.le_of_eq threads_size.symm
  others c _ := by rw [foreign]
  own c f hf := .inl ⟨f, foreign ▸ hf, rfl⟩
  past y hy _ := by
    rw [txn, txn, txns]
    exact ⟨hy, rfl⟩

theorem Silent.tidy (h : Silent e e') : Tidy σ e e' where
  threads_size := Nat.le_of_eq h.threads_size.symm
  others c _ := by rw [h.foreign]
  own c f hf := .inl ⟨f, h.foreign ▸ hf, rfl⟩
  past y hy _ := ⟨by rwa [h.txns_size], (h.txn y).2.2⟩

def Going (e : Engine) (who : Caller) : Prop :=
  e.pausedFor who = false ∨ ∃ k, e.segmentOf who = some k ∧ (e.segment k).standing = .running

@[simps!] def taken (e : Engine) (t : ThreadId) (k : SegmentId) : Engine :=
  (e.setSegment k fun s => { s with owner := some t, standing := .running }).setThread t fun th =>
    { th with segment := some k, lastSegment := some k }

@[simps!] def left (e : Engine) (t : ThreadId) (k : SegmentId) : Engine :=
  (((e.setSegment k fun s => { s with owner := none, standing := .free }).setThread t fun th =>
    { th with segment := none }).wakeOne .freeSegment).wakeAll .safePoint

@[simps!] def paused (e : Engine) (who : Caller) (mode : PauseMode) : Engine :=
  { e with pauser := some who, pauseMode := mode }

@[simps!] def resumed (e : Engine) : Engine :=
  { e with pauser := none, pauseMode := .none }.wakeAll .released

@[simps!] def bound (e : Engine) (x : TxnId) : Engine := { e with inevitable := some x }

@[simps!] def unbound (e : Engine) : Engine := { e with inevitable := none }.wakeAll .inevitableDone

end Engine

open Engine

inductive Act : Stance → Engine → Stance → Engine → Prop
  /-- It changes objects, or threads and transactions. -/
  | work {σ : Stance} {e e' : Engine} (who : Caller) (mine : σ.Mine who) (going : e.Going who)
      (still : Still e e') (tidy : Tidy σ e e') : Act σ e σ e'
  | idle {σ : Stance} {e e' : Engine} (still : Still e e') (sameButStacks : SameButStacks e e')
      (tidy : Tidy σ e e') : Act σ e σ e'
  | lock {σ : Stance} {e : Engine} (m : Mutex) (free : m ∉ e.locked) :
      Act σ e (σ.take m) (e.acquire m)
  | unlock {σ : Stance} {e : Engine} (m : Mutex) (held : m ∈ σ.held) :
      Act σ e (σ.drop m) (e.giveUp m)
  | take {σ : Stance} {e : Engine} (t : ThreadId) (k : SegmentId) (mine : σ.mine t)
      (known : t < e.threads.size) (unseated : (e.thread t).segment = none)
      (inside : k < e.segments.size) (free : (e.segment k).owner = none)
      (going : e.pausedFor (.thread t) = false) : Act σ e { σ with seeking := false } (e.taken t k)
  | leave {σ : Stance} {e : Engine} (t : ThreadId) (k : SegmentId) (mine : σ.mine t)
      (known : t < e.threads.size) (held : (e.thread t).segment = some k)
      (inside : k < e.segments.size) (going : e.Going (.thread t)) :
      Act σ e σ (e.left t k)
  | pause {σ : Stance} {e : Engine} (who : Caller) (mode : PauseMode) (mine : σ.Mine who)
      (unasked : e.pauser = none) : Act σ e { σ with pausing := some who } (e.paused who mode)
  | release {σ : Stance} {e : Engine} (who : Caller) (mine : σ.Mine who)
      (own : σ.pausing = some who)
      (pauser : e.pauser = some who) : Act σ e { σ with pausing := none } e.resumed
  | bind {σ : Stance} {e : Engine} (x : TxnId) (who : Caller) (mine : σ.Mine who)
      (going : e.Going who) (nobody : e.inevitable = none) : Act σ e σ (e.bound x)
  | unbind {σ : Stance} {e : Engine} (who : Caller) (mine : σ.Mine who) (going : e.Going who) :
      Act σ e σ e.unbound
  | rouse {σ : Stance} {e : Engine} (who : Caller) (mine : σ.Mine who)
      (going : e.pausedFor who = false) :
      Act σ e σ (e.setStanding (e.segmentOf who) .running)

inductive Acts (σ : Stance) (e : Engine) : Stance → Engine → Prop
  | refl : Acts σ e σ e
  | step {σ1 σ2 : Stance} {e1 e2 : Engine} (before : Acts σ e σ1 e1) (act : Act σ1 e1 σ2 e2) :
      Acts σ e σ2 e2

namespace Acts
variable {σ1 σ' : Stance} {e e1 e' : Engine}

theorem single (h : Act σ e σ' e') : Acts σ e σ' e' := .step .refl h

theorem trans (h : Acts σ e σ1 e1) (h' : Acts σ1 e1 σ' e') : Acts σ e σ' e' := by
  induction h' with
  | refl => exact h
  | step _ act ih => exact .step ih act

theorem fold {P : Stance → Engine → Prop} (h : Acts σ e σ' e') (start : P σ e)
    (act : ∀ σ1 e1 σ2 e2, P σ1 e1 → Act σ1 e1 σ2 e2 → P σ2 e2) : P σ' e' := by
  induction h with
  | refl => exact start
  | step _ last ih => exact act _ _ _ _ ih last

theorem same (h : Acts σ e σ' e') : σ'.control = σ.control ∧ σ'.threads = σ.threads ∧
    σ'.known = σ.known :=
  h.fold (P := fun τ _ => τ.control = σ.control ∧ τ.threads = σ.threads ∧ τ.known = σ.known)
    ⟨rfl, rfl, rfl⟩
    fun _ _ _ _ same act => by cases act <;> exact same

theorem mine (h : Acts σ e σ' e') : σ'.mine = σ.mine := by
  funext t
  rw [Stance.mine, Stance.mine, h.same.2.1, h.same.2.2]

end Acts

section Locks

structure Stance.Holds (σ : Stance) (e : Engine) : Prop where
  locked : e.locked.Nodup
  held : σ.held.Nodup
  sub : ∀ m ∈ σ.held, m ∈ e.locked

variable {σ' : Stance} {e e' : Engine}

theorem Stance.Holds.mono (h : σ.Holds e) (held : σ'.held = σ.held)
    (locked : e'.locked = e.locked) : σ'.Holds e' :=
  ⟨locked ▸ h.locked, held ▸ h.held, by rw [held, locked]; exact h.sub⟩

theorem Act.holds (a : Act σ e σ' e') (h : σ.Holds e) : σ'.Holds e' := by
  cases a with
  | work who mine going still | idle still => exact h.mono rfl still.locked
  | lock m free =>
    refine ⟨List.nodup_cons.2 ⟨free, h.locked⟩,
      List.nodup_cons.2 ⟨fun held => free (h.sub m held), h.held⟩, ?_⟩
    intro m' hm'
    obtain rfl | hm' := List.mem_cons.1 hm'
    · exact .head _
    · exact .tail _ (h.sub m' hm')
  | unlock m held =>
    refine ⟨h.locked.erase m, h.held.erase m, fun m' hm' => ?_⟩
    obtain ⟨ne, hm'⟩ := h.held.mem_erase_iff.1 hm'
    exact h.locked.mem_erase_iff.2 ⟨ne, h.sub m' hm'⟩
  | take | leave | pause | release | bind | unbind => exact h.mono rfl rfl
  | rouse who =>
    refine h.mono rfl ?_
    cases e.segmentOf who <;> rfl

theorem Acts.holds (a : Acts σ e σ' e') (h : σ.Holds e) : σ'.Holds e' :=
  a.fold h fun _ _ _ _ h act => act.holds h

theorem Act.others (a : Act σ e σ' e') (h : σ.Holds e) (m : Mutex) :
    m ∈ e'.locked ∧ m ∉ σ'.held ↔ m ∈ e.locked ∧ m ∉ σ.held := by
  cases a with
  | work who mine going still | idle still => rw [still.locked]
  | lock n free =>
    simp only [acquire, Stance.take, List.mem_cons, not_or]
    refine ⟨?_, ?_⟩
    · rintro ⟨rfl | locked, ne, other⟩
      · exact absurd rfl ne
      · exact ⟨locked, other⟩
    · rintro ⟨locked, other⟩
      exact ⟨.inr locked, fun same => free (same ▸ locked), other⟩
  | unlock n held =>
    simp only [giveUp, Stance.drop, h.locked.mem_erase_iff, h.held.mem_erase_iff, not_and]
    refine ⟨fun h => ⟨h.1.2, h.2 h.1.1⟩, ?_⟩
    rintro ⟨locked, other⟩
    exact ⟨⟨fun same => other (same ▸ held), locked⟩, fun _ => other⟩
  | take | leave | pause | release | bind | unbind => rfl
  | rouse who => cases e.segmentOf who <;> rfl

theorem Acts.others (a : Acts σ e σ' e') (h : σ.Holds e) (m : Mutex) :
    m ∈ e'.locked ∧ m ∉ σ'.held ↔ m ∈ e.locked ∧ m ∉ σ.held := by
  induction a with
  | refl => rfl
  | step before act ih => exact (act.others (before.holds h) m).trans ih

end Locks

namespace Engine
variable {e e' : Engine} {who : Caller}

theorem segment_taken (inside : k < e.segments.size) (j : SegmentId) :
    (e.taken t k).segment j =
    if k = j then { e.segment k with owner := some t, standing := .running } else e.segment j :=
  getD_modify_inside inside ..

theorem thread_taken (known : t < e.threads.size) (u : ThreadId) :
    (e.taken t k).thread u =
    if t = u then { e.thread t with segment := some k, lastSegment := some k } else e.thread u :=
  getD_modify_inside known ..

theorem segment_left (inside : k < e.segments.size) (j : SegmentId) :
    (e.left t k).segment j = if k = j then { e.segment k with owner := none, standing := .free }
    else e.segment j :=
  getD_modify_inside inside ..

theorem thread_left (known : t < e.threads.size) (u : ThreadId) :
    (e.left t k).thread u = if t = u then { e.thread t with segment := none } else e.thread u :=
  getD_modify_inside known ..

structure Seats (e : Engine) : Prop where
  holds : ∀ t k, (e.thread t).segment = some k → (e.segment k).owner = some t
  owner : ∀ k t, (e.segment k).owner = some t → (e.thread t).segment = some k
  free : ∀ k, (e.segment k).owner = none ↔ (e.segment k).standing = .free

theorem Seats.segment_lt (h : e.Seats) (held : (e.thread t).segment = some k) :
    k < e.segments.size := by
  refine Nat.lt_of_not_le fun out => ?_
  have owner := h.holds t k held
  rw [segment, getD_out out] at owner
  cases owner

theorem seat_lt (held : (e.thread t).segment = some k) : t < e.threads.size := by
  refine Nat.lt_of_not_le fun out => ?_
  rw [thread, getD_out out] at held
  cases held

theorem Seats.still (h : e.Seats) (still : Still e e') : e'.Seats where
  holds t k := by
    rw [still.thread, (still.segment k).1]
    exact h.holds t k
  owner k t := by
    rw [still.thread, (still.segment k).1]
    exact h.owner k t
  free k := by
    rw [(still.segment k).1, (still.segment k).2]
    exact h.free k

theorem Seats.unique (h : e.Seats) (ht : (e.thread t).segment = some k)
    (hu : (e.thread u).segment = some k) :
    t = u :=
  Option.some.inj ((h.holds t k ht).symm.trans (h.holds u k hu))

theorem segmentOf_some (h : e.segmentOf who = some k) :
    ∃ t, who = .thread t ∧ (e.thread t).segment = some k := by
  cases who with
  | thread t => exact ⟨t, rfl, h⟩
  | system | outside => cases h

theorem segment_setStanding (inside : k < e.segments.size) (standing : Standing) (j : SegmentId) :
    (e.setStanding (some k) standing).segment j = if k = j then { e.segment k with standing }
    else e.segment j :=
  getD_modify_inside inside ..

theorem Seats.restand (h : e.Seats) (held : e.segmentOf who = some k) {standing : Standing}
    (taken : standing ≠ .free) :
    (e.setStanding (some k) standing).Seats := by
  obtain ⟨t, rfl, seat⟩ := segmentOf_some held
  have segments := segment_setStanding (h.segment_lt seat) standing
  have owners : ∀ j, ((e.setStanding (some k) standing).segment j).owner = (e.segment j).owner := by
    intro j
    rw [segments]
    split
    · next hj => rw [← hj]
    · rfl
  refine ⟨fun u j hu => (owners j).trans (h.holds u j hu),
    fun j u hj => h.owner j u ((owners j).symm.trans hj), fun j => ?_⟩
  rw [owners, segments]
  split
  · next hj =>
    subst hj
    rw [h.holds t k seat]
    exact ⟨nofun, fun free => absurd free taken⟩
  · exact h.free j

end Engine

section Seats
variable {σ' : Stance} {e e' : Engine}

theorem Act.seats (a : Act σ e σ' e') (h : e.Seats) : e'.Seats := by
  cases a with
  | work who mine going still | idle still => exact h.still still
  | lock | unlock | pause | release | bind | unbind => exact ⟨h.holds, h.owner, h.free⟩
  | take t k mine known unseated inside free =>
    have others : ∀ u j, (e.thread u).segment = some j → k ≠ j := by
      rintro u j hu rfl
      rw [h.holds u k hu] at free
      cases free
    refine ⟨fun u j => ?_, fun j u => ?_, fun j => ?_⟩
    · rw [thread_taken known, segment_taken inside]
      split
      · next hu =>
        rintro ⟨⟩
        rw [if_pos rfl, hu]
      · intro hu
        rw [if_neg (others u j hu)]
        exact h.holds u j hu
    · rw [thread_taken known, segment_taken inside]
      split
      · next hj =>
        rintro ⟨⟩
        rw [if_pos rfl, hj]
      · intro hj
        have seat := h.owner j u hj
        rw [if_neg, seat]
        rintro rfl
        rw [unseated] at seat
        cases seat
    · rw [segment_taken inside]
      split
      · exact ⟨nofun, nofun⟩
      · exact h.free j
  | leave t k mine known held inside =>
    refine ⟨fun u j => ?_, fun j u => ?_, fun j => ?_⟩
    · rw [thread_left known, segment_left inside]
      split
      · nofun
      · next hu =>
        intro seat
        rw [if_neg fun hj : k = j => hu (h.unique held (hj ▸ seat))]
        exact h.holds u j seat
    · rw [thread_left known, segment_left inside]
      split
      · nofun
      · next hj =>
        intro owner
        have seat := h.owner j u owner
        rw [if_neg, seat]
        rintro rfl
        rw [held] at seat
        exact hj (Option.some.inj seat)
    · rw [segment_left inside]
      split
      · exact ⟨fun _ => rfl, fun _ => rfl⟩
      · exact h.free j
  | rouse who =>
    cases held : e.segmentOf who with
    | none => exact h
    | some => exact h.restand held nofun

theorem Acts.seats (a : Acts σ e σ' e') (h : e.Seats) : e'.Seats :=
  a.fold h fun _ _ _ _ h act => act.seats h

theorem Act.elsewhere (a : Act σ e σ' e') (h : e.Seats) (owner : (e.segment k).owner = some t)
    (other : ¬ σ.mine t) :
    (e'.segment k).owner = some t ∧ (e'.segment k).standing = (e.segment k).standing := by
  cases a with
  | work who mine going still | idle still =>
    exact ⟨(still.segment k).1.trans owner, (still.segment k).2⟩
  | lock | unlock | pause | release | bind | unbind => exact ⟨owner, rfl⟩
  | take u j mine known unseated inside free =>
    rw [segment_taken inside, if_neg]
    · exact ⟨owner, rfl⟩
    · rintro rfl
      rw [owner] at free
      cases free
  | leave u j mine known held inside =>
    rw [segment_left inside, if_neg]
    · exact ⟨owner, rfl⟩
    · rintro rfl
      rw [h.holds u j held] at owner
      exact other (Option.some.inj owner ▸ mine)
  | rouse who mine =>
    cases held : e.segmentOf who with
    | none => exact ⟨owner, rfl⟩
    | some j =>
      obtain ⟨u, rfl, seat⟩ := segmentOf_some held
      rw [segment_setStanding (h.segment_lt seat), if_neg]
      · exact ⟨owner, rfl⟩
      · rintro rfl
        rw [h.holds u j seat] at owner
        exact other (Option.some.inj owner ▸ mine)

theorem Acts.elsewhere (a : Acts σ e σ' e') (h : e.Seats) (owner : (e.segment k).owner = some t)
    (other : ¬ σ.mine t) :
    (e'.segment k).owner = some t ∧ (e'.segment k).standing = (e.segment k).standing := by
  induction a with
  | refl => exact ⟨owner, rfl⟩
  | step before act ih =>
    have now := act.elsewhere (before.seats h) ih.1 (by rwa [before.mine])
    exact ⟨now.1, now.2.trans ih.2⟩

def Stance.Up (σ : Stance) (e : Engine) : Prop :=
  ∀ t k, σ.mine t → (e.thread t).segment = some k → (e.segment k).standing = .running

theorem Act.up (a : Act σ e σ' e') (h : e.Seats) (up : σ.Up e) : σ'.Up e' := by
  intro u j mine seat
  cases a with
  | work who _ going still | idle still =>
    rw [still.thread] at seat
    rw [(still.segment j).2]
    exact up u j mine seat
  | lock | unlock | pause | release | bind | unbind => exact up u j mine seat
  | take t k _ known unseated inside =>
    rw [thread_taken known] at seat
    rw [segment_taken inside]
    split at seat
    · cases seat
      rw [if_pos rfl]
    · split
      · rfl
      · exact up u j mine seat
  | leave t k _ known held inside =>
    rw [thread_left known] at seat
    split at seat
    · cases seat
    · next other =>
      rw [segment_left inside, if_neg fun hj : k = j => other (h.unique held (hj ▸ seat))]
      exact up u j mine seat
  | rouse who =>
    cases held : e.segmentOf who with
    | none =>
      rw [held] at seat
      exact up u j mine seat
    | some =>
      rw [held] at seat
      obtain ⟨t, rfl, own⟩ := segmentOf_some held
      rw [segment_setStanding (h.segment_lt own)]
      split
      · rfl
      · exact up u j mine seat

theorem Acts.up (a : Acts σ e σ' e') (h : e.Seats) (up : σ.Up e) : σ'.Up e' := by
  induction a with
  | refl => exact up
  | step before act ih => exact act.up (before.seats h) ih

end Seats

section Sleepers
variable {σ' : Stance} {e e' : Engine} {who : Caller}

theorem Engine.dropFirst_sublist (c : Condition) (l : List (Nat × Condition)) :
    (dropFirst c l).Sublist l := by
  induction l with
  | nil => exact .refl []
  | cons p rest ih =>
    rw [dropFirst]
    split
    · exact .cons p (.refl rest)
    · exact ih.cons_cons p

theorem Act.asleep (a : Act σ e σ' e') : e'.tickets = e.tickets ∧ e'.asleep.Sublist e.asleep := by
  cases a with
  | work who mine going still | idle still => exact ⟨still.tickets, still.asleep ▸ .refl _⟩
  | lock | unlock | take | pause | bind => exact ⟨rfl, .refl _⟩
  | leave => exact ⟨rfl, List.filter_sublist.trans (dropFirst_sublist ..)⟩
  | release | unbind => exact ⟨rfl, List.filter_sublist⟩
  | rouse who => cases e.segmentOf who <;> exact ⟨rfl, .refl _⟩

theorem Acts.asleep (a : Acts σ e σ' e') : e'.tickets = e.tickets ∧ e'.asleep.Sublist e.asleep := by
  induction a with
  | refl => exact ⟨rfl, .refl _⟩
  | step before act ih => exact ⟨act.asleep.1.trans ih.1, act.asleep.2.trans ih.2⟩

structure Engine.Wakeful (e : Engine) : Prop where
  ticket : ∀ p ∈ e.asleep, p.1 < e.tickets
  nodup : (e.asleep.map Prod.fst).Nodup
  released : ∀ i, (i, .released) ∈ e.asleep → e.pauser ≠ none
  inevitable : ∀ i, (i, .inevitableDone) ∈ e.asleep → e.inevitable ≠ none

theorem Engine.not_mem_wakeAll (i : Nat) (c : Condition) : (i, c) ∉ (e.wakeAll c).asleep := by
  simp [wakeAll]

theorem Act.wakeful (a : Act σ e σ' e') (h : e.Wakeful) : e'.Wakeful := by
  obtain ⟨tickets, sub⟩ := a.asleep
  have keeps : (∀ i, (i, .released) ∈ e'.asleep → e'.pauser ≠ none) →
      (∀ i, (i, .inevitableDone) ∈ e'.asleep → e'.inevitable ≠ none) → e'.Wakeful :=
        fun released inevitable =>
    ⟨fun p hp => tickets ▸ h.ticket p (sub.subset hp), (sub.map _).nodup h.nodup,
      released, inevitable⟩
  have old : ∀ p, p ∈ e'.asleep → p ∈ e.asleep := fun p hp => sub.subset hp
  cases a with
  | work who mine going still | idle still =>
    exact keeps (fun i hi => still.pauser ▸ h.released i (old _ hi)) fun i hi =>
      still.inevitable ▸ h.inevitable i (old _ hi)
  | lock | unlock | take | leave =>
    exact keeps (fun i hi => h.released i (old _ hi)) fun i hi => h.inevitable i (old _ hi)
  | pause => exact keeps (fun _ _ => nofun) fun i hi => h.inevitable i (old _ hi)
  | release =>
    exact keeps (fun i hi => absurd hi (not_mem_wakeAll i _)) fun i hi => h.inevitable i (old _ hi)
  | bind => exact keeps (fun i hi => h.released i (old _ hi)) fun _ _ => nofun
  | unbind =>
    exact keeps (fun i hi => h.released i (old _ hi)) fun i hi => absurd hi (not_mem_wakeAll i _)
  | rouse who =>
    revert keeps old
    cases e.segmentOf who <;>
      exact fun keeps old => keeps (fun i hi => h.released i (old _ hi)) fun i hi =>
        h.inevitable i (old _ hi)

theorem Acts.wakeful (a : Acts σ e σ' e') (h : e.Wakeful) : e'.Wakeful :=
  a.fold h fun _ _ _ _ h act => act.wakeful h

theorem Acts.asked (a : Acts σ e σ' e') {who : Caller} (h : e'.pauser = some who) :
    σ'.pausing = some who ∨ e.pauser = some who ∧ σ.pausing ≠ some who := by
  revert h
  refine a.fold (P := fun τ d => d.pauser = some who → τ.pausing = some who ∨
    e.pauser = some who ∧ σ.pausing ≠ some who)
    (fun h => ?_) fun τ d τ' d' before act h => ?_
  · exact (Classical.em (σ.pausing = some who)).imp id fun other => ⟨h, other⟩
  · cases act with
    | work who mine going still | idle still => exact before (still.pauser ▸ h)
    | lock | unlock | take | leave | bind | unbind => exact before h
    | pause => exact .inl h
    | release => cases h
    | rouse who =>
      refine before ?_
      rw [← h]
      cases d.segmentOf who <;> rfl

theorem Engine.othersStopped_false : e.othersStopped who = false ↔
    ∃ k t, (e.segment k).owner = some t ∧ .thread t ≠ who ∧ (e.segment k).standing = .running := by
  rw [← Bool.not_eq_true, othersStopped_iff]
  simp only [Classical.not_forall, not_or, ne_eq, Classical.not_not, exists_prop]

theorem Act.running (a : Act σ e σ' e') (h : e.Seats) (asleep : (i, .safePoint) ∈ e'.asleep)
    (running : e.othersStopped who = false) : e'.othersStopped who = false := by
  rw [othersStopped_false] at running ⊢
  obtain ⟨k, t, owner, other, running⟩ := running
  cases a with
  | work who mine going still | idle still =>
    exact ⟨k, t, (still.segment k).1.trans owner, other, (still.segment k).2.trans running⟩
  | lock | unlock | pause | release | bind | unbind => exact ⟨k, t, owner, other, running⟩
  | take u j mine known unseated inside free =>
    refine ⟨k, t, ?_⟩
    rw [segment_taken inside, if_neg]
    · exact ⟨owner, other, running⟩
    · rintro rfl
      rw [owner] at free
      cases free
  | leave => exact absurd asleep (not_mem_wakeAll i _)
  | rouse caller =>
    cases held : e.segmentOf caller with
    | none => exact ⟨k, t, owner, other, running⟩
    | some =>
      obtain ⟨u, rfl, seat⟩ := segmentOf_some held
      refine ⟨k, t, ?_⟩
      rw [segment_setStanding (h.segment_lt seat)]
      split
      · next hj => exact ⟨hj ▸ owner, other, rfl⟩
      · exact ⟨owner, other, running⟩

theorem Acts.running (a : Acts σ e σ' e') (h : e.Seats) (asleep : (i, .safePoint) ∈ e'.asleep)
    (running : e.othersStopped who = false) : e'.othersStopped who = false := by
  induction a with
  | refl => exact running
  | step before act ih =>
    exact act.running (before.seats h) asleep (ih (act.asleep.2.subset asleep))

end Sleepers

section Pauses
variable {σ' : Stance} {e e' : Engine} {who : Caller}

theorem Engine.pausedFor_of_ne {owner : Caller} (pauser : e.pauser = some owner)
    (other : owner ≠ who) :
    e.pausedFor who = true := by
  rw [pausedFor, pauser]
  simpa using other

def Stance.Pauses (σ : Stance) (e : Engine) : Prop :=
  ∀ who, σ.pausing = some who → e.pauser = some who

theorem Act.pauses (a : Act σ e σ' e') (h : σ.Pauses e) : σ'.Pauses e' := by
  cases a with
  | work who mine going still | idle still => exact fun w hw => still.pauser.trans (h w hw)
  | lock | unlock | take | leave | bind | unbind => exact h
  | pause => exact fun w hw => hw
  | release => exact nofun
  | rouse who =>
    intro w hw
    rw [← h w hw]
    cases e.segmentOf who <;> rfl

theorem Acts.pauses (a : Acts σ e σ' e') (h : σ.Pauses e) : σ'.Pauses e' :=
  a.fold h fun _ _ _ _ h act => act.pauses h

structure Engine.Stopped (e : Engine) (who : Caller) (mode : PauseMode) : Prop where
  pauser : e.pauser = some who
  pauseMode : e.pauseMode = mode
  others : e.othersStopped who = true

theorem Act.stays (a : Act σ e σ' e') (idle : σ.pausing = none) (pauser : e.pauser = some who) :
    σ'.pausing = none ∧ e'.pauser = some who ∧ e'.pauseMode = e.pauseMode := by
  cases a with
  | work _ mine going still | idle still => exact ⟨idle, still.pauser.trans pauser, still.pauseMode⟩
  | lock | unlock | take | leave | bind | unbind => exact ⟨idle, pauser, rfl⟩
  | pause w mode mine unasked =>
    rw [pauser] at unasked
    cases unasked
  | release w mine own =>
    rw [idle] at own
    cases own
  | rouse w =>
    refine ⟨idle, ?_⟩
    rw [← pauser]
    cases e.segmentOf w <;> exact ⟨rfl, rfl⟩

theorem Acts.stays (a : Acts σ e σ' e') (idle : σ.pausing = none) (pauser : e.pauser = some who) :
    σ'.pausing = none ∧ e'.pauser = some who ∧ e'.pauseMode = e.pauseMode := by
  induction a with
  | refl => exact ⟨idle, pauser, rfl⟩
  | step before act ih =>
    have now := act.stays ih.1 ih.2.1
    exact ⟨now.1, now.2.1, now.2.2.trans ih.2.2⟩

theorem Act.stopped (a : Act σ e σ' e') (h : e.Seats) (idle : σ.pausing = none)
    (stopped : e.Stopped who mode) : e'.Stopped who mode := by
  obtain ⟨-, pauser, pauseMode⟩ := a.stays idle stopped.pauser
  refine ⟨pauser, pauseMode.trans stopped.pauseMode, othersStopped_iff.2 fun k t owner => ?_⟩
  have before := othersStopped_iff.1 stopped.others
  have mine : ∀ w, e.pausedFor w = false → w = who :=
    fun w free => Classical.byContradiction fun other => by
    rw [pausedFor_of_ne stopped.pauser fun same => other same.symm] at free
    cases free
  cases a with
  | work _ _ going still | idle still =>
    rw [(still.segment k).1] at owner
    rw [(still.segment k).2]
    exact before k t owner
  | lock | unlock | bind | unbind | pause | release => exact before k t owner
  | take u j _ known unseated inside free going =>
    rw [segment_taken inside] at owner ⊢
    split at owner
    · cases owner
      exact .inl (mine _ going)
    · next other =>
      rw [if_neg other]
      exact before k t owner
  | leave u j _ known held inside =>
    rw [segment_left inside] at owner ⊢
    split at owner
    · cases owner
    · next other =>
      rw [if_neg other]
      exact before k t owner
  | rouse w _ going =>
    cases held : e.segmentOf w with
    | none =>
      rw [held] at owner
      exact before k t owner
    | some j =>
      rw [held] at owner
      obtain ⟨u, rfl, seat⟩ := segmentOf_some held
      rw [segment_setStanding (h.segment_lt seat)] at owner ⊢
      split at owner
      · rw [h.holds u j seat] at owner
        cases owner
        exact .inl (mine _ going)
      · next other =>
        rw [if_neg other]
        exact before k t owner

theorem Acts.stopped (a : Acts σ e σ' e') (h : e.Seats) (idle : σ.pausing = none)
    (stopped : e.Stopped who mode) : e'.Stopped who mode := by
  induction a with
  | refl => exact stopped
  | step before act ih => exact act.stopped (before.seats h) (before.stays idle stopped.pauser).1 ih

def Stance.Halted (σ : Stance) (e : Engine) : Prop := ∀ who, σ.Mine who → ¬ e.Going who

theorem Stance.Halted.still (h : σ.Halted e) (still : Still e e') : σ.Halted e' := by
  intro who mine going
  refine h who mine (going.imp (fun free => ?_) fun ⟨k, held, running⟩ =>
    ⟨k, ?_, (still.segment k).2 ▸ running⟩)
  · rwa [pausedFor, still.pauser] at free
  · cases who with
    | thread t => exact (still.thread t).symm.trans held
    | system | outside => exact held

theorem Act.sameButStacks (a : Act σ e σ' e') (h : σ.Halted e) :
    SameButStacks e e' ∧ σ'.Halted e' := by
  have halted : ∀ who, σ.Mine who → e.pausedFor who ≠ false :=
    fun who mine free => h who mine (.inl free)
  cases a with
  | work who mine going | bind x who mine going | unbind who mine going =>
    exact absurd going (h who mine)
  | idle still sameButStacks => exact ⟨sameButStacks, h.still still⟩
  | lock m => exact ⟨(alike_acquire e m).sameButStacks, h⟩
  | unlock m => exact ⟨(alike_giveUp e m).sameButStacks, h⟩
  | take t k mine known unseated inside free going => exact absurd going (halted (.thread t) mine)
  | leave t k mine known held inside going => exact absurd going (h (.thread t) mine)
  | pause who mode mine unasked => exact absurd (by rw [pausedFor, unasked]) (halted who mine)
  | release who mine own pauser => exact absurd (by rw [pausedFor, pauser]; simp) (halted who mine)
  | rouse who mine going => exact absurd going (halted who mine)

theorem Acts.sameButStacks (a : Acts σ e σ' e') (h : σ.Halted e) :
    SameButStacks e e' ∧ σ'.Halted e' := by
  induction a with
  | refl => exact ⟨(Alike.refl e).sameButStacks, h⟩
  | step before act ih =>
    have now := act.sameButStacks ih.2
    exact ⟨ih.1.trans now.1, now.2⟩

end Pauses

section Tidy
variable {σ' : Stance} {e e' : Engine}

theorem Act.tidy (a : Act σ e σ' e') : Tidy σ e e' := by
  cases a with
  | work who mine going still tidy | idle still sameButStacks tidy => exact tidy
  | lock | unlock | pause | release | bind | unbind => exact tidy_of_eq rfl rfl rfl
  | take => exact tidy_of_eq (by simp) rfl rfl
  | leave => exact tidy_of_eq (Array.size_modify ..) rfl rfl
  | rouse who => cases e.segmentOf who <;> exact tidy_of_eq rfl rfl rfl

theorem Engine.Tidy.same {τ : Stance} (h : Tidy σ e e') (control : τ.control = σ.control)
    (mine : τ.mine = σ.mine) :
    Tidy τ e e' where
  threads_size := h.threads_size
  others c hc := h.others c (control ▸ hc)
  own c f hf := mine ▸ h.own c f hf
  past := h.past

theorem Acts.tidy (a : Acts σ e σ' e') : Tidy σ e e' := by
  induction a with
  | refl => exact tidy_of_eq rfl rfl rfl
  | step before act ih => exact ih.trans (act.tidy.same before.same.1.symm before.mine.symm)

end Tidy

structure Stance.Fits (σ : Stance) (e : Engine) : Prop where
  holds : σ.Holds e
  seats : e.Seats
  up : σ.Up e
  pauses : σ.Pauses e
  known : σ.known ≤ e.threads.size

theorem Acts.fits {σ' : Stance} {e e' : Engine} (a : Acts σ e σ' e') (h : σ.Fits e) :
    σ'.Fits e' where
  holds := a.holds h.holds
  seats := a.seats h.seats
  up := a.up h.seats h.up
  pauses := a.pauses h.pauses
  known := by rw [a.same.2.2]; exact Nat.le_trans h.known a.tidy.threads_size

section Free
variable {σ' : Stance} {e e' : Engine}

def Engine.vacant (e : Engine) : Nat := (e.segments.toList.map (·.owner)).count none

def Engine.seated (e : Engine) : List (Nat × Condition) := e.asleep.filter (·.2 = .freeSegment)

theorem Engine.owners_eq (h : e'.segments.size = e.segments.size)
    (owner : ∀ k, (e'.segment k).owner = (e.segment k).owner) :
    e'.segments.toList.map (·.owner) = e.segments.toList.map (·.owner) := by
  refine List.ext_getElem (by simp [h]) fun i hi hi' => ?_
  simp only [List.length_map, Array.length_toList] at hi hi'
  have same := owner i
  simp only [segment, Array.getD_eq_getD_getElem?, Array.getElem?_eq_getElem hi,
    Array.getElem?_eq_getElem hi',
    Option.getD_some] at same
  simpa using same

theorem Engine.Still.vacant (h : Still e e') : e'.vacant = e.vacant := by
  rw [Engine.vacant, Engine.vacant, owners_eq h.segments_size fun k => (h.segment k).1]

theorem Engine.owners_modify (f : Segment → Segment) (inside : k < e.segments.size) :
    ((e.segments.modify k f).toList.map (·.owner)) =
      (e.segments.toList.map (·.owner)).set k (f (e.segment k)).owner := by
  refine List.ext_getElem (by simp) fun i hi hi' => ?_
  rw [List.getElem_map, List.getElem_set, Array.getElem_toList, Array.getElem_modify]
  have here : e.segment k = e.segments[k] := by
    rw [segment, Array.getD_eq_getD_getElem?, Array.getElem?_eq_getElem inside, Option.getD_some]
  split
  · next hik =>
    subst hik
    rw [here]
  · simp

theorem Engine.owners_get (inside : k < e.segments.size) :
    (e.segments.toList.map (·.owner))[k]? = some (e.segment k).owner := by
  rw [List.getElem?_map, Array.getElem?_toList, Array.getElem?_eq_getElem inside, segment,
    Array.getD_eq_getD_getElem?, Array.getElem?_eq_getElem inside]
  rfl

theorem Engine.vacant_modify (f : Segment → Segment) (inside : k < e.segments.size) :
    ((e.segments.modify k f).toList.map (·.owner)).count none +
    (if (e.segment k).owner = none then 1 else 0) =
      e.vacant + if (f (e.segment k)).owner = none then 1 else 0 := by
  have lt : k < (e.segments.toList.map (·.owner)).length := by simpa using inside
  have here := owners_get inside
  rw [List.getElem?_eq_getElem lt, Option.some_inj] at here
  have count := List.count_set (a := (f (e.segment k)).owner) (b := none) lt
  rw [owners_modify f inside, count, here, vacant]
  have pos : (e.segment k).owner = none → 0 < (e.segments.toList.map (·.owner)).count none := by
    intro free
    rw [List.count_pos_iff, ← free, ← here]
    exact List.getElem_mem lt
  simp only [beq_iff_eq]
  split
  · next free =>
    have := pos free
    omega
  · omega

theorem Engine.vacant_taken (inside : k < e.segments.size)
    (free : (e.segment k).owner = none) : (e.taken t k).vacant + 1 = e.vacant := by
  have count := vacant_modify
    (fun s : Segment => { s with owner := some t, standing := .running }) inside
  rwa [if_pos free, if_neg nofun] at count

theorem Engine.vacant_left (inside : k < e.segments.size)
    (owner : (e.segment k).owner = some u) : (e.left t k).vacant = e.vacant + 1 := by
  have count := vacant_modify
    (fun s : Segment => { s with owner := none, standing := .free }) inside
  rwa [owner, if_neg nofun, if_pos rfl] at count

theorem Engine.filter_dropFirst (c : Condition) (l : List (Nat × Condition)) :
    (dropFirst c l).filter (·.2 = c) = (l.filter (·.2 = c)).drop 1 := by
  induction l with
  | nil => rfl
  | cons p rest ih =>
    obtain ⟨i, d⟩ := p
    rw [dropFirst]
    by_cases hd : d = c
    · simp [hd]
    · simp [hd, ih]

theorem Engine.seated_wakeAll {c : Condition} (other : c ≠ .freeSegment) :
    (e.wakeAll c).seated = e.seated := by
  simp only [seated, wakeAll, List.filter_filter]
  refine List.filter_congr fun p _ => ?_
  by_cases hp : p.2 = .freeSegment
  · simp [hp, other.symm]
  · simp [hp]

theorem Engine.seated_left (t : ThreadId) (k : SegmentId) : (e.left t k).seated = e.seated.drop 1 :=
  (seated_wakeAll (c := .safePoint) nofun).trans
    (filter_dropFirst .freeSegment e.asleep)

/-- Segments become free as sleepers are woken for them, and one who looks for a segment takes one.
-/
structure Frees (σ σ' : Stance) (e e' : Engine) (took gave : Nat) : Prop where
  vacant : e'.vacant + took = e.vacant + gave
  seated : e'.seated = e.seated.drop gave
  seeking : σ.seeking = true → σ'.seeking = true ∨ 0 < took

theorem Frees.trans {σ1 : Stance} {e1 : Engine} {a b a' b' : Nat} (h : Frees σ σ1 e e1 a b)
    (h' : Frees σ1 σ' e1 e' a' b') :
    Frees σ σ' e e' (a + a') (b + b') where
  vacant := by
    have := h.vacant
    have := h'.vacant
    omega
  seated := by rw [h'.seated, h.seated, List.drop_drop]
  seeking seeks := by
    obtain still | took := h.seeking seeks
    · exact (h'.seeking still).imp id fun pos => by omega
    · exact .inr (by omega)

theorem Act.frees (a : Act σ e σ' e') (h : e.Seats) : ∃ took gave, Frees σ σ' e e' took gave := by
  cases a with
  | work who mine going still | idle still =>
    exact ⟨0, 0, by rw [still.vacant], by rw [seated, seated, still.asleep]; rfl, .inl⟩
  | lock | unlock | pause | bind => exact ⟨0, 0, rfl, rfl, .inl⟩
  | take t k mine known unseated inside free =>
    exact ⟨1, 0, vacant_taken inside free, rfl, fun _ => .inr Nat.one_pos⟩
  | leave t k mine known held inside =>
    exact ⟨0, 1, vacant_left inside (h.holds t k held), seated_left t k, .inl⟩
  | release | unbind => exact ⟨0, 0, rfl, seated_wakeAll nofun, .inl⟩
  | rouse who =>
    cases held : e.segmentOf who with
    | none => exact ⟨0, 0, rfl, rfl, .inl⟩
    | some k =>
      refine ⟨0, 0, ?_, rfl, .inl⟩
      obtain ⟨t, rfl, seat⟩ := segmentOf_some held
      have count := vacant_modify (fun s : Segment => { s with standing := .running })
        (h.segment_lt seat)
      rwa [h.holds t k seat, if_neg nofun] at count

theorem Acts.frees (a : Acts σ e σ' e') (h : e.Seats) : ∃ took gave, Frees σ σ' e e' took gave := by
  induction a with
  | refl => exact ⟨0, 0, rfl, rfl, .inl⟩
  | step before act ih =>
    obtain ⟨a, b, first⟩ := ih
    obtain ⟨a', b', second⟩ := act.frees (before.seats h)
    exact ⟨a + a', b + b', first.trans second⟩

end Free
end TxHeap
