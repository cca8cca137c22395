import TxHeap.Proofs.Engine.Collecting
import TxHeap.Proofs.Engine.Publication

/-! The things that are done to an engine, each at once and by one call. What a call does between
two waits is a sequence of such feats, and what they all keep every call keeps. -/

namespace TxHeap
variable {e e' e'' : Engine}

namespace Engine

def Inside (e : Engine) (x : TxnId) (r : Ref) (w : Int) : Prop :=
  r.isYoung = true → ∀ o ∈ (e.segment (e.txn x).segment).objects,
    o.toNat ≤ r.offset.toNat ∨ r.offset.toNat + 8 * w.toNat < o.toNat

instance (e : Engine) (x : TxnId) (r : Ref) (w : Int) : Decidable (e.Inside x r w) :=
  decidable_of_iff (r.isYoung = true → ((e.segment (e.txn x).segment).objects.all fun o =>
    o.toNat ≤ r.offset.toNat ∨ r.offset.toNat + 8 * w.toNat < o.toNat) = true) (by
      simp only [Inside, Array.all_eq_true_iff_forall_mem, decide_eq_true_eq])

/-- A new object of `size` bytes of the transaction: the last in its nursery, or one in the old
heap. -/
def Fresh (e : Engine) (x : TxnId) (r : Ref) (size : UInt64) : Prop :=
  (e.Young (e.txn x).segment r ∧
    r.offset.toNat + size.toNat = (e.segment (e.txn x).segment).used.toNat ∧
    ∀ o ∈ (e.segment (e.txn x).segment).objects, o.toNat ≤ r.offset.toNat) ∨
  r ∈ (e.txn x).created ∧ ∃ n, e.Room r n ∧ size.toNat ≤ 8 * n

def Sizeable (size : UInt64) : Prop := size.toNat % 8 = 0 ∧ 16 ≤ size.toNat ∧ size.toNat < 2 ^ 60

def started (e : Engine) (t : ThreadId) (k : SegmentId) : Engine :=
  let e1 := (e.setSegment k fun s => { s with owner := some t, standing := .running }).setThread t
    fun th =>
    { th with segment := some k, lastSegment := some k }
  { e1 with
    txns := e.txns.push
      { thread := t, segment := k, phase := .running, readVersion := e.clock
        stackAtBegin := (e.thread t).stack } }.setThread t
    fun th => { th with txn := some e.txns.size, last := .running }

def promoted (e : Engine) (x : TxnId) (reason : String) : Engine :=
  { e.setTxn x fun tx => { tx with readVersion := e.clock, phase := .inevitable, reason } with
    inevitable := some x }.setThread (e.txn x).thread fun th => { th with onAbort := .empty }

theorem thread_promoted (e : Engine) (x : TxnId) (reason : String) (u : ThreadId) :
    (e.promoted x reason).thread u =
    if (e.txn x).thread = u ∧ (e.txn x).thread < e.threads.size then
    { e.thread (e.txn x).thread with onAbort := .empty }
    else e.thread u := getD_modify ..

theorem txn_promoted (e : Engine) (x : TxnId) (reason : String) (y : TxnId) :
    (e.promoted x reason).txn y =
    if x = y ∧ x < e.txns.size then
    { e.txn x with readVersion := e.clock, phase := .inevitable, reason } else e.txn y :=
  getD_modify ..

def putOwn (e : Engine) (x : TxnId) (r : Ref) (i : Nat) (v : UInt64) : Engine :=
  if r.isYoung then
    e.setSegment (e.txn x).segment fun s =>
      { s with nursery := s.nursery.write (r.offset.toNat / 8 + i) v }
  else e.putWord r i v

def aimed (e : Engine) (x : TxnId) (r : Ref) (i : Nat) (target : Ref) : Engine :=
  (e.putOwn x r i target.bits).setSegment (e.txn x).segment fun s =>
    { s with weakrefs := s.weakrefs.push r }

/-- Nothing but who holds and who waits for what has changed, and the log. -/
structure Lull (e e' : Engine) : Prop where
  alike : Alike e e'
  counters : e'.counters = e.counters

theorem Lull.refl (e : Engine) : Lull e e := ⟨.refl e, rfl⟩

theorem Lull.trans (h : Lull e e') (h' : Lull e' e'') : Lull e e'' :=
  ⟨h.alike.trans h'.alike, h'.counters.trans h.counters⟩

theorem lull_acquire (e : Engine) (m : Mutex) : Lull e (e.acquire m) := ⟨alike_acquire e m, rfl⟩

theorem lull_giveUp (e : Engine) (m : Mutex) : Lull e (e.giveUp m) := ⟨alike_giveUp e m, rfl⟩

theorem lull_setLog (e : Engine) (f : Event.Log → Event.Log) : Lull e (e.setLog f) :=
  ⟨alike_setLog e f, rfl⟩

theorem lull_note (e : Engine) (kind : Event.Kind) (k : Option SegmentId)
    (fields : List (String × Event.Value)) :
    Lull e (e.note kind k fields) := ⟨alike_note e kind k fields, rfl⟩

theorem lull_setStanding (e : Engine) (k : Option SegmentId) (standing : Standing) :
    Lull e (e.setStanding k standing) := by
  refine ⟨alike_setStanding e k standing, ?_⟩
  cases k with
  | none | some => rfl

/-- The transaction `x` cannot but be rolled back: a conflict was counted, or a minor collection did
not get through. -/
inductive Drifts (x : TxnId) (e : Engine) : Engine → Prop
  | start : Drifts x e e
  | conflict {e' : Engine} (r : Ref) (kind : String) (run : countConflict x r kind e = .ok () e') :
      Drifts x e e'
  | minor {e' : Engine} (cause : Error) (free : ∀ t, .stack t ∉ e.locked)
      (run : collectMinor x e = .done (some cause) e') : Drifts x e e'
  | lull {m e' : Engine} (before : Drifts x e m) (h : Lull m e') : Drifts x e e'

inductive Feat : Engine → Engine → Prop
  | lull {e e' : Engine} (h : Lull e e') : Feat e e'
  | load {e e' : Engine} {x : TxnId} {r : Ref} {w : Int} {v : UInt64} (active : e.Active x)
      (usable : e.Usable (e.txn x).thread r) (run : load x r w e = .done v e') : Feat e e'
  | copy {e e' : Engine} {x : TxnId} {r : Ref} {n : Nat} (active : e.Active x) (shared : e.Shared r)
      (run : privateCopy x r e = .done n e') : Feat e e'
  | store {e e' : Engine} {x : TxnId} {r : Ref} {w : Int} {v : UInt64} (active : e.Active x)
      (usable : e.Usable (e.txn x).thread r) (inside : e.Inside x r w)
      (run : store x r w v e = .done () e') : Feat e e'
  | bump {e e' : Engine} {x : TxnId} {r : Ref} {size : UInt64} (active : e.Active x)
      (whole : Sizeable size) (run : bump? (e.txn x).segment size e = .ok (some r) e') : Feat e e'
  /-- The old heap grows as far as it can, which is not far enough. -/
  | grow {e e' : Engine} {size : UInt64} (whole : Sizeable size)
      (run : mallocOld size e = .ok .null e') : Feat e e'
  | large {e e1 : Engine} {x : TxnId} {r : Ref} {size : UInt64} (active : e.Active x)
      (whole : Sizeable size) (found : r ≠ .null) (run : mallocOld size e = .ok r e1) :
        Feat e (e1.setTxn x (·.noteCreated r))
  | minor {e e' : Engine} {x : TxnId} (active : e.Active x) (free : ∀ t, .stack t ∉ e.locked)
      (run : collectMinor x e = .done none e') : Feat e e'
  /-- A new object gets its target and is listed as a weak reference. -/
  | weak {e : Engine} {x : TxnId} {r target : Ref} {size : UInt64} (active : e.Active x)
      (whole : Sizeable size)
      (fresh : e.Fresh x r size) (usable : e.Usable (e.txn x).thread target) :
      Feat e (e.aimed x r (size.toNat / 8 - 1) target)
  | stack {e : Engine} (t : ThreadId) (stack : Thread → Array Ref)
      (usable : (e.thread t).registered = true → ∀ r ∈ stack (e.thread t), e.Usable t r) :
      Feat e (e.setThread t fun th => { th with stack := stack th })
  /-- Callbacks of a running transaction are registered or removed. -/
  | tables {e : Engine} {x : TxnId} (t : ThreadId)
      (onAbort onCommit : Thread → CallbackTable Key Callback) (held : (e.thread t).txn = some x) :
      Feat e (e.setThread t fun th => { th with onAbort := onAbort th, onCommit := onCommit th })
  | register {e : Engine} : Feat e { e with threads := e.threads.push { registered := true } }
  | retire {e : Engine} (t : ThreadId) (idle : (e.thread t).txn = none) :
      Feat e ((e.setThread t fun th => { th with registered := false }).setThread t fun th =>
        { th with stack := #[] })
  | begin {e : Engine} {t : ThreadId} {k : SegmentId} (idle : (e.thread t).txn = none)
      (registered : (e.thread t).registered = true) (found : e.pickSegment? t = some k) :
        Feat e (e.started t k)
  | promote {e : Engine} {x : TxnId} (reason : String) (running : (e.txn x).phase = .running)
      (none : e.inevitable = none)
      (fresh : ∀ r v, (r, v) ∈ (e.txn x).reads → v = e.version r) : Feat e (e.promoted x reason)
  | abort {e m e' : Engine} {x : TxnId} {callbacks : List Callback} (drifts : Drifts x e m)
      (active : e.Active x) (core : m.Core) (running : (m.txn x).phase = .running)
      (free : .stack (m.txn x).thread ∉ m.locked) (cause : Error)
      (run : discard x cause m = .done callbacks e') : Feat e e'
  | commit {e e' : Engine} {x : TxnId} {done : Committed} (active : e.Active x)
      (empty : (e.segment (e.txn x).segment).used = 0) (alone : ∀ y, e.inevitable = some y → y = x)
      (fresh : ∀ r v, (r, v) ∈ (e.txn x).reads → v = e.version r)
      (run : settleCommit x e = .ok done e') : Feat e e'
  /-- An object is made outside of transactions. -/
  | prebuild {e e1 e2 : Engine} {r : Ref} {size : UInt64} {words : List (Nat × UInt64)}
      (whole : Sizeable size) (inside : ∀ p ∈ words, p.1 < (size / 8).toNat)
      (run : mallocOld size e = .ok r e1) (found : r ≠ .null)
      (set : setWords ⟨Word.index r.bits, (size / 8).toNat⟩ words e1 = .ok () e2) :
      Feat e { e2.putWord r 0 0 with prebuilt := e2.prebuilt.push r }

/-- From `e0` on nothing but feats happened, with all in order before each. The old heap is
collected for one of the acting threads, while everyone else is stopped. -/
inductive Feats (acting : ThreadId → Prop) (e0 : Engine) : Engine → Prop
  | start : Feats acting e0 e0
  | step {e e' : Engine} (before : Feats acting e0 e) (core : e.Core) (weak : ∀ k, e.WeakOk k)
      (feat : Feat e e') :
      Feats acting e0 e'
  | collect {e e' : Engine} {t : ThreadId} (before : Feats acting e0 e) (core : e.Core)
      (weak : ∀ k, e.WeakOk k) (mine : acting t) (stopped : e.othersStopped (.thread t) = true)
      (free : ∀ t, .stack t ∉ e.locked)
      (run : collectOld e = .done () e' ∨ ∃ v, collectOld e = .raised v e') : Feats acting e0 e'

theorem Feats.trans {acting : ThreadId → Prop} (h : Feats acting e e') (h' : Feats acting e' e'') :
    Feats acting e e'' := by
  induction h' with
  | start => exact h
  | step _ core weak feat ih => exact .step ih core weak feat
  | collect _ core weak mine stopped free run ih =>
    exact .collect ih core weak mine stopped free run

theorem Feats.mono {acting acting' : ThreadId → Prop} (h : Feats acting e e')
    (sub : ∀ t, acting t → acting' t) :
    Feats acting' e e' := by
  induction h with
  | start => exact .start
  | step _ core weak feat ih => exact .step ih core weak feat
  | collect _ core weak mine stopped free run ih =>
    exact .collect ih core weak (sub _ mine) stopped free run

end Engine
end TxHeap
