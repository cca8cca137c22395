import Mathlib.Tactic.Simps.Basic
import TxHeap.Engine.Pause
import TxHeap.Proofs.Computation

/-! Changes to one part of an engine's state, and states alike but for who waits for what, the log
and the counters. -/

namespace TxHeap

/-- What is asked of the outcome of a call and of the state that it leaves. -/
abbrev Post (α : Type) := Except Raise α → Engine → Prop

variable {α : Type}

theorem getD_modify (a : Array α) (i j : Nat) (f : α → α) (d : α) :
    (a.modify i f).getD j d = if i = j ∧ i < a.size then f (a.getD i d) else a.getD j d := by
  by_cases hij : i = j
  · subst hij
    by_cases hi : i < a.size
    · simp [Array.getD, hi, Array.getElem_modify_self]
    · simp [Array.getD, hi]
  · simp only [hij, false_and, if_false, Array.getD_eq_getD_getElem?, Array.getElem?_modify]

theorem getD_modify_inside {a : Array α} {i : Nat} (inside : i < a.size) (j : Nat)
    (f : α → α) (d : α) :
    (a.modify i f).getD j d = if i = j then f (a.getD i d) else a.getD j d := by
  simp only [getD_modify, inside, and_true]

theorem getD_setIfInBounds (a : Array α) (i j : Nat) (v d : α) :
    (a.setIfInBounds i v).getD j d = if i = j ∧ i < a.size then v else a.getD j d := by
  rw [Array.getD_eq_getD_getElem?, Array.getElem?_setIfInBounds, Array.getD_eq_getD_getElem?]
  by_cases hij : i = j
  · subst hij
    by_cases hi : i < a.size
    · simp [hi]
    · simp [hi]
  · simp [hij]

theorem getD_out {a : Array α} {i : Nat} (out : a.size ≤ i) {d : α} : a.getD i d = d := by
  rw [Array.getD_eq_getD_getElem?, Array.getElem?_eq_none out, Option.getD_none]

theorem getD_push (a : Array α) (j : Nat) (x d : α) :
    (a.push x).getD j d = if j = a.size then x else a.getD j d := by
  rw [Array.getD_eq_getD_getElem?, Array.getElem?_push, Array.getD_eq_getD_getElem?]
  split <;> rfl

namespace Engine

@[simps!] def setTxn (e : Engine) (x : TxnId) (f : Txn → Txn) : Engine :=
  { e with txns := e.txns.modify x f }

@[simps!] def setThread (e : Engine) (t : ThreadId) (f : Thread → Thread) : Engine :=
  { e with threads := e.threads.modify t f }

@[simps!] def setSegment (e : Engine) (k : SegmentId) (f : Segment → Segment) : Engine :=
  { e with segments := e.segments.modify k f }

@[simps!] def setAsleep (e : Engine)
    (f : List (Nat × Condition) → List (Nat × Condition)) : Engine :=
  { e with asleep := f e.asleep }

def setArena (e : Engine) (a : Arena) : Engine := { e with arena := a }

@[simps!] def setLog (e : Engine) (f : Event.Log → Event.Log) : Engine :=
  { e with log := e.log.map f }

@[simps!] def setCounters (e : Engine) (f : Counters → Counters) : Engine :=
  { e with counters := f e.counters }

@[simps!] def setCommon (e : Engine) (clock : UInt64) (inevitable : Option TxnId)
    (weakrefs : List Ref) : Engine :=
  { e with clock, inevitable, weakrefs }

@[simp] theorem setArena_toEngineTables (e : Engine) (a : Arena) :
    (e.setArena a).toEngineTables = e.toEngineTables := rfl

@[simp] theorem setArena_arena (e : Engine) (a : Arena) : (e.setArena a).arena = a := rfl

variable (e : Engine)

theorem txn_setTxn (x y : TxnId) (f : Txn → Txn) :
    (e.setTxn x f).txn y = if x = y ∧ x < e.txns.size then f (e.txn x) else e.txn y :=
  getD_modify ..

@[simp] theorem thread_setTxn (x : TxnId) (f : Txn → Txn) (t : ThreadId) :
    (e.setTxn x f).thread t = e.thread t := rfl

@[simp] theorem segment_setTxn (x : TxnId) (f : Txn → Txn) (k : SegmentId) :
    (e.setTxn x f).segment k = e.segment k := rfl

theorem thread_setThread (t u : ThreadId) (f : Thread → Thread) :
    (e.setThread t f).thread u = if t = u ∧ t < e.threads.size then f (e.thread t)
    else e.thread u :=
  getD_modify ..

@[simp] theorem txn_setThread (t : ThreadId) (f : Thread → Thread) (x : TxnId) :
    (e.setThread t f).txn x = e.txn x := rfl

@[simp] theorem segment_setThread (t : ThreadId) (f : Thread → Thread) (k : SegmentId) :
    (e.setThread t f).segment k = e.segment k := rfl

theorem segment_setSegment (k j : SegmentId) (f : Segment → Segment) :
    (e.setSegment k f).segment j =
      if k = j ∧ k < e.segments.size then f (e.segment k) else e.segment j :=
  getD_modify ..

@[simp] theorem txn_setSegment (k : SegmentId) (f : Segment → Segment) (x : TxnId) :
    (e.setSegment k f).txn x = e.txn x := rfl

@[simp] theorem thread_setSegment (k : SegmentId) (f : Segment → Segment) (t : ThreadId) :
    (e.setSegment k f).thread t = e.thread t := rfl

@[simp] theorem txn_setArena (a : Arena) (x : TxnId) : (e.setArena a).txn x = e.txn x := rfl

@[simp] theorem thread_setArena (a : Arena) (t : ThreadId) :
    (e.setArena a).thread t = e.thread t := rfl

@[simp] theorem segment_setArena (a : Arena) (k : SegmentId) :
    (e.setArena a).segment k = e.segment k := rfl

section Common
variable (clock : UInt64) (inevitable : Option TxnId) (weakrefs : List Ref)

@[simp] theorem txn_setCommon (x : TxnId) :
    (e.setCommon clock inevitable weakrefs).txn x = e.txn x := rfl

@[simp] theorem thread_setCommon (t : ThreadId) :
    (e.setCommon clock inevitable weakrefs).thread t = e.thread t := rfl

@[simp] theorem segment_setCommon (k : SegmentId) :
    (e.setCommon clock inevitable weakrefs).segment k = e.segment k := rfl

end Common

@[simp] theorem txn_acquire (m : Mutex) (x : TxnId) : (e.acquire m).txn x = e.txn x := rfl

section
variable (f : List (Nat × Condition) → List (Nat × Condition))
include f

@[simp] theorem txn_setAsleep (x : TxnId) : (e.setAsleep f).txn x = e.txn x := rfl

@[simp] theorem thread_setAsleep (t : ThreadId) : (e.setAsleep f).thread t = e.thread t := rfl

@[simp] theorem segment_setAsleep (k : SegmentId) : (e.setAsleep f).segment k = e.segment k := rfl

end
end Engine

section Runs
variable (e : Engine)

theorem updateTxn_run (x : TxnId) (f : Txn → Txn) : updateTxn x f e = .ok () (e.setTxn x f) := rfl

theorem updateThread_run (t : ThreadId) (f : Thread → Thread) :
    updateThread t f e = .ok () (e.setThread t f) := rfl

theorem updateSegment_run (k : SegmentId) (f : Segment → Segment) :
    updateSegment k f e = .ok () (e.setSegment k f) := rfl

theorem updateLog_run (f : Event.Log → Event.Log) : updateLog f e = .ok () (e.setLog f) := rfl

theorem logInfo_run (kind : Event.Kind) (segment : Int) (fields : List (String × Event.Value)) :
    logInfo kind segment fields e = .ok () (e.setLog (·.info kind.name segment fields)) := rfl

theorem logDebug_run (kind : Event.Kind) (segment : Int) (fields : List (String × Event.Value)) :
    logDebug kind segment fields e = .ok () (e.setLog (·.debug kind.name segment fields)) := rfl

theorem updateCounters_run (f : Counters → Counters) :
    updateCounters f e = .ok () (e.setCounters f) := rfl

variable {e}

theorem onArena_ok {x : ArenaM α} {v : α} {a : Arena} (h : x e.arena = .ok v a) :
    onArena x e = .ok v (e.setArena a) := by
  obtain ⟨tables, arena⟩ := e
  simp only [onArena, h]
  rfl

theorem inspectEngine_ok {f : Engine → Except Fault α} {v : α} (h : f e = .ok v) :
    inspectEngine f e = .ok v e := by
  simp [inspectEngine, h]

theorem inspectEngine_error {f : Engine → Except Fault α} {fault : Fault}
    (h : f e = .error fault) : inspectEngine f e = .error (.fault fault) e := by
  simp [inspectEngine, h]

theorem ends_inspectEngine (f : Engine → Except Fault α) (e : Engine) :
    Ends (inspectEngine f) e (fun a e' => e' = e ∧ f e = .ok a) fun _ e' => e' = e := by
  cases h : f e with
  | ok => exact .of_ok (inspectEngine_ok h) ⟨rfl, rfl⟩
  | error => exact .of_error (inspectEngine_error h) rfl

theorem lock_free {m : Mutex} (h : m ∉ e.locked) : lock m e = .done () (e.acquire m) := by
  have open' : e.isLocked m = false := by simpa [Engine.isLocked] using h
  simp [lock, open']

theorem lock_taken {m : Mutex} (h : m ∈ e.locked) :
    lock m e = .waiting (.mutex m) e fun e => .done () e := by
  simp [lock, Engine.isLocked, h]

theorem unlock_run (e : Engine) (m : Mutex) : unlock m e = .ok () (e.giveUp m) := rfl

theorem unlock_bind {α : Type} {m : Mutex} {f : Unit → EngineCall α} :
    ((unlock m : EngineCall Unit) >>= f) e = f () (e.giveUp m) := rfl

@[simp] theorem giveUp_acquire (m : Mutex) : (e.acquire m).giveUp m = e := by
  simp [Engine.acquire, Engine.giveUp]

@[simp] theorem giveUp_setThread_acquire (m : Mutex) (t : ThreadId) (f : Thread → Thread) :
    ((e.acquire m).setThread t f).giveUp m = e.setThread t f :=
  giveUp_acquire (e := e.setThread t f) m

end Runs

structure Segment.Alike (s s' : Segment) : Prop where
  owner : s'.owner = s.owner
  nursery : s'.nursery = s.nursery
  used : s'.used = s.used
  objects : s'.objects = s.objects
  weakrefs : s'.weakrefs = s.weakrefs

namespace Segment.Alike
variable {s s' s'' : Segment}

theorem refl (s : Segment) : Alike s s := ⟨rfl, rfl, rfl, rfl, rfl⟩

theorem symm (h : Alike s s') : Alike s' s :=
  ⟨h.owner.symm, h.nursery.symm, h.used.symm, h.objects.symm, h.weakrefs.symm⟩

theorem trans (h : Alike s s') (h' : Alike s' s'') : Alike s s'' :=
  ⟨h'.owner.trans h.owner, h'.nursery.trans h.nursery, h'.used.trans h.used,
    h'.objects.trans h.objects, h'.weakrefs.trans h.weakrefs⟩

end Segment.Alike

namespace Engine

/-- The states differ in nothing that a transaction or a collection depends on. -/
structure Alike (e e' : Engine) : Prop where
  settings : e'.settings = e.settings
  layout : e'.layout = e.layout
  threads : e'.threads = e.threads
  txns : e'.txns = e.txns
  clock : e'.clock = e.clock
  inevitable : e'.inevitable = e.inevitable
  weakrefs : e'.weakrefs = e.weakrefs
  prebuilt : e'.prebuilt = e.prebuilt
  arena : e'.arena = e.arena
  segments_size : e'.segments.size = e.segments.size
  segment : ∀ k, (e.segment k).Alike (e'.segment k)

namespace Alike
variable {e e' e'' : Engine}

theorem refl (e : Engine) : Alike e e :=
  ⟨rfl, rfl, rfl, rfl, rfl, rfl, rfl, rfl, rfl, rfl, fun _ => .refl _⟩

theorem symm (h : Alike e e') : Alike e' e :=
  ⟨h.settings.symm, h.layout.symm, h.threads.symm, h.txns.symm, h.clock.symm, h.inevitable.symm,
    h.weakrefs.symm, h.prebuilt.symm, h.arena.symm, h.segments_size.symm,
      fun k => (h.segment k).symm⟩

theorem trans (h : Alike e e') (h' : Alike e' e'') : Alike e e'' :=
  ⟨h'.settings.trans h.settings, h'.layout.trans h.layout, h'.threads.trans h.threads,
    h'.txns.trans h.txns, h'.clock.trans h.clock, h'.inevitable.trans h.inevitable,
    h'.weakrefs.trans h.weakrefs, h'.prebuilt.trans h.prebuilt, h'.arena.trans h.arena,
    h'.segments_size.trans h.segments_size, fun k => (h.segment k).trans (h'.segment k)⟩

theorem txn (h : Alike e e') (x : TxnId) : e'.txn x = e.txn x := by
  rw [Engine.txn, Engine.txn, h.txns]

theorem thread (h : Alike e e') (t : ThreadId) : e'.thread t = e.thread t := by
  rw [Engine.thread, Engine.thread, h.threads]

end Alike

theorem alike_setStanding (e : Engine) (k : Option SegmentId) (standing : Standing) :
    Alike e (e.setStanding k standing) := by
  cases k with
  | none => exact .refl e
  | some k =>
    have change : e.setStanding (some k) standing = e.setSegment k fun s =>
      { s with standing } := rfl
    rw [change]
    refine ⟨rfl, rfl, rfl, rfl, rfl, rfl, rfl, rfl, rfl, by simp, fun j => ?_⟩
    rw [segment_setSegment]
    split
    · next h =>
      rw [← h.1]
      exact ⟨rfl, rfl, rfl, rfl, rfl⟩
    · exact .refl _

theorem alike_acquire (e : Engine) (m : Mutex) : Alike e (e.acquire m) := { Alike.refl _ with }

theorem alike_giveUp (e : Engine) (m : Mutex) : Alike e (e.giveUp m) := { Alike.refl _ with }

theorem alike_setLog (e : Engine) (f : Event.Log → Event.Log) : Alike e (e.setLog f) :=
  { Alike.refl _ with }

theorem alike_setCounters (e : Engine) (f : Counters → Counters) : Alike e (e.setCounters f) :=
  { Alike.refl _ with }

theorem alike_note (e : Engine) (kind : Event.Kind) (k : Option SegmentId)
    (fields : List (String × Event.Value)) : Alike e (e.note kind k fields) := { Alike.refl _ with }

theorem othersStopped_iff {e : Engine} {c : Caller} : e.othersStopped c = true ↔
    ∀ k t, (e.segment k).owner = some t → .thread t = c ∨ (e.segment k).standing ≠ .running := by
  simp only [othersStopped, Array.all_eq_true, segment, Array.getD_eq_getD_getElem?]
  constructor
  · intro h k t
    by_cases hk : k < e.segments.size
    · have here := h k hk
      rw [Array.getElem?_eq_getElem hk, Option.getD_some]
      intro owner
      rw [owner] at here
      simpa using here
    · rw [Array.getElem?_eq_none (Nat.le_of_not_lt hk)]
      rintro ⟨⟩
  · intro h k hk
    have here := h k
    rw [Array.getElem?_eq_getElem hk, Option.getD_some] at here
    split
    · next t owner => simpa using here t owner
    · rfl

end Engine
end TxHeap
