import Mathlib.Logic.Function.Basic
import TxHeap.Proofs.Call.Sound
import TxHeap.Proofs.Sync.Quiet

/-! The lives of threads and transactions in outline: who runs which transaction, what is to be
called when it ends, and who has entered from outside. Calls change the outline in a few ways only,
each of which keeps it sound. -/

namespace TxHeap

/-- The life of a thread: its transaction, and what has been registered for the end of that. -/
structure Life where
  txn : Option TxnId := none
  segment : Option SegmentId := none
  registered : Bool := false
  onAbort : CallbackTable Key Callback := .empty
  onCommit : CallbackTable Key Callback := .empty

def Life.due (l : Life) (phase : Phase) : List Callback :=
  (if phase = .committed then l.onCommit else l.onAbort).entries.map (·.2)

def Thread.life (th : Thread) : Life := ⟨th.txn, th.segment, th.registered, th.onAbort, th.onCommit⟩

structure Outline where
  threads : Nat
  thread : ThreadId → Life
  txns : Nat
  /-- Whose a transaction is, and where it is in its life. -/
  txn : TxnId → ThreadId × Phase
  foreign : List (Nat × Foreign)
  pauser : Option Caller
  closed : Bool

/-- What a call may do: which foreign entries and tables of callbacks it may change, whose
transactions it may end, for whom it may ask for a pause, which threads it may retire, and whether
it may close the engine. Where it stops after ending a transaction the outline is within `settled`;
from there on it changes the foreign table only if it `drops` an entry. After a callback it relies
on `back`. -/
structure Licence where
  control : Option Nat
  tables : ThreadId → Prop
  ends : ThreadId → Prop
  asks : Caller → Prop
  /-- When a transaction has ended, its thread may have to collect. -/
  collects : ∀ t, ends t → asks (.thread t)
  retires : ThreadId → Prop
  closes : Prop
  drops : Prop
  settled : Outline → Prop
  back : Engine → Prop
  /-- What it may make of the foreign caller's entry. -/
  enters : Outline → Option Foreign → Prop := fun _ _ => False

namespace Outline

structure Sound (o : Outline) : Prop where
  fresh : ∀ t, o.threads ≤ t → o.thread t = {}
  idle : ∀ t, (o.thread t).txn = none → (o.thread t).segment = none ∧
    (o.thread t).onAbort = .empty ∧
    (o.thread t).onCommit = .empty
  held : ∀ t x, (o.thread t).txn = some x → x < o.txns ∧ (o.txn x).1 = t ∧
    (o.txn x).2.isActive = true ∧
    (o.thread t).segment.isSome = true ∧ (o.thread t).registered = true
  active : ∀ x, (o.txn x).2.isActive = true → (o.thread (o.txn x).1).txn = some x
  /-- Nothing is called if a transaction aborts that cannot. -/
  inevitable : ∀ x, (o.txn x).2 = .inevitable → (o.thread (o.txn x).1).onAbort = .empty
  entry : ∀ c f, o.foreign.lookup c = some f → f.thread < o.threads
  /-- No two foreign callers have the same thread. -/
  apart : ∀ c d f g, o.foreign.lookup c = some f → o.foreign.lookup d = some g →
    f.thread = g.thread → c = d

def enrolled (o : Outline) : Outline :=
  { o with
    threads := o.threads + 1
    thread := Function.update o.thread o.threads { registered := true } }

def begun (o : Outline) (t : ThreadId) (k : SegmentId) : Outline :=
  { o with
    txns := o.txns + 1
    txn := Function.update o.txn o.txns (t, .running)
    thread := Function.update o.thread t { o.thread t with txn := some o.txns, segment := some k } }

def promoted (o : Outline) (x : TxnId) : Outline :=
  { o with
    txn := Function.update o.txn x ((o.txn x).1, .inevitable)
    thread := Function.update o.thread (o.txn x).1 { o.thread (o.txn x).1 with onAbort := .empty } }

def ended (o : Outline) (x : TxnId) (phase : Phase) : Outline :=
  { o with
    txn := Function.update o.txn x ((o.txn x).1, phase)
    thread := Function.update o.thread (o.txn x).1
      { registered := (o.thread (o.txn x).1).registered } }

def retired (o : Outline) (t : ThreadId) : Outline :=
  { o with thread := Function.update o.thread t { o.thread t with registered := false } }

def noted (o : Outline) (t : ThreadId) (onAbort onCommit : CallbackTable Key Callback) : Outline :=
  { o with thread := Function.update o.thread t { o.thread t with onAbort, onCommit } }

end Outline

section Changes
variable (o : Outline) (x : TxnId) (phase : Phase)

@[simp] theorem Outline.txn_ended : (o.ended x phase).txn x = ((o.txn x).1, phase) :=
  Function.update_self ..

@[simp] theorem Outline.thread_ended :
    (o.ended x phase).thread (o.txn x).1 = { registered := (o.thread (o.txn x).1).registered } :=
  Function.update_self ..

@[simp] theorem Outline.thread_begun (t : ThreadId) (k : SegmentId) :
    (o.begun t k).thread t = { o.thread t with txn := some o.txns, segment := some k } :=
  Function.update_self ..

@[simp] theorem Outline.thread_enrolled : o.enrolled.thread o.threads = { registered := true } :=
  Function.update_self ..

@[simp] theorem Outline.thread_retired (t : ThreadId) :
    (o.retired t).thread t = { o.thread t with registered := false } :=
  Function.update_self ..

@[simp] theorem Outline.txn_promoted : (o.promoted x).txn x = ((o.txn x).1, .inevitable) :=
  Function.update_self ..

end Changes

structure Outline.Ages (o o' : Outline) : Prop where
  threads : o.threads ≤ o'.threads
  txns : o.txns ≤ o'.txns
  past : ∀ x, x < o.txns → (o.txn x).2.isActive = false → (o'.txn x).2 = (o.txn x).2

/-- One change of the outline, by a call that may have stopped after it has ended a transaction. -/
inductive Turn (L : Licence) (spent : Bool) (o : Outline) : Outline → Prop
  | pause (who : Option Caller) (may : ∀ c, who = some c → L.asks c) :
      Turn L spent o { o with pauser := who }
  | close (may : L.closes) : Turn L spent o { o with closed := true }
  | enroll : Turn L spent o o.enrolled
  | retire (t : ThreadId) (may : L.retires t) (idle : (o.thread t).txn = none) :
      Turn L spent o (o.retired t)
  | note (t : ThreadId) (x : TxnId) (onAbort onCommit : CallbackTable Key Callback)
      (may : L.tables t) (held : (o.thread t).txn = some x)
      (still : (o.txn x).2 = .running ∨ onAbort = (o.thread t).onAbort) :
      Turn L spent o (o.noted t onAbort onCommit)
  | begin (t : ThreadId) (k : SegmentId) (idle : (o.thread t).txn = none)
      (registered : (o.thread t).registered = true) :
      Turn L spent o (o.begun t k)
  | promote (x : TxnId) (held : (o.thread (o.txn x).1).txn = some x) : Turn L spent o (o.promoted x)
  /-- A foreign caller's entry is made, changed or dropped. -/
  | entry (c : Nat) (foreign : List (Nat × Foreign)) (mine : L.control = some c)
      (others : ∀ d, d ≠ c → foreign.lookup d = o.foreign.lookup d)
      (own : ∀ f, foreign.lookup c = some f → f.thread < o.threads ∧
        ∀ d g, d ≠ c → o.foreign.lookup d = some g → g.thread ≠ f.thread)
      (late : spent = true → L.drops ∧ foreign.lookup c = none)
      (may : L.enters o (foreign.lookup c)) : Turn L spent o { o with foreign }

structure Ending where
  txn : TxnId
  phase : Phase
  due : List Callback

def Phase.EndsIn (now last : Phase) : Prop :=
  last = .committed ∨ last = .aborted ∧ now ≠ .inevitable

theorem Phase.EndsIn.past {now last : Phase} (h : now.EndsIn last) : last.isActive = false := by
  obtain rfl | ⟨rfl, -⟩ := h <;> rfl

/-- What a call does at a time: changes of the outline, among which one transaction ends at most,
and none if it has ended one before. -/
inductive Turns (L : Licence) (spent : Bool) (o0 : Outline) : Option Ending → Outline → Prop
  | start : Turns L spent o0 none o0
  | turn {ended : Option Ending} {o o' : Outline} (before : Turns L spent o0 ended o)
      (h : Turn L spent o o') :
      Turns L spent o0 ended o'
  | finish {o : Outline} {x : TxnId} {phase : Phase} (before : Turns L spent o0 none o)
      (first : spent = false) (held : (o.thread (o.txn x).1).txn = some x)
      (how : (o.txn x).2.EndsIn phase) (may : L.ends (o.txn x).1) :
      Turns L spent o0 (some ⟨x, phase, (o.thread (o.txn x).1).due phase⟩) (o.ended x phase)

section Sound
variable {L : Licence} {spent : Bool} {o o' : Outline} {x : TxnId} {t : ThreadId}

namespace Outline.Sound
section
variable (h : o.Sound)
include h

theorem lt (held : (o.thread t).txn ≠ none) : t < o.threads := by
  refine Nat.lt_of_not_le fun unknown => held ?_
  rw [h.fresh t unknown]

theorem enrolled : o.enrolled.Sound := by
  obtain ⟨fresh, idle, held, active, inevitable, entry, apart⟩ := h
  constructor <;> simp only [Outline.enrolled, Function.update_apply] <;> grind

theorem retired (free : (o.thread t).txn = none) : (o.retired t).Sound := by
  obtain ⟨fresh, idle, held, active, inevitable, entry, apart⟩ := h
  constructor <;> simp only [Outline.retired, Function.update_apply] <;> grind

theorem noted {onAbort onCommit : CallbackTable Key Callback} (runs : (o.thread t).txn = some x)
    (still : (o.txn x).2 = .running ∨ onAbort = (o.thread t).onAbort) :
    (o.noted t onAbort onCommit).Sound := by
  have busy : ∀ y, (o.txn y).2 = .inevitable → (o.thread (o.txn y).1).txn = some y :=
    fun y hy => h.active y (by rw [hy]; rfl)
  obtain ⟨fresh, idle, held, active, inevitable, entry, apart⟩ := h
  constructor <;> simp only [Outline.noted, Function.update_apply] <;> grind

theorem begun (k : SegmentId) (free : (o.thread t).txn = none)
    (registered : (o.thread t).registered = true) :
    (o.begun t k).Sound := by
  obtain ⟨fresh, idle, held, active, inevitable, entry, apart⟩ := h
  constructor <;> simp only [Outline.begun, Function.update_apply] <;> grind [Phase.isActive]

theorem promoted (runs : (o.thread (o.txn x).1).txn = some x) : (o.promoted x).Sound := by
  obtain ⟨fresh, idle, held, active, inevitable, entry, apart⟩ := h
  constructor <;> simp only [Outline.promoted, Function.update_apply] <;> grind [Phase.isActive]

theorem ended {phase : Phase} (runs : (o.thread (o.txn x).1).txn = some x)
    (past : phase.isActive = false) :
    (o.ended x phase).Sound := by
  obtain ⟨fresh, idle, held, active, inevitable, entry, apart⟩ := h
  constructor <;> simp only [Outline.ended, Function.update_apply] <;> grind [Phase.isActive]

theorem entered {c : Nat} {foreign : List (Nat × Foreign)}
    (others : ∀ d, d ≠ c → foreign.lookup d = o.foreign.lookup d)
    (own : ∀ f, foreign.lookup c = some f → f.thread < o.threads ∧
      ∀ d g, d ≠ c → o.foreign.lookup d = some g → g.thread ≠ f.thread) :
      Outline.Sound { o with foreign } := by
  refine { h with entry := fun d f found => ?_, apart := fun d d' f g found found' same => ?_ }
  · by_cases hd : d = c
    · subst hd
      exact (own f found).1
    · exact h.entry d f ((others d hd).symm.trans found)
  · by_cases hd : d = c <;> by_cases hd' : d' = c
    · rw [hd, hd']
    · subst hd
      exact absurd same.symm ((own f found).2 d' g hd' ((others d' hd').symm.trans found'))
    · subst hd'
      exact absurd same ((own g found').2 d f hd ((others d hd).symm.trans found))
    · exact h.apart d d' f g ((others d hd).symm.trans found)
        ((others d' hd').symm.trans found') same

end
end Outline.Sound

theorem Turn.sound (turn : Turn L spent o o') (h : o.Sound) : o'.Sound := by
  cases turn with
  | pause | close => exact { h with }
  | enroll => exact h.enrolled
  | retire t may idle => exact h.retired idle
  | note t x onAbort onCommit may held still => exact h.noted held still
  | begin t k idle registered => exact h.begun k idle registered
  | promote x held => exact h.promoted held
  | entry c foreign mine others own => exact h.entered others own

theorem Outline.Ages.refl (o : Outline) : o.Ages o := ⟨le_rfl, le_rfl, fun _ _ _ => rfl⟩

theorem Outline.Ages.trans {o'' : Outline} (h : o.Ages o') (h' : o'.Ages o'') : o.Ages o'' where
  threads := h.threads.trans h'.threads
  txns := h.txns.trans h'.txns
  past x hx past := by
    have same := h.past x hx past
    rw [← same]
    exact h'.past x (hx.trans_le h.txns) (by rwa [same])

theorem Outline.Ages.of_held {p : ThreadId × Phase} {thread : ThreadId → Life} (h : o.Sound)
    (held : (o.thread t).txn = some x) :
    o.Ages { o with txn := Function.update o.txn x p, thread } where
  threads := le_rfl
  txns := le_rfl
  past y _ past := by
    have other : y ≠ x := by
      rintro rfl
      rw [(h.held t y held).2.2.1] at past
      cases past
    exact congrArg Prod.snd (Function.update_of_ne other ..)

theorem Turn.ages (turn : Turn L spent o o') (h : o.Sound) : o.Ages o' := by
  cases turn with
  | pause | close | retire | note | entry => exact ⟨le_rfl, le_rfl, fun _ _ _ => rfl⟩
  | enroll => exact ⟨Nat.le_succ _, le_rfl, fun _ _ _ => rfl⟩
  | begin =>
    refine ⟨le_rfl, Nat.le_succ _, fun x hx _ => ?_⟩
    exact congrArg Prod.snd (Function.update_of_ne (Nat.ne_of_lt hx) ..)
  | promote x held => exact .of_held h held

theorem Turns.sound {ended : Option Ending} (turns : Turns L spent o ended o') (h : o.Sound) :
    o'.Sound := by
  induction turns with
  | start => exact h
  | turn before turn ih => exact turn.sound ih
  | finish before first held how may ih => exact ih.ended held how.past

theorem Turns.ages {ended : Option Ending} (turns : Turns L spent o ended o') (h : o.Sound) :
    o.Ages o' := by
  induction turns with
  | start => exact .refl o
  | turn before turn ih => exact ih.trans (turn.ages (before.sound h))
  | finish before first held how may ih => exact ih.trans (.of_held (before.sound h) held)

end Sound

namespace Engine
variable {e e' : Engine} {t : ThreadId} {x : TxnId}

def outline (e : Engine) : Outline where
  threads := e.threads.size
  thread t := (e.thread t).life
  txns := e.txns.size
  txn x := ((e.txn x).thread, (e.txn x).phase)
  foreign := e.foreign
  pauser := e.pauser
  closed := e.closed

structure Poised (e e' : Engine) : Prop where
  outline : e'.outline = e.outline
  locked : e'.locked = e.locked

theorem Poised.refl (e : Engine) : Poised e e := ⟨rfl, rfl⟩

theorem Poised.trans {e'' : Engine} (h : Poised e e') (h' : Poised e' e'') : Poised e e'' :=
  ⟨h'.outline.trans h.outline, h'.locked.trans h.locked⟩

theorem outline_ext (threads : e'.threads.size = e.threads.size)
    (thread : ∀ t, (e'.thread t).life = (e.thread t).life) (txns : e'.txns.size = e.txns.size)
    (txn : ∀ x, (e'.txn x).thread = (e.txn x).thread ∧ (e'.txn x).phase = (e.txn x).phase)
    (foreign : e'.foreign = e.foreign) (pauser : e'.pauser = e.pauser)
    (closed : e'.closed = e.closed) :
    e'.outline = e.outline := by
  rw [outline, outline, Outline.mk.injEq]
  exact ⟨threads, funext thread, txns, funext fun x => by rw [(txn x).1, (txn x).2], foreign,
    pauser, closed⟩

theorem Hushed.poised (h : Hushed e e') : Poised e e' where
  outline := by
    refine outline_ext h.threads_size (fun t => ?_) h.txns_size
      (fun x => ⟨(h.txn x).1, (h.txn x).2.2⟩) h.foreign h.pauser
      h.closed
    rw [Thread.life, Thread.life, (h.life t).1, h.thread, (h.life t).2, (h.tables t).1,
      (h.tables t).2]
  locked := h.locked

instance : Frame Poised where
  refl := .refl
  trans := .trans
  hushed h _ := h.poised
  counters _ _ _ := ⟨rfl, rfl⟩

theorem Alike.outline (h : Alike e e') (foreign : e'.foreign = e.foreign)
    (pauser : e'.pauser = e.pauser) (closed : e'.closed = e.closed) : e'.outline = e.outline :=
  outline_ext (by rw [h.threads]) (fun t => by rw [h.thread]) (by rw [h.txns])
    (fun x => by rw [h.txn]; exact ⟨rfl, rfl⟩)
    foreign pauser closed

section Congruence
variable (h : e'.outline = e.outline)
include h

theorem threads_size_of_outline : e'.threads.size = e.threads.size := congrArg Outline.threads h

theorem life_of_outline (t : ThreadId) : (e'.thread t).life = (e.thread t).life :=
  congrFun (congrArg Outline.thread h) t

theorem held_of_outline (t : ThreadId) : (e'.thread t).txn = (e.thread t).txn :=
  congrArg Life.txn (life_of_outline h t)

theorem txns_size_of_outline : e'.txns.size = e.txns.size := congrArg Outline.txns h

theorem txn_of_outline (x : TxnId) :
    (e'.txn x).thread = (e.txn x).thread ∧ (e'.txn x).phase = (e.txn x).phase :=
  Prod.mk.inj (congrFun (congrArg Outline.txn h) x)

end Congruence

theorem outline_setThread (known : t < e.threads.size) (f : Thread → Thread) :
    (e.setThread t f).outline =
    { e.outline with thread := Function.update e.outline.thread t (f (e.thread t)).life } := by
  have life : (fun u => ((e.setThread t f).thread u).life) = Function.update e.outline.thread t
      (f (e.thread t)).life := by
    funext u
    rw [thread_setThread, Function.update_apply]
    by_cases hu : u = t
    · subst hu
      rw [if_pos ⟨rfl, known⟩, if_pos rfl]
    · rw [if_neg fun h => hu h.1.symm, if_neg hu]
      rfl
  rw [outline, life]
  simp [outline]

theorem outline_finished {k : SegmentId} {phase : Phase} (hx : x < e.txns.size)
    (ht : t < e.threads.size) (own : (e.txn x).thread = t) :
    ((e.setThread t fun th => { th with onAbort := .empty, onCommit := .empty }).finished x t k
      phase).outline =
      e.outline.ended x phase := by
  rw [outline, Outline.ended, Outline.mk.injEq]
  refine ⟨by simp [finished, outline], funext fun u => ?_, by simp [finished, outline],
    funext fun y => ?_,
    by simp [finished, outline], by simp [finished, outline], by simp [finished, outline]⟩
  · by_cases hu : u = t
    · subst hu
      rw [own_thread_finished (by simpa using ht), thread_setThread, if_pos ⟨rfl, ht⟩]
      simp [outline, own, Thread.life]
    · rw [thread_finished hu, thread_setThread, if_neg fun h => hu h.1.symm]
      simp [outline, own, Function.update_of_ne hu]
  · by_cases hy : y = x
    · subst hy
      rw [own_txn_finished (by simpa using hx)]
      simp [outline]
    · rw [txn_finished hy]
      simp [outline, Function.update_of_ne hy]

theorem Ages.outline (h : Ages e e') : e.outline.Ages e'.outline :=
  ⟨h.threads_size, h.txns_size, fun x hx past =>
    h.ended x hx (by rw [Active]; exact fun active => Bool.noConfusion (past.symm.trans active))⟩

end Engine

open Engine TxHeap.Action

section Calls
variable {σ α β : Type} {s : σ}

/-- Whatever happens meanwhile, the course calls these functions in this order, each once, provided
that each returns, and no others. -/
def Course.Calls : List Callback → Course σ α → Prop
  | due, .done _ _ => due = []
  | due, .raised _ _ => due = []
  | due, .waiting _ _ resume => due = [] ∧ ∀ s, (resume s).Calls []
  | due, .calling c _ resume => ∃ rest, due = c :: rest ∧ ∀ s, (resume (.ok ()) s).Calls rest

namespace Course.Calls
variable {c : Course σ α} {due : List Callback}

protected theorem bind {f : α → σ → Course σ β} (h : c.Calls due) (mute : ∀ a s, (f a s).Calls []) :
    (c.bind f).Calls due := by
  induction c generalizing due with
  | done a s =>
    obtain rfl := h
    exact mute a s
  | raised => exact h
  | waiting w s resume ih => exact ⟨h.1, fun s => ih s (h.2 s)⟩
  | calling g s resume ih =>
    obtain ⟨rest, same, next⟩ := h
    exact ⟨rest, same, fun s => ih _ s (next s)⟩

theorem bindOutcome {f : Except Raise α → σ → Course σ β} (h : c.Calls [])
    (mute : ∀ r s, (f r s).Calls []) :
    (c.bindOutcome f).Calls [] := by
  induction c with
  | done a s | raised v s => exact mute _ s
  | waiting w s resume ih => exact ⟨rfl, fun s => ih s (h.2 s)⟩
  | calling =>
    obtain ⟨rest, none, -⟩ := h
    cases none

end Course.Calls

structure Action.Mute (x : Action σ α) : Prop where
  calls : ∀ s, (x s).Calls []

namespace Action.Mute
variable {x : Action σ α} {f : α → Action σ β}

protected theorem pure (a : α) : Mute (pure a : Action σ α) := ⟨fun _ => rfl⟩

protected theorem bind (h : Mute x) (h' : ∀ a, Mute (f a)) : Mute (x >>= f) :=
  ⟨fun s => (h.calls s).bind fun a s => (h' a).calls s⟩

protected theorem look {g : σ → α} (h : ∀ a, Mute (f a)) : Mute (TxHeap.look g >>= f) :=
  ⟨fun s => (h (g s)).calls s⟩

protected theorem lift (x : EStateM Raise σ α) : Mute (liftM x : Action σ α) := by
  refine ⟨fun s => ?_⟩
  cases run : x s with
  | ok => rw [lift_ok run]; exact rfl
  | error => rw [lift_error run]; exact rfl

protected theorem modify (g : σ → σ) : Mute (modify g : Action σ PUnit) := ⟨fun _ => rfl⟩

protected theorem ite {p : Prop} [Decidable p] {x x' : Action σ α} (h : Mute x) (h' : Mute x') :
    Mute (if p then x else x') := by
  split
  · exact h
  · exact h'

protected theorem ending (h : Mute x) (last : EStateM Raise σ Unit) : Mute (x.ending last) := by
  refine ⟨fun s => (h.calls s).bindOutcome fun r s => ?_⟩
  cases last s with
  | ok => cases r <;> exact rfl
  | error => exact rfl

end Action.Mute
end Calls

open TxHeap.Action (Mute)

theorem mute_lock (m : Mutex) : Mute (lock m) := by
  refine ⟨fun e => ?_⟩
  rw [lock]
  split
  · exact ⟨rfl, fun _ => rfl⟩
  · exact rfl

theorem mute_withLock {α : Type} {x : EngineCall α} (m : Mutex) (h : Mute x) :
    Mute (withLock m x) :=
  (mute_lock m).bind fun _ => h.ending _

theorem mute_park (who : Caller) : Mute (park who) := by
  refine ⟨fun e => ?_⟩
  rw [park]
  split
  · exact ⟨rfl, fun _ => rfl⟩
  · exact rfl

theorem mute_await (who : Caller) (g : Goal) : Mute (await who g) := by
  refine ⟨fun e => ?_⟩
  rw [await]
  split
  · exact rfl
  · exact ⟨rfl, fun _ => rfl⟩

theorem mute_beginPause (who : Caller) (mode : PauseMode) : Mute (beginPause who mode) :=
  (mute_park who).bind fun _ => .look fun _ =>
    .ite ((Mute.lift _).bind fun _ => (Mute.modify _).bind fun _ => mute_await ..)
    ((Mute.modify _).bind fun _ => mute_await ..)

theorem mute_markThread (t : ThreadId) (m : Marking) : Mute (Marking.markThread t m) := by
  refine (mute_lock _).bind fun _ => .look fun _ => (Mute.lift _).bind fun _ =>
    (Mute.lift _).bind fun _ => .look fun x => ?_
  cases x with
  | none => exact .pure _
  | some => exact (Mute.lift _).bind fun _ => .pure _

theorem mute_markThreads : ∀ (ts : List ThreadId) (m : Marking), Mute (Marking.markThreads ts m)
  | [], m => .pure m
  | t :: rest, m => (mute_markThread t m).bind (mute_markThreads rest)

theorem mute_collectOld : Mute collectOld :=
  .look fun _ => .look fun _ => (Mute.lift _).bind fun _ => .look fun _ => .look fun _ =>
    (Mute.lift _).bind fun _ =>
    .look fun _ => (mute_markThreads ..).bind fun _ => (Mute.lift _).bind fun _ => .lift _

theorem mute_collectIfDue (t : ThreadId) : Mute (collectIfDue t) :=
  mute_withLock _ <| .look fun _ => .look fun _ => .ite
    ((mute_beginPause ..).bind fun _ => .ending (.look fun _ => .ite mute_collectOld (.pure _)) _)
      (.pure _)

theorem mute_unregister (t : ThreadId) : Mute (unregister t) := by
  have rest : Mute (withLock .engine do
      park (.thread t)
      updateThread t fun th => { th with registered := false }
      lock (.stack t)
      updateThread t fun th => { th with stack := #[] }
      unlock (.stack t)) :=
    mute_withLock _ <| (mute_park _).bind fun _ => (Mute.lift _).bind fun _ =>
      (mute_lock _).bind fun _ =>
      (Mute.lift _).bind fun _ => .lift _
  exact .look fun _ => .ite ((Mute.lift _).bind fun _ => rest) rest

theorem calls_callAll {β : Type} {f : Unit → EngineCall β} (mute : Mute (f ())) :
    ∀ (callbacks : List Callback) (e : Engine), ((callAll callbacks >>= f) e).Calls callbacks
  | [], e => mute.calls e
  | _ :: rest, _ => ⟨rest, rfl, calls_callAll mute rest⟩

/-- The outline and the mutexes are the same, and no fate of a transaction has been counted. -/
structure Level (e e' : Engine) : Prop extends Poised e e' where
  uncounted : Uncounted e e'

instance : Frame Level where
  refl e := { Poised.refl e with uncounted := rfl }
  trans h h' := { h.toPoised.trans h'.toPoised with uncounted := h'.uncounted.trans h.uncounted }
  hushed h same := { h.poised with uncounted := congrArg Counters.fates same }
  counters _ _ h := { toPoised := ⟨rfl, rfl⟩, uncounted := h _ }

/-- With no stack locked the call neither waits nor calls back. It leaves the outline and the
mutexes alone, unless it fails for a complaint of `E`: then it may have taken one. No fate is
counted. -/
structure Smooth (E : Raise → Prop) {α : Type} (f : EngineCall α) : Prop where
  ends : ∀ e, (∀ t, .stack t ∉ e.locked) → (f e).Finishes (fun _ e' => Level e e')
    fun v e' => E v ∧ e'.outline = e.outline ∧ Uncounted e e'

namespace Smooth
variable {E : Raise → Prop} {α β : Type} {f : EngineCall α} {g : α → EngineCall β}

protected theorem pure (a : α) : Smooth E (pure a : EngineCall α) := ⟨fun e _ => Frame.refl e⟩

protected theorem bind (h : Smooth E f) (h' : ∀ a, Smooth E (g a)) : Smooth E (f >>= g) where
  ends e loose := by
    refine .bind ((h.ends e loose).mono (fun a e' first => ?_) fun _ _ => id)
    exact ((h' a).ends e' (by rwa [first.locked])).mono (fun _ _ => Frame.trans first)
      fun v e'' post =>
      ⟨post.1, post.2.1.trans first.outline, post.2.2.trans first.uncounted⟩

protected theorem look {h : Engine → α} (next : ∀ a, Smooth E (g a)) :
    Smooth E (TxHeap.look h >>= g) :=
  ⟨fun e loose => (next (h e)).ends e loose⟩

protected theorem lift {f : EngineM α} (h : Preserves E Level f) :
    Smooth E (liftM f : EngineCall α) :=
  ⟨fun e _ => Course.Finishes.lift ((h.ends e).mono (fun _ _ => id) fun _ _ post =>
    ⟨post.1, post.2.outline, post.2.uncounted⟩)⟩

protected theorem ite {p : Prop} [Decidable p] {f f' : EngineCall α} (h : Smooth E f)
    (h' : Smooth E f') :
    Smooth E (if p then f else f') := by
  split
  · exact h
  · exact h'

theorem stack (t : ThreadId) {h : Engine → β} {y : β → EngineM α}
    (work : ∀ b, Preserves E Level (y b)) {g : α → EngineCall γ}
    (next : ∀ a, Smooth E (g a)) : Smooth E (do
      lock (.stack t)
      let a ← y (← TxHeap.look h)
      unlock (.stack t)
      g a) where
  ends e loose := by
    rw [bind_done (lock_free (loose t)), look_bind]
    have ends := (work (h (e.acquire (.stack t)))).ends (e.acquire (.stack t))
    unfold Ends at ends
    split at ends
    · next a e1 run =>
      rw [lift_done run, unlock_bind]
      have given : Level e (e1.giveUp (.stack t)) := by
        refine ⟨⟨ends.outline, ?_⟩, ends.uncounted⟩
        rw [giveUp, ends.locked]
        exact List.erase_cons_head ..
      exact ((next a).ends _ (by rwa [given.locked])).mono (fun _ _ => Frame.trans given)
        fun v e'' post =>
        ⟨post.1, post.2.1.trans given.outline, post.2.2.trans given.uncounted⟩
    · next v e1 run =>
      rw [lift_bind_error run]
      exact ⟨ends.1, ends.2.outline, ends.2.uncounted⟩

end Smooth

section Collections
variable {E : Raise → Prop} [Blames E]

theorem smooth_evacuate (x : TxnId) (k : SegmentId) (t : ThreadId) :
    Smooth E (Evacuation.evacuate x k t) :=
  .look fun _ => .stack t (fun _ => (Evacuation.quiet_promoteStack t 0 _).run _) fun _ =>
    (Smooth.lift ((Evacuation.quiet_promoteReachable x k).run _)).bind fun _ => .pure _

theorem smooth_collectMinor (x : TxnId) : Smooth E (collectMinor x) :=
  .look fun _ => .look fun _ => .look fun _ => .ite (.pure _) <| .look fun _ =>
    (Smooth.lift (quiet_logInfo ..)).bind fun _ => (smooth_evacuate ..).bind fun _ =>
      .ite ((Smooth.lift (Evacuation.quiet_fixTargets ..)).bind fun _ =>
          (Smooth.lift (Evacuation.quiet_close ..)).bind fun _ => .pure _)
        ((Smooth.lift (Evacuation.quiet_close ..)).bind fun _ => .pure _)

theorem smooth_markThread (t : ThreadId) (m : Marking) : Smooth E (Marking.markThread t m) := by
  refine .stack t (fun _ => (Marking.quiet_markAll _).run m) fun _ => .look fun x => ?_
  cases x with
  | none => exact .pure _
  | some x => exact (Smooth.lift ((Marking.quiet_markTxn x).run _)).bind fun _ => .pure _

theorem smooth_markThreads :
    ∀ (ts : List ThreadId) (m : Marking), Smooth E (Marking.markThreads ts m)
  | [], m => .pure m
  | t :: rest, m => (smooth_markThread t m).bind (smooth_markThreads rest)

theorem smooth_collectOld : Smooth E collectOld :=
  .look fun _ => .look fun _ => (Smooth.lift (quiet_logInfo ..)).bind fun _ => .look fun _ =>
    .look fun _ =>
    (Smooth.lift ((Marking.quiet_markAll _).run _)).bind fun _ => .look fun _ =>
      (smooth_markThreads ..).bind fun _ =>
      (Smooth.lift (Marking.quiet_markReachable.run _)).bind fun _ => .lift (quiet_sweepUnmarked _)

end Collections
end TxHeap
