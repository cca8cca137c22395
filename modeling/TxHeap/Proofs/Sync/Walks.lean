import TxHeap.Proofs.Call.Abort
import TxHeap.Proofs.Sync.Acts

/-! Calls as sequences of acts. Between two stops a call does nothing but acts, and it waits for
what it says. When it goes on it may rely on what others leave alone: its thread, its transaction,
and its foreign entry. -/

namespace TxHeap
open Engine TxHeap.Action

variable {who : Caller} {a b c e e' e'' : Engine} {σ σ' : Stance} {w : Wait} {g : Goal} {m : Mutex}

namespace Stance

@[simp] def start (control : Option Nat) (threads : List ThreadId) (e : Engine) : Stance :=
  { control, threads, known := e.threads.size }

@[simp] def follow (σ : Stance) (e : Engine) : Stance :=
  { σ with threads := σ.threads ++ List.range' σ.known (e.threads.size - σ.known) }

def woken (σ : Stance) (w : Wait) (e : Engine) : Stance :=
  { σ with
    known := e.threads.size
    held := match w with
      | .mutex m => m :: σ.held
      | .backoff => σ.held
      | _ => .engine :: σ.held }

variable {t : ThreadId}

structure Tracks (σ : Stance) (e : Engine) (t : ThreadId) : Prop where
  mine : σ.mine t
  known : t < e.threads.size

theorem Tracks.congr (h : σ.Tracks e t) (threads : σ'.threads = σ.threads)
    (known : σ'.known = σ.known) (size : e.threads.size ≤ e'.threads.size) : σ'.Tracks e' t := by
  refine ⟨?_, h.known.trans_le size⟩
  rw [Stance.mine, threads, known]
  exact h.mine

theorem Tracks.follows (h : σ.Tracks e t) : t ∈ (σ.follow e).threads := by
  rw [follow, List.mem_append, List.mem_range'_1]
  refine h.mine.imp id fun fresh => ⟨fresh, ?_⟩
  rw [Nat.add_sub_cancel' (fresh.trans_lt h.known).le]
  exact h.known

theorem Tracks.acts (h : σ.Tracks e t) (acts : Acts σ e σ' e') : σ'.Tracks e' t :=
  h.congr acts.same.2.1 acts.same.2.2 acts.tidy.threads_size

def For (σ : Stance) (e : Engine) : Caller → Prop
  | .thread t => σ.Tracks e t
  | _ => True

theorem Tracks.serves (h : σ.Tracks e t) : σ.For e (.thread t) := h

theorem for_system : σ.For e .system := trivial

theorem for_outside : σ.For e .outside := trivial

theorem mine_outside : σ.Mine .outside := trivial

theorem For.congr (h : σ.For e who) (threads : σ'.threads = σ.threads) (known : σ'.known = σ.known)
    (size : e.threads.size ≤ e'.threads.size) : σ'.For e' who := by
  cases who with
  | thread => exact .congr h threads known size
  | system | outside => trivial

theorem For.mine (h : σ.For e who) : σ.Mine who := by
  cases who with
  | thread => exact Tracks.mine h
  | system | outside => trivial

end Stance

def Goal.Fits (g : Goal) (σ : Stance) (who : Caller) (e : Engine) : Prop :=
  match g with
  | .othersStopped => σ.pausing = some who
  | .freeSegment => σ.pausing = none ∧ ∃ t, who = .thread t ∧ (e.thread t).segment = none
  | .noInevitable =>
    σ.pausing = none ∧ ∃ t x, who = .thread t ∧ (e.thread t).txn = some x ∧
      (e.txn x).phase = .running

inductive Rests (σ : Stance) (e : Engine) : Wait → Stance → Engine → Prop
  | mutex (m : Mutex) (taken : m ∈ e.locked) (calm : σ.seeking = false) (idle : σ.pausing = none)
      (bare : m = .engine ∧ .engine ∉ σ.held ∨ σ.held = []) : Rests σ e (.mutex m) σ e
  | pause (who : Caller) (own : σ.For e who) (held : .engine ∈ σ.held) (calm : σ.seeking = false)
      (idle : σ.pausing = none) (paused : e.pausedFor who = true) :
      Rests σ e (.pause (e.rest who (e.segmentOf who) .released).2) (σ.drop .engine)
        (e.rest who (e.segmentOf who) .released).1
  | goal (g : Goal) (who : Caller) (own : σ.For e who) (held : .engine ∈ σ.held)
      (apart : .bracket ∉ σ.held) (calm : σ.seeking = true → g = .freeSegment)
      (going : e.pausedFor who = false) (unmet : g.holds who e = false) (fits : g.Fits σ who e) :
      Rests σ e (.goal g (e.rest who (e.segmentOf who) g.condition).2)
        { σ.drop .engine with seeking := decide (g = .freeSegment) }
          (e.rest who (e.segmentOf who) g.condition).1
  | pauseInGoal (g : Goal) (who : Caller) (own : σ.For e who) (held : .engine ∈ σ.held)
      (apart : .bracket ∉ σ.held) (calm : σ.seeking = true → g = .freeSegment)
      (paused : e.pausedFor who = true) (fits : g.Fits σ who e) :
      Rests σ e (.pauseInGoal g (e.rest who (e.segmentOf who) .released).2)
        { σ.drop .engine with seeking := decide (g = .freeSegment) }
          (e.rest who (e.segmentOf who) .released).1

namespace Engine

theorem pausedFor_own (h : e.pauser = some who) : e.pausedFor who = false := by
  simp [pausedFor, h]

structure Abides (σ : Stance) (e e' : Engine) : Prop where
  locks : .engine ∈ e.locked → e.locked ⊆ e'.locked
  ages : Ages e e'
  thread : ∀ t ∈ σ.threads, e'.thread t = e.thread t
  txn : ∀ t x, t ∈ σ.threads → (e.thread t).txn = some x → (e.txn x).Blanks (e'.txn x)
  foreign : ∀ c, σ.control = some c → e'.foreign.lookup c = e.foreign.lookup c
  pauseMode : ∀ who, σ.pausing = some who → e'.pauseMode = e.pauseMode

theorem Abides.refl (σ : Stance) (e : Engine) : Abides σ e e :=
  ⟨fun _ _ hm => hm, (Alike.refl e).ages, fun _ _ => rfl, fun _ _ _ _ => .refl _, fun _ _ => rfl,
    fun _ _ => rfl⟩

theorem Abides.trans (h : Abides σ e e') (h' : Abides σ e' e'') : Abides σ e e'' where
  locks held := List.Subset.trans (h.locks held) (h'.locks (h.locks held held))
  ages := h.ages.trans h'.ages
  thread t ht := (h'.thread t ht).trans (h.thread t ht)
  txn t x ht hx := (h.txn t x ht hx).trans (h'.txn t x ht (by rwa [h.thread t ht]))
  foreign c hc := (h'.foreign c hc).trans (h.foreign c hc)
  pauseMode who hw := (h'.pauseMode who hw).trans (h.pauseMode who hw)

structure Rouses (a b : Engine) : Prop where
  alike : Alike a b
  locked : b.locked = a.locked
  pauser : b.pauser = a.pauser
  pauseMode : b.pauseMode = a.pauseMode
  asleep : b.asleep = a.asleep
  tickets : b.tickets = a.tickets
  foreign : b.foreign = a.foreign
  closed : b.closed = a.closed

theorem Rouses.trans (h : Rouses a b) (h' : Rouses b c) : Rouses a c :=
  ⟨h.alike.trans h'.alike, h'.locked.trans h.locked, h'.pauser.trans h.pauser,
    h'.pauseMode.trans h.pauseMode,
    h'.asleep.trans h.asleep, h'.tickets.trans h.tickets, h'.foreign.trans h.foreign,
      h'.closed.trans h.closed⟩

theorem rouses_running (a : Engine) (k : Option SegmentId) (kind : Event.Kind) :
    Rouses a ((a.setStanding k .running).noteDone kind k) := by
  refine ⟨(alike_setStanding a k .running).trans (alike_note _ _ _ _), ?_, ?_, ?_, ?_, ?_, ?_, ?_⟩
    <;> cases k <;> rfl

theorem Rouses.pausedFor (h : Rouses a b) (who : Caller) : b.pausedFor who = a.pausedFor who := by
  rw [Engine.pausedFor, Engine.pausedFor, h.pauser]

end Engine

namespace Wait
variable {z : Sleeper}

def sleeper? : Wait → Option Sleeper
  | pause z => some z
  | goal _ z => some z
  | pauseInGoal _ z => some z
  | _ => none

def Settles (g : Goal) (z : Sleeper) (a b : Engine) : Prop :=
  ∃ c, Rouses (a.acquire .engine) c ∧ g.holds z.who c = true ∧
    b = (c.setStanding z.segment .running).noteDone g.kind z.segment

def Resumes (w : Wait) (a b : Engine) : Prop :=
  match w with
  | mutex m => m ∉ a.locked ∧ b = a.acquire m
  | backoff => b = a
  | pause z => .engine ∉ a.locked ∧ a.pausedFor z.who = false ∧ Rouses (a.acquire .engine) b
  | goal g z => .engine ∉ a.locked ∧ a.pausedFor z.who = false ∧ Settles g z a b
  | pauseInGoal g z => .engine ∉ a.locked ∧ a.pausedFor z.who = false ∧ Settles g z a b

theorem Resumes.rouses (h : w.Resumes a b) (hz : w.sleeper? = some z) :
    .engine ∉ a.locked ∧ a.pausedFor z.who = false ∧ Rouses (a.acquire .engine) b := by
  cases w with
  | mutex | backoff => cases hz
  | pause =>
    cases hz
    exact h
  | goal g | pauseInGoal g =>
    cases hz
    obtain ⟨free, going, c, rouses, -, rfl⟩ := h
    exact ⟨free, going, rouses.trans (rouses_running c z.segment g.kind)⟩

theorem Resumes.alike (h : w.Resumes a b) : Alike a b := by
  cases w with
  | mutex m =>
    rw [h.2]
    exact alike_acquire a m
  | backoff =>
    rw [show b = a from h]
    exact .refl a
  | pause | goal | pauseInGoal => exact (alike_acquire a .engine).trans (h.rouses rfl).2.2.alike

end Wait

structure Stance.Meets (σ : Stance) (e : Engine) (w : Wait) (a b : Engine) : Prop where
  inv : a.Inv
  abides : Abides σ e a
  resumes : w.Resumes a b
  fits : (σ.woken w a).Fits b

structure Stance.Returns (σ : Stance) (e a : Engine) : Prop where
  inv : a.Inv
  ages : Ages e a
  fits : (Stance.start σ.control σ.threads a).Fits a

variable {α β : Type}

/-- The course of a call does acts only, and ends within `Q`. -/
inductive Walks (Q : Stance → Post α) : Stance → Engine → Course Engine α → Prop
  | done {σ σ' : Stance} {e e' : Engine} {a : α} (acts : Acts σ e σ' e') (post : Q σ' (.ok a) e') :
      Walks Q σ e (.done a e')
  | raised {σ σ' : Stance} {e e' : Engine} {v : Raise} (acts : Acts σ e σ' e')
      (post : Q σ' (.error v) e') :
      Walks Q σ e (.raised v e')
  | waiting {σ σ1 σ' : Stance} {e e1 e' : Engine} {w : Wait} {resume : Engine → Course Engine α}
      (acts : Acts σ e σ1 e1) (rests : Rests σ1 e1 w σ' e')
      (next : ∀ a b, (σ'.follow e').Meets e' w a b →
        Walks Q ((σ'.follow e').woken w a) b (resume b)) :
      Walks Q σ e (.waiting w e' resume)
  | calling {σ σ' : Stance} {e e' : Engine} {c : Callback}
      {resume : Except Raise Unit → Engine → Course Engine α}
      (acts : Acts σ e σ' e') (bare : σ'.held = [] ∧ σ'.seeking = false ∧ σ'.pausing = none)
      (next : ∀ r a, (σ'.follow e').Returns e' a →
        Walks Q (.start σ'.control (σ'.follow e').threads a) a (resume r a)) :
      Walks Q σ e (.calling c e' resume)

namespace Walks
variable {Q Q' : Stance → Post α} {P : Stance → Post β} {σ1 : Stance} {e1 : Engine}
  {c : Course Engine α}

theorem mono (h : Walks Q σ e c) (hQ : ∀ σ out e, Q σ out e → Q' σ out e) : Walks Q' σ e c := by
  induction h with
  | done acts post => exact .done acts (hQ _ _ _ post)
  | raised acts post => exact .raised acts (hQ _ _ _ post)
  | waiting acts rests _ ih => exact .waiting acts rests ih
  | calling acts bare _ ih => exact .calling acts bare ih

theorem prepend (before : Acts σ e σ1 e1) (h : Walks Q σ1 e1 c) : Walks Q σ e c := by
  cases h with
  | done acts post => exact .done (before.trans acts) post
  | raised acts post => exact .raised (before.trans acts) post
  | waiting acts rests next => exact .waiting (before.trans acts) rests next
  | calling acts bare next => exact .calling (before.trans acts) bare next

theorem bindOutcome {f : Except Raise α → Engine → Course Engine β}
    (h : Walks (fun σ out e => Walks P σ e (f out e)) σ e c) : Walks P σ e (c.bindOutcome f) := by
  induction h with
  | done acts next | raised acts next => exact next.prepend acts
  | waiting acts rests _ ih => exact .waiting acts rests ih
  | calling acts bare _ ih => exact .calling acts bare ih

protected theorem bind {f : α → Engine → Course Engine β} (h : Walks (fun σ out e => match out with
      | .ok a => Walks P σ e (f a e)
      | .error v => P σ (.error v) e) σ e c) : Walks P σ e (c.bind f) := by
  rw [Course.bind_eq_bindOutcome]
  refine bindOutcome (h.mono fun σ out e next => ?_)
  cases out with
  | ok => exact next
  | error => exact .raised .refl next

theorem finishes {A : α → Engine → Prop} {R : Raise → Engine → Prop} (h : Walks Q σ e c)
    (ends : c.Finishes A R) :
    Walks (fun τ out b => Q τ out b ∧ (∀ a, out = .ok a → A a b) ∧ ∀ v, out = .error v →
      R v b) σ e c := by
  cases h with
  | done acts post => exact .done acts ⟨post, fun a is => by cases is; exact ends, nofun⟩
  | raised acts post => exact .raised acts ⟨post, nofun, fun v is => by cases is; exact ends⟩
  | waiting | calling => exact ends.elim

theorem ok {a : α} (h : Q σ (.ok a) e) : Walks Q σ e (.done a e) := .done .refl h

theorem error {v : Raise} (h : Q σ (.error v) e) : Walks Q σ e (.raised v e : Course Engine α) :=
  .raised .refl h

end Walks

namespace Stance
variable {t : ThreadId} {base : List Mutex}

structure Outside (σ : Stance) (base : List Mutex) (e : Engine) : Prop where
  held : σ.held = base
  calm : σ.seeking = false
  idle : σ.pausing = none
  fits : σ.Fits e
  locks : ∀ t, .stack t ∈ e.locked → .engine ∈ e.locked

structure Inside (σ : Stance) (base : List Mutex) (p : Option Caller) (e : Engine) : Prop where
  held : σ.held = .engine :: base
  calm : σ.seeking = false
  pausing : σ.pausing = p
  fits : σ.Fits e
  loose : ∀ t, .stack t ∉ e.locked

theorem Outside.acquire (h : σ.Outside base e) (free : .engine ∉ e.locked) :
    (σ.take .engine).Inside base none (e.acquire .engine) where
  held := by rw [take, h.held]
  calm := h.calm
  pausing := h.idle
  fits := (Acts.single (.lock .engine free)).fits h.fits
  loose t taken := by
    obtain heq | taken := List.mem_cons.1 taken
    · cases heq
    · exact free (h.locks t taken)

theorem Inside.giveUp (h : σ.Inside base none e) :
    (σ.drop .engine).Outside base (e.giveUp .engine) where
  held := by simp [h.held]
  calm := h.calm
  idle := h.pausing
  fits := (Acts.single (.unlock .engine (by rw [h.held]; exact (.head _)))).fits h.fits
  locks t taken := absurd (List.mem_of_mem_erase taken) (h.loose t)

theorem Outside.acts (h : σ.Outside base e) (acts : Acts σ e σ e') (locked : e'.locked = e.locked) :
    σ.Outside base e' :=
  ⟨h.held, h.calm, h.idle, acts.fits h.fits, by rw [locked]; exact h.locks⟩

theorem Inside.acts {p : Option Caller} (h : σ.Inside base p e) (acts : Acts σ e σ e')
    (locked : e'.locked = e.locked) :
    σ.Inside base p e' :=
  ⟨h.held, h.calm, h.pausing, acts.fits h.fits, by rw [locked]; exact h.loose⟩

end Stance

structure Sleeps (σ : Stance) (e : Engine) (z : Sleeper) (σ' : Stance) (e' : Engine) : Prop where
  own : σ.For e z.who
  segment : z.segment = e.segmentOf z.who
  held : .engine ∈ σ.held
  stance : σ' = { σ.drop .engine with seeking := σ'.seeking }
  engine : ∃ c, e' = (e.rest z.who z.segment c).1
  ticket : z.ticket = e.tickets

theorem Rests.sleeps {z : Sleeper} (h : Rests σ e w σ' e') (hz : w.sleeper? = some z) :
    Sleeps σ e z σ' e' := by
  have ticket : ∀ who k c, (e.rest who k c).2 = ⟨who, k, e.tickets⟩ :=
    fun who k c => by cases k <;> rfl
  cases h with
  | mutex => cases hz
  | pause who own held | goal g who own held | pauseInGoal g who own held =>
    cases hz
    rw [ticket]
    exact ⟨own, rfl, held, rfl, ⟨_, rfl⟩, rfl⟩

theorem Rests.alike (h : Rests σ e w σ' e') : Alike e e' := by
  cases h with
  | mutex => exact .refl e
  | pause | goal | pauseInGoal => exact (rest_spec ..).1.alike

theorem Walks.keeps {Q : Stance → Post α} {c : Course Engine α}
    (h : Walks Q σ e c) : Walks (fun τ out b => Q τ out b ∧ τ.control = σ.control ∧
      ∀ t, σ.Tracks e t → τ.Tracks b t) σ e c := by
  induction h with
  | done h post => exact .done h ⟨post, h.same.1, fun _ tracks => tracks.acts h⟩
  | raised h post => exact .raised h ⟨post, h.same.1, fun _ tracks => tracks.acts h⟩
  | @waiting σ σ1 σ' e e1 e' w resume h rests _ ih =>
    have same : σ'.control = σ1.control ∧ σ'.threads = σ1.threads ∧ σ'.known = σ1.known := by
      cases rests <;> exact ⟨rfl, rfl, rfl⟩
    refine .waiting h rests fun a b meets => (ih a b meets).mono fun τ out b' post =>
      ⟨post.1, ?_, fun t ht => ?_⟩
    · exact post.2.1.trans (same.1.trans h.same.1)
    · have tracks := (ht.acts h).congr same.2.1 same.2.2
        (Nat.le_of_eq (by rw [rests.alike.threads]))
      refine post.2.2 t ⟨.inl tracks.follows, tracks.known.trans_le ?_⟩
      exact meets.abides.ages.threads_size.trans
        (Nat.le_of_eq (by rw [meets.resumes.alike.threads]))
  | calling h bare _ ih =>
    refine .calling h bare fun r a returns => (ih r a returns).mono fun τ out b post =>
      ⟨post.1, ?_, fun t ht => ?_⟩
    · exact post.2.1.trans h.same.1
    · have tracks := ht.acts h
      exact post.2.2 t ⟨.inl tracks.follows, tracks.known.trans_le returns.ages.threads_size⟩

theorem Walks.past {Q : Stance → Post α} {c : Course Engine α} {x : TxnId}
    {phase : Phase} (h : Walks Q σ e c) (past : e.Ended x phase) :
    Walks (fun τ out b => Q τ out b ∧ b.Ended x phase) σ e c := by
  have keeps : ∀ {σ σ' : Stance} {e e' : Engine}, Acts σ e σ' e' → e.Ended x phase →
      e'.Ended x phase := by
    intro σ σ' e e' acts past
    obtain ⟨known, same⟩ := acts.tidy.past x past.1 (by rw [past.2.1, past.2.2])
    exact ⟨known, same.trans past.2.1, past.2.2⟩
  induction h with
  | done acts post => exact .done acts ⟨post, keeps acts past⟩
  | raised acts post => exact .raised acts ⟨post, keeps acts past⟩
  | waiting acts rests _ ih =>
    refine .waiting acts rests fun a b meets => ih a b meets ?_
    have ages := rests.alike.ages.trans (meets.abides.ages.trans meets.resumes.alike.ages)
    exact ages.keeps (keeps acts past)
  | calling acts bare _ ih =>
    exact .calling acts bare fun r a returns =>
      ih r a returns (returns.ages.keeps (keeps acts past))

section Rest

theorem Engine.rest_foreign (e : Engine) (who : Caller) (k : Option SegmentId) (c : Condition) :
    (e.rest who k c).1.foreign = e.foreign := by
  cases k <;> rfl

theorem Engine.rest_pauseMode (e : Engine) (who : Caller) (k : Option SegmentId) (c : Condition) :
    (e.rest who k c).1.pauseMode = e.pauseMode := by
  cases k <;> rfl

end Rest

namespace Engine
variable {τ : Stance} {t : ThreadId} {x : TxnId}

/-- The call has come from `e` to `e'` without touching its thread, others having gone on meanwhile.
-/
structure Since (σ : Stance) (e : Engine) (σ' : Stance) (e' : Engine) : Prop where
  control : σ'.control = σ.control
  tracks : ∀ t, σ.Tracks e t → σ'.Tracks e' t
  thread : ∀ t, σ.Tracks e t → e'.thread t = e.thread t
  txn : ∀ t x, σ.Tracks e t → (e.thread t).txn = some x → (e.txn x).Blanks (e'.txn x)
  foreign : ∀ c, σ.control = some c → e'.foreign.lookup c = e.foreign.lookup c
  pauseMode : ∀ who, σ.pausing = some who → e'.pauseMode = e.pauseMode
  ages : Ages e e'
  core : e.Core → e'.Core

theorem Since.trans {σ'' : Stance} (h : Since σ e σ' e') (h' : Since σ' e' σ'' e'')
    (pausing : ∀ who, σ.pausing = some who → σ'.pausing = some who) : Since σ e σ'' e'' where
  control := h'.control.trans h.control
  tracks t ht := h'.tracks t (h.tracks t ht)
  thread t ht := (h'.thread t (h.tracks t ht)).trans (h.thread t ht)
  txn t x ht hx := (h.txn t x ht hx).trans (h'.txn t x (h.tracks t ht) (by rwa [h.thread t ht]))
  foreign c hc := (h'.foreign c (h.control.trans hc)).trans (h.foreign c hc)
  pauseMode who hw := (h'.pauseMode who (pausing who hw)).trans (h.pauseMode who hw)
  ages := h.ages.trans h'.ages
  core := h'.core ∘ h.core

theorem Alike.since (h : Alike e e') (foreign : e'.foreign = e.foreign)
    (pauseMode : σ.pausing = none ∨ e'.pauseMode = e.pauseMode) (control : σ'.control = σ.control)
    (threads : σ'.threads = σ.threads) (known : σ'.known = σ.known) : Since σ e σ' e' where
  control := control
  tracks t ht := ht.congr threads known (Nat.le_of_eq (by rw [h.threads]))
  thread t _ := h.thread t
  txn t x _ _ := by rw [h.txn]; exact .refl _
  foreign c _ := by rw [foreign]
  pauseMode who hw := pauseMode.resolve_left (by rw [hw]; exact nofun)
  ages := h.ages
  core ok := ok.alike h

theorem Since.refl (σ : Stance) (e : Engine) : Since σ e σ e :=
  (Alike.refl e).since rfl (.inr rfl) rfl rfl rfl

theorem Since.of_meets (meets : (σ'.follow e').Meets e' w a b) (alike : Alike e e')
    (foreign : e'.foreign = e.foreign) (pauseMode : e'.pauseMode = e.pauseMode)
    (control : σ'.control = σ.control) (threads : σ'.threads = σ.threads)
    (known : σ'.known = σ.known) (pausing : σ'.pausing = σ.pausing) (after : Alike a b)
    (foreign' : b.foreign = a.foreign) (pauseMode' : b.pauseMode = a.pauseMode) :
    Since σ e ((σ'.follow e').woken w a) b := by
  have later : e.threads.size ≤ b.threads.size := by
    rw [← alike.threads, after.threads]
    exact meets.abides.ages.threads_size
  have own : ∀ t, σ.Tracks e t → t ∈ (σ'.follow e').threads := fun t ht =>
    (ht.congr threads known (Nat.le_of_eq (by rw [alike.threads]))).follows
  exact
    { control := control
      tracks := fun t ht => ⟨.inl (own t ht), ht.known.trans_le later⟩
      thread := fun t ht => by rw [after.thread, meets.abides.thread t (own t ht), alike.thread]
      txn := fun t x ht hx => by
        rw [after.txn, ← alike.txn]
        exact meets.abides.txn t x (own t ht) (by rwa [alike.thread])
      foreign := fun c hc => by
        rw [foreign', meets.abides.foreign c (control.trans hc), foreign]
      pauseMode := fun who hw => by
        rw [pauseMode', meets.abides.pauseMode who (pausing.trans hw), pauseMode]
      ages := alike.ages.trans (meets.abides.ages.trans after.ages)
      core := fun _ => meets.inv.core.alike after }

end Engine

section Combinators
variable {e1 : Engine} {z : Sleeper} {base : List Mutex} {p : Option Caller} {P : Stance → Post β}

theorem walks_rest {f : Unit → Engine → Course Engine β} (h : σ.Inside base p e)
    (before : Acts σ e σ e1) (alike : Alike e e1) (foreign : e1.foreign = e.foreign)
    (pauseMode : e1.pauseMode = e.pauseMode) (rests : Rests σ e1 w σ' e') (hz : w.sleeper? = some z)
    (next : ∀ τ a b, Since σ e τ b → τ.held = .engine :: base → τ.pausing = p →
      τ.seeking = σ'.seeking → τ.Fits b →
      (∀ t, .stack t ∉ b.locked) → b.pausedFor z.who = false → w.Resumes a b →
      (σ.For e z.who → z.segment = b.segmentOf z.who) → (∀ k, b.WeakOk k) → Walks P τ b (f () b)) :
    Walks P σ e (.waiting w e' fun b => f () b) := by
  have sleeps := rests.sleeps hz
  obtain ⟨c, rested⟩ := sleeps.engine
  have alike' : Alike e e' := by
    rw [rested]
    exact alike.trans (rest_spec e1 z.who z.segment c).1.alike
  have foreign' : e'.foreign = e.foreign := by
    rw [rested, rest_foreign, foreign]
  have pauseMode' : e'.pauseMode = e.pauseMode := by
    rw [rested, rest_pauseMode, pauseMode]
  have same : σ'.control = σ.control ∧ σ'.threads = σ.threads ∧ σ'.known = σ.known ∧
      σ'.held = base ∧ σ'.pausing = p := by
    rw [sleeps.stance]
    exact ⟨rfl, rfl, rfl, by simp [h.held], h.pausing⟩
  refine .waiting before rests fun a b meets => ?_
  obtain ⟨engine, free, rouses⟩ := meets.resumes.rouses hz
  have after := (alike_acquire a .engine).trans rouses.alike
  have since : Since σ e ((σ'.follow e').woken w a) b :=
    .of_meets meets alike' foreign' pauseMode' same.1 same.2.1 same.2.2.1
      (same.2.2.2.2.trans h.pausing.symm) after rouses.foreign
      rouses.pauseMode
  have held : ((σ'.follow e').woken w a).held = .engine :: base := by
    cases w with
    | mutex | backoff => cases hz
    | pause | goal | pauseInGoal => simp [Stance.woken, same.2.2.2.1]
  refine next _ a b since held same.2.2.2.2 rfl meets.fits ?_ ?_ meets.resumes ?_ fun k =>
    (meets.inv.weak engine k).alike after
  · intro t taken
    rw [rouses.locked] at taken
    obtain heq | taken := List.mem_cons.1 taken
    · cases heq
    · exact engine (meets.inv.locks t taken)
  · rwa [rouses.pausedFor]
  · intro mine
    rw [sleeps.segment]
    revert mine
    cases z.who with
    | thread t =>
      intro tracks
      rw [segmentOf, segmentOf, since.thread t tracks, alike.thread]
    | system | outside => exact fun _ => rfl

theorem Engine.note_still (e : Engine) (kind : Event.Kind) (k : Option SegmentId)
    (fields : List (String × Event.Value)) :
    Silent e (e.note kind k fields) := { Silent.refl _ with }

theorem acts_note (kind : Event.Kind) (k : Option SegmentId)
    (fields : List (String × Event.Value)) :
    Acts σ e σ (e.note kind k fields) :=
  .single (.idle (note_still e kind k fields).toStill (alike_note e kind k fields).sameButStacks
    (note_still e kind k fields).tidy)

variable {f : Unit → EngineCall β}

theorem walks_park (h : σ.Inside base none e) (mine : σ.For e who)
    (next : ∀ τ b, Since σ e τ b → τ.Inside base none b → b.pausedFor who = false →
      ((∀ k, e.WeakOk k) → ∀ k, b.WeakOk k) → Walks P τ b (f () b)) :
    Walks P σ e ((park who >>= f) e) := by
  rw [bind_run, park]
  split
  · next paused =>
    refine walks_rest h (acts_note .waitSyncPause (e.segmentOf who)
      [("mode", .text e.pauseMode.toText)]) (alike_note ..) rfl rfl
      (.pause who (mine.congr rfl rfl le_rfl)
        (by rw [h.held]; exact (.head _)) h.calm h.pausing paused) rfl ?_
    intro τ a b since held pausing seeking fits loose free _ _ weak
    exact next τ b since ⟨held, seeking.trans h.calm, pausing, fits, loose⟩ free fun _ => weak
  · next free => exact next σ e (.refl σ e) h (Bool.not_eq_true _ ▸ free) id

theorem Goal.holds_running {k : Option SegmentId} {kind : Event.Kind}
    (seats : ((c.setStanding k .running).noteDone kind k).Seats)
    (own : k = ((c.setStanding k .running).noteDone kind k).segmentOf who)
    (holds : g.holds who c = true) :
    g.holds who ((c.setStanding k .running).noteDone kind k) = true := by
  have alike := (rouses_running c k kind).alike
  cases g with
  | noInevitable =>
    cases who <;> exact (congrArg Option.isNone alike.inevitable).trans holds
  | freeSegment =>
    cases who with
    | thread t =>
      change (pickSegment? _ t).isSome = true
      rwa [pickSegment?_alike alike]
    | system | outside => rfl
  | othersStopped =>
    replace holds : ∀ k t, (c.segment k).owner = some t → .thread t = who ∨
        (c.segment k).standing ≠ .running :=
      othersStopped_iff.1 (by cases who <;> exact holds)
    have stopped : ((c.setStanding k .running).noteDone kind k).othersStopped who = true := by
      rw [othersStopped_iff]
      intro j t owner
      cases k with
      | none => exact holds j t owner
      | some k =>
        obtain ⟨u, rfl, seat⟩ := segmentOf_some own.symm
        have inside : k < c.segments.size := by
          rw [← alike.segments_size]
          exact seats.segment_lt seat
        have segment : ((c.setStanding (some k) .running).noteDone kind (some k)).segment j = _ :=
          segment_setStanding inside .running j
        by_cases hj : k = j
        · subst hj
          rw [seats.holds u k seat] at owner
          exact .inl (congrArg _ (Option.some.inj owner).symm)
        · rw [segment, if_neg hj] at owner ⊢
          exact holds j t owner
    cases who <;> exact stopped

theorem walks_await (h : σ.Inside base p e) (apart : .bracket ∉ base) (mine : σ.For e who)
    (going : e.pausedFor who = false) (fits : g.Fits σ who e)
    (now : g.holds who e = true → Walks P σ e (f () e))
    (next : ∀ τ b, Since σ e τ b → τ.held = .engine :: base → τ.pausing = p →
      τ.seeking = decide (g = .freeSegment) →
      τ.Fits b → (∀ t, .stack t ∉ b.locked) → b.pausedFor who = false → g.holds who b = true →
      Walks P τ b (f () b)) : Walks P σ e ((await who g >>= f) e) := by
  rw [bind_run, await]
  split
  · next holds => exact now holds
  · next unmet =>
    have fits' : g.Fits σ who (e.note g.kind (e.segmentOf who) []) := by
      cases g <;> exact fits
    have unmet' : g.holds who (e.note g.kind (e.segmentOf who) []) = false := by
      cases g <;> cases who <;> exact Bool.not_eq_true _ ▸ unmet
    refine walks_rest h (acts_note g.kind (e.segmentOf who) []) (alike_note ..) rfl rfl
      (.goal g who (mine.congr rfl rfl le_rfl) (by rw [h.held]; exact (.head _))
        (by rw [h.held]; simpa using apart)
        (by rw [h.calm]; rintro ⟨⟩) going unmet' fits') rfl ?_
    intro τ a b since held pausing seeking fits loose free woken own _
    refine next τ b since held pausing seeking fits loose free ?_
    obtain ⟨-, -, c, -, holds, rfl⟩ := woken
    exact Goal.holds_running fits.seats (own mine) holds

theorem walks_lock (calm : σ.seeking = false) (idle : m ∈ e.locked → σ.pausing = none)
    (bare : m = .engine ∧ .engine ∉ σ.held ∨ σ.held = [])
    (stuck : m ∈ e.locked → .engine ∈ e.locked)
    (next : m ∉ e.locked → Walks P (σ.take m) (e.acquire m) (f () (e.acquire m))) :
    Walks P σ e ((lock m >>= f) e) := by
  by_cases taken : m ∈ e.locked
  · rw [bind_run, lock_taken taken]
    refine .waiting .refl (.mutex m taken calm (idle taken) bare) fun a b meets => ?_
    exact absurd (meets.abides.locks (stuck taken) taken) meets.resumes.1
  · rw [bind_done (lock_free taken)]
    exact .prepend (.single (.lock m taken)) (next taken)

theorem walks_engine (h : σ.Outside base e) (apart : .engine ∉ base)
    (next : .engine ∉ e.locked → (σ.take .engine).Inside base none (e.acquire .engine) →
      Walks P (σ.take .engine) (e.acquire .engine) (f () (e.acquire .engine))) :
      Walks P σ e ((lock .engine >>= f) e) :=
  walks_lock h.calm (fun _ => h.idle) (.inl ⟨rfl, by rwa [h.held]⟩) id fun free =>
    next free (h.acquire free)

theorem walks_stack {t : ThreadId} (h : σ.Outside [] e)
    (next : .stack t ∉ e.locked →
      Walks P (σ.take (.stack t)) (e.acquire (.stack t)) (f () (e.acquire (.stack t)))) :
    Walks P σ e ((lock (.stack t) >>= f) e) :=
  walks_lock h.calm (fun _ => h.idle) (.inr h.held) (h.locks t) next

theorem walks_bracket (h : σ.Outside [] e)
    (next : ∀ τ b, Since σ e τ b → τ.Outside [.bracket] b → Walks P τ b (f () b)) :
    Walks P σ e ((lock .bracket >>= f) e) := by
  by_cases taken : .bracket ∈ e.locked
  · rw [bind_run, lock_taken taken]
    refine .waiting .refl (.mutex .bracket taken h.calm h.idle (.inr h.held)) fun a b meets => ?_
    obtain rfl := meets.resumes.2
    refine next _ _ (.of_meets meets (.refl e) rfl rfl rfl rfl rfl rfl
      (alike_acquire a .bracket) rfl rfl) ⟨?_, h.calm, h.idle, meets.fits, ?_⟩
    · simp [Stance.woken, h.held]
    · intro t stack
      obtain heq | stack := List.mem_cons.1 stack
      · cases heq
      · exact .tail _ (meets.inv.locks t stack)
  · rw [bind_done (lock_free taken)]
    have act : Act σ e (σ.take .bracket) (e.acquire .bracket) := .lock .bracket taken
    refine .prepend (.single act)
      (next _ _ ((alike_acquire e .bracket).since rfl (.inr rfl) rfl rfl rfl) ?_)
    refine ⟨by rw [Stance.take, h.held], h.calm, h.idle, (Acts.single act).fits h.fits,
      fun t stack => ?_⟩
    obtain heq | stack := List.mem_cons.1 stack
    · cases heq
    · exact .tail _ (h.locks t stack)

theorem walks_unlock (h : σ.Inside base none e)
    (next : (σ.drop .engine).Outside base (e.giveUp .engine) →
      Walks P (σ.drop .engine) (e.giveUp .engine) (f () (e.giveUp .engine))) :
    Walks P σ e ((liftM (unlock .engine) >>= f) e) := by
  rw [lift_done (unlock_run e .engine)]
  exact Walks.prepend (.single (.unlock .engine (by rw [h.held]; exact (.head _)))) (next h.giveUp)

theorem walks_ending {x : EngineCall β}
    (h : Walks (fun τ out b => m ∈ τ.held ∧ P (τ.drop m) out (b.giveUp m)) σ e (x e)) :
    Walks P σ e (x.ending (unlock m) e) := by
  refine .bindOutcome (h.mono fun τ out b post => ?_)
  cases out with
  | ok => exact .done (.single (.unlock m post.1)) post.2
  | error => exact .raised (.single (.unlock m post.1)) post.2

theorem walks_work {x : EngineM α} {f : α → EngineCall β} (mine : σ.Mine who) (going : e.Going who)
    (quiet : Quiet x)
    (ok : ∀ a e', x e = .ok a e' → Silent e e' → Acts σ e σ e' → Walks P σ e' (f a e'))
    (error : ∀ v e', v.Fatal → Silent e e' → Acts σ e σ e' → P σ (.error v) e') :
    Walks P σ e ((liftM x >>= f) e) := by
  have ends := quiet.ends e
  unfold Ends at ends
  split at ends
  · next a e' run =>
    have acts : Acts σ e σ e' := .single (.work who mine going ends.toStill ends.tidy)
    rw [lift_done run]
    exact .prepend acts (ok a e' run ends acts)
  · next v e' run =>
    have acts : Acts σ e σ e' := .single (.work who mine going ends.2.toStill ends.2.tidy)
    rw [lift_bind_error run]
    exact .raised acts (error v e' ends.1 ends.2 acts)

theorem walks_look {x : EngineM α} {f : α → EngineCall β} (looks : Looks Raise.Fatal x)
    (ok : ∀ a, x e = .ok a e → Walks P σ e (f a e))
    (error : ∀ v, v.Fatal → x e = .error v e → P σ (.error v) e) :
    Walks P σ e ((liftM x >>= f) e) := by
  have ends := looks.ends e
  unfold Ends at ends
  split at ends
  · next a e' run =>
    subst ends
    rw [lift_done run]
    exact ok a run
  · next v e' run =>
    obtain ⟨fatal, rfl⟩ := ends
    rw [lift_bind_error run]
    exact .error (error v fatal run)

end Combinators
end TxHeap
