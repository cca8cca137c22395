import TxHeap.Proofs.Machine.Operation
import TxHeap.Proofs.Sync.Waking

/-! An engine and all its calls that have not ended. At each step one of them goes on, until it
waits, calls back or ends; a thread or foreign caller whose call waits does nothing else. What calls
hold and wait for fits together in every state. -/

namespace TxHeap
open Engine

/-- The mutexes of a call that has come from `e` to `e'`: what it held and has not given up, and
what has been locked since. -/
def Engine.kept (held : List Mutex) (e e' : Engine) : List Mutex :=
  e'.locked.filter fun m => m ∈ held ∨ m ∉ e.locked

structure Task where
  op : Operation
  threads : List ThreadId
  held : List Mutex
  course : Course Engine op.Answer

namespace Task

def wait? (p : Task) : Option Wait :=
  match p.course with
  | .waiting w _ _ => some w
  | _ => none

def Waits (p : Task) : Prop := p.wait?.isSome

instance (p : Task) : Decidable p.Waits := inferInstanceAs (Decidable (_ = true))

def sleeper? (p : Task) : Option Sleeper := p.wait?.bind (·.sleeper?)

def pausing (p : Task) : Option Caller := p.wait?.bind (·.pausing)

theorem waits_of_pausing {p : Task} {who : Caller} (asks : p.pausing = some who) : p.Waits := by
  obtain ⟨w, waits, -⟩ := Option.bind_eq_some_iff.1 asks
  rw [Waits, waits]
  rfl

def seeker? (p : Task) : Option Nat :=
  p.wait?.bind fun w => if w.seeking then w.sleeper?.map (·.ticket) else none

theorem seeker_of_wait {p : Task} {w : Wait} (h : p.wait? = some w) :
    p.seeker?.toList.length = w.seeking.toNat := by
  rw [seeker?, h]
  cases w with
  | mutex | backoff | pause => rfl
  | goal g | pauseInGoal g => cases g <;> rfl

theorem seekers_cons (p : Task) (others : List Task) :
    ((p :: others).filterMap seeker?).length =
    (others.filterMap seeker?).length + p.seeker?.toList.length := by
  rw [List.filterMap_cons]
  cases p.seeker? <;> rfl

structure Apart (p q : Task) : Prop where
  threads : ∀ t ∈ p.threads, t ∉ q.threads
  control : ∀ c, p.op.control = some c → q.op.control ≠ some c
  held : ∀ m ∈ p.held, m ∉ q.held
  pausing : p.pausing = none ∨ q.pausing = none
  tickets : ∀ z y, p.sleeper? = some z → q.sleeper? = some y → z.ticket ≠ y.ticket

theorem Apart.symm {p q : Task} (h : p.Apart q) : q.Apart p where
  threads t hq hp := h.threads t hp hq
  control c hq hp := h.control c hp hq
  held m hq hp := h.held m hp hq
  pausing := h.pausing.symm
  tickets z y hz hy same := h.tickets y z hy hz same.symm

end Task

structure Exit where
  op : Operation
  threads : List ThreadId
  held : List Mutex
  outcome : Except Raise op.Answer

inductive Choice
  | start (op : Operation)
  /-- The `i`th call looks whether it can go on. -/
  | wake (i : Nat)
  /-- The callback that runs for the `i`th call returns. -/
  | answer (i : Nat) (r : Except Raise Unit)

structure System where
  engine : Engine
  tasks : List Task := []

namespace System

def advance (e : Engine) (others : List Task) (p : Task) : System × Option Exit :=
  match p.course with
  | .done a e' => (⟨e', others⟩, some ⟨p.op, joined p.threads e e', kept p.held e e', .ok a⟩)
  | .raised v e' => (⟨e', others⟩, some ⟨p.op, joined p.threads e e', kept p.held e e', .error v⟩)
  | .waiting w e' resume =>
    (⟨e', ⟨p.op, joined p.threads e e', kept p.held e e', .waiting w e' resume⟩ :: others⟩, none)
  | .calling f e' resume =>
    (⟨e', ⟨p.op, joined p.threads e e', kept p.held e e', .calling f e' resume⟩ :: others⟩, none)

/-- The other calls, and the one that goes on with what it comes to, if that is possible. -/
def mover? (s : System) : Choice → Option (List Task × Task)
  | .start op => some (s.tasks, ⟨op, op.threads s.engine, [], op.call s.engine⟩)
  | .wake i =>
    match s.tasks[i]? with
    | some ⟨op, threads, held, .waiting w _ resume⟩ =>
      if w.ready s.engine then
        some (s.tasks.eraseIdx i, ⟨op, threads, held, Machine.woken w resume s.engine⟩) else none
    | _ => none
  | .answer i r =>
    match s.tasks[i]? with
    | some ⟨op, threads, held, .calling _ _ resume⟩ =>
      some (s.tasks.eraseIdx i, ⟨op, threads, held, resume r s.engine⟩)
    | _ => none

def step (s : System) (choice : Choice) : System × Option Exit :=
  match s.mover? choice with
  | some (others, p) => advance s.engine others p
  | none => (s, none)

def Free (s : System) (control : Option Nat) (threads : List ThreadId) : Prop :=
  ∀ p ∈ s.tasks, p.Waits → (∀ t ∈ p.threads, t ∉ threads) ∧
    (p.op.control.isSome → p.op.control ≠ control)

instance (s : System) (control : Option Nat) (threads : List ThreadId) :
    Decidable (s.Free control threads) :=
  inferInstanceAs (Decidable (∀ p ∈ s.tasks, _ → _ ∧ _))

/-- Who may go on: one that keeps to the rules for arguments, and none of whose calls waits. -/
def Allows (s : System) : Choice → Prop
  | .start op => op.Fit s.engine ∧ (∀ t ∈ op.threads s.engine, t < s.engine.threads.size) ∧
    s.Free op.control (op.threads s.engine)
  | .wake _ => True
  | .answer i _ => ∀ p ∈ s.tasks[i]?, s.Free p.op.control p.threads

instance (s : System) : (choice : Choice) → Decidable (s.Allows choice)
  | .start _ => inferInstanceAs (Decidable (_ ∧ _ ∧ _))
  | .wake _ => .isTrue trivial
  | .answer i _ =>
    Option.decidableForallMem (p := fun q : Task => s.Free q.op.control q.threads) (s.tasks[i]?)

def plays (s : System) (choices : List Choice) : Nat → System
  | 0 => s
  | n + 1 => ((s.plays choices n).step (choices.getD n (.wake 0))).1

end System

structure Task.Waiting (p : Task) (w : Wait) (e1 : Engine)
    (resume : Engine → Course Engine p.op.Answer) (e : Engine) : Prop where
  walks : ∃ σ : Stance, σ.control = p.op.control ∧ σ.threads = p.threads ∧
    (∀ m, m ∈ p.held ↔ m ∈ σ.held) ∧ σ.held.Nodup ∧
    σ.pausing = w.pausing ∧ σ.seeking = w.seeking ∧ Abides σ e1 e ∧
    ∀ a b, σ.Meets e1 w a b → Walks p.op.Ends (σ.woken w a) b (resume b)
  treads : ∀ a b, a.Inv → a.Roomy → Abides (.start p.op.control p.threads e1) e1 a → w.Grants a b →
    Treads p.op.control (fun threads e _ e' => Goes threads e e') p.threads a (resume b)
  real : w ≠ .backoff
  sits : ∀ z, w.sleeper? = some z → Sits p.threads w z e
  known : ∀ t ∈ p.threads, t < e.threads.size
  held : ∀ m ∈ p.held, m ∈ e.locked
  engine : .engine ∉ p.held
  bare : ∀ m, w = .mutex m → m = .engine ∨ p.held = []
  apart : w.goal? ≠ none → .bracket ∉ p.held
  asks : w.pausing ≠ none → w.condition = .safePoint

structure Task.Calling (p : Task) (e1 : Engine)
    (resume : Except Raise Unit → Engine → Course Engine p.op.Answer) (e : Engine) :
    Prop where
  walks : ∀ r a, a.Inv → Ages e1 a → (Stance.start p.op.control p.threads a).Fits a →
    Walks p.op.Ends (.start p.op.control p.threads a) a (resume r a)
  treads : ∀ r a, a.Inv → a.Roomy → Ages e1 a →
    Treads p.op.control (fun threads e _ e' => Goes threads e e') p.threads a (resume r a)
  ages : Ages e1 e
  known : ∀ t ∈ p.threads, t < e.threads.size
  held : p.held = []

def Task.Ok (p : Task) (e : Engine) : Prop :=
  match p.course with
  | .waiting w e1 resume => p.Waiting w e1 resume e
  | .calling _ e1 resume => p.Calling e1 resume e
  | _ => False

structure System.Ok (s : System) : Prop where
  inv : s.engine.Inv
  seats : s.engine.Seats
  wakeful : s.engine.Wakeful
  locked : s.engine.locked.Nodup
  tasks : ∀ p ∈ s.tasks, p.Ok s.engine
  apart : s.tasks.Pairwise fun p q => p.Waits → q.Waits → p.Apart q
  /-- Segments are running but for those with which someone sleeps. -/
  stops : ∀ k t, (s.engine.segment k).owner = some t → (s.engine.segment k).standing ≠ .running →
    ∃ p ∈ s.tasks, ∃ z, p.sleeper? = some z ∧ z.segment = some k
  asleep : ∀ i c, (i, c) ∈ s.engine.asleep → ∃ p ∈ s.tasks, ∃ z, p.sleeper? = some z ∧ z.ticket = i
  room : s.engine.seated ≠ [] →
    s.engine.vacant + s.engine.seated.length ≤ (s.tasks.filterMap Task.seeker?).length
  /-- A pause that no thread has asked for is one that a call still waits to have. -/
  paused : ∀ who, s.engine.pauser = some who → (∃ p ∈ s.tasks, p.pausing = some who) ∨
    ∃ t, who = .thread t

namespace Task.Ok
variable {p : Task} {e : Engine} {z : Sleeper} {who : Caller}

theorem sits (ok : p.Ok e) (hz : p.sleeper? = some z) :
    ∃ w, p.wait? = some w ∧ Sits p.threads w z e := by
  obtain ⟨op, threads, held, course⟩ := p
  cases course with
  | done | raised | calling => cases hz
  | waiting w => exact ⟨w, rfl, Waiting.sits ok z hz⟩

theorem known (ok : p.Ok e) : ∀ t ∈ p.threads, t < e.threads.size := by
  obtain ⟨op, threads, held, course⟩ := p
  cases course with
  | done | raised => exact ok.elim
  | waiting => exact Waiting.known ok
  | calling => exact Calling.known ok

theorem idle (ok : p.Ok e) (idle : ¬ p.Waits) : p.held = [] := by
  obtain ⟨op, threads, held, course⟩ := p
  cases course with
  | done | raised => exact ok.elim
  | waiting => exact absurd rfl idle
  | calling => exact Calling.held ok

theorem held (ok : p.Ok e) : ∀ m ∈ p.held, m ∈ e.locked ∧ m ≠ .engine := by
  obtain ⟨op, threads, held, course⟩ := p
  cases course with
  | done | raised => exact ok.elim
  | waiting => exact fun m hm => ⟨Waiting.held ok m hm, fun same => Waiting.engine ok (same ▸ hm)⟩
  | calling =>
    intro m hm
    rw [Calling.held ok] at hm
    cases hm

theorem pausing (ok : p.Ok e) (asks : p.pausing = some who) :
    e.pauser = some who ∧ ∀ t, who = .thread t → t ∈ p.threads := by
  obtain ⟨op, threads, held, course⟩ := p
  cases course with
  | done | raised | calling => cases asks
  | waiting w =>
    have sits : ∀ g z, w.goal? = some g → w.sleeper? = some z → g = .othersStopped → z.who = who →
        e.pauser = some who ∧ ∀ t, who = .thread t → t ∈ threads := by
      rintro _ z hg hz rfl rfl
      have sits := Waiting.sits ok z hz
      exact ⟨sits.suits _ hg, sits.own⟩
    cases w with
    | mutex | backoff | pause => cases asks
    | goal g z | pauseInGoal g z =>
      cases g with
      | freeSegment | noInevitable => cases asks
      | othersStopped => exact sits _ z rfl rfl rfl (Option.some.inj asks)

end Task.Ok

variable {w : Wait} {e e1 : Engine} {z : Sleeper} {control : Option Nat} {threads : List ThreadId}
  {op : Operation}
  {i : Nat} {held : List Mutex}

theorem Wait.awake_of_ready (ready : w.ready e = true) (hz : w.sleeper? = some z) :
    .engine ∉ e.locked ∧ ∀ c, (z.ticket, c) ∉ e.asleep := by
  have awake : Wait.ready.awake z.ticket e = true := by
    cases w with
    | mutex | backoff => cases hz
    | pause | goal | pauseInGoal =>
      cases hz
      exact ready
  obtain ⟨awake, free⟩ := Bool.and_eq_true_iff.1 awake
  refine ⟨by simpa [isLocked] using free, fun c asleep => ?_⟩
  simpa using List.all_eq_true.1 awake _ asleep

theorem Engine.Abides.start {σ : Stance} {e' : Engine} (h : Abides σ e e')
    (same : σ.control = control) (same' : σ.threads = threads) (e0 : Engine) :
    Abides (.start control threads e0) e e' := by
  subst same same'
  exact { h with pauseMode := nofun }

theorem treads_woken {α : Type} {resume : Engine → Course Engine α} (inv : e.Inv) (roomy : e.Roomy)
    (ready : w.ready e = true) (abides : Abides (.start control threads e1) e1 e)
    (still : ∀ w' b, w.wake e = (b, some w') → Abides (.start control threads e) e b)
    (next : ∀ a b, a.Inv → a.Roomy → Abides (.start control threads e1) e1 a → w.Grants a b →
      Treads control Going threads a (resume b)) :
    Treads control Going threads e (Machine.woken w resume e) := by
  have comes := Wait.wake_spec ready
  unfold Machine.woken
  cases run : w.wake e with
  | mk b again =>
    rw [run] at comes
    cases again with
    | none => exact next e b inv roomy abides comes
    | some w' =>
      obtain ⟨lull, locked, grants⟩ := comes
      have same : joined threads e b = threads := by
        rw [joined, lull.alike.threads]
        simp
      refine ⟨⟨0, Nat.zero_le 3, .lull (.start inv) lull (by rw [locked]; exact id)
          (inv.alike lull.alike (by rw [locked]) fun t => by rw [locked]; exact id)⟩,
        fun a d inv' roomy' abides' h => ?_⟩
      rw [same] at abides' ⊢
      exact next a d inv' roomy' ((abides.trans ((still w' b run).start rfl rfl e1)).trans
        (abides'.start rfl rfl e1)) (grants a d h)

namespace System
variable {s : System} {others : List Task} {p : Task} {σ : Stance}

structure Moves (s : System) (others : List Task) (p : Task) (σ : Stance) : Prop where
  sub : ∀ q ∈ others, q ∈ s.tasks
  back : ∀ q ∈ s.tasks, q ∈ others ∨ q.held = p.held ∧ q.pausing = σ.pausing
  pairwise : others.Pairwise fun p q => p.Waits → q.Waits → p.Apart q
  control : σ.control = p.op.control
  threads : σ.threads = p.threads
  known : σ.known = s.engine.threads.size
  held : ∀ m, m ∈ p.held ↔ m ∈ σ.held
  owns : ∀ m ∈ p.held, ∃ q ∈ s.tasks, m ∈ q.held
  holds : σ.Holds s.engine
  engine : .engine ∉ σ.held
  bare : .engine ∈ s.engine.locked → σ.held = []
  pauses : σ.Pauses s.engine
  asks : ∀ who, σ.pausing = some who → (∃ q ∈ s.tasks, q.pausing = some who) ∨
    .engine ∉ s.engine.locked ∧
    ∃ t, who = .thread t ∧ p = ⟨.release t, [t], [], (Operation.release t).call s.engine⟩
  all : ∀ t ∈ p.threads, t < s.engine.threads.size
  free : ∀ q ∈ others, q.Waits → (∀ t ∈ q.threads, t ∉ p.threads) ∧
    (∀ c, q.op.control = some c → p.op.control ≠ some c) ∧
    (∀ m ∈ q.held, m ∉ σ.held) ∧ (q.pausing = none ∨ σ.pausing = none)
  lands : Lands p.op.Ends σ s.engine p.course
  treads : Treads p.op.control (fun threads e _ e' => Goes threads e e') p.threads s.engine p.course
  stops : ∀ k t, (s.engine.segment k).owner = some t → (s.engine.segment k).standing ≠ .running →
    t ∉ p.threads →
    ∃ q ∈ others, ∃ z, q.sleeper? = some z ∧ z.segment = some k
  asleep : ∀ i c, (i, c) ∈ s.engine.asleep → ∃ q ∈ others, ∃ z, q.sleeper? = some z ∧ z.ticket = i
  room : s.engine.seated ≠ [] →
    s.engine.vacant + s.engine.seated.length ≤
      (others.filterMap Task.seeker?).length + σ.seeking.toNat

theorem Ok.sleeps (ok : s.Ok) {q : Task} (hq : q ∈ s.tasks) (hz : q.sleeper? = some z)
    {k : SegmentId} {t : ThreadId}
    (seat : (s.engine.thread t).segment = some k) (hk : z.segment = some k) :
    t ∈ q.threads ∧ q.Waits := by
  obtain ⟨w, hw, sits⟩ := (ok.tasks q hq).sits hz
  obtain ⟨u, hu, seat'⟩ := segmentOf_some (sits.segment.symm.trans hk)
  rw [ok.seats.unique seat seat']
  exact ⟨sits.own u hu, by rw [Task.Waits, hw]; rfl⟩

theorem Ok.up (ok : s.Ok) (free : s.Free control threads) :
    (Stance.start control threads s.engine).Up s.engine := by
  intro t k mine seat
  refine not_not.1 fun stopped => ?_
  obtain ⟨q, hq, z, hz, hk⟩ := ok.stops k t (ok.seats.holds t k seat) stopped
  obtain ⟨own, waits⟩ := ok.sleeps hq hz seat hk
  exact mine.elim ((free q hq waits).1 t own) (Nat.not_le_of_lt (seat_lt seat))

theorem Ok.moves_start (ok : s.Ok) (roomy : s.engine.Roomy) (allowed : s.Allows (.start op)) :
    s.Moves s.tasks ⟨op, op.threads s.engine, [], op.call s.engine⟩ (op.stance s.engine) := by
  obtain ⟨fit, known, free⟩ := allowed
  have holds : (op.stance s.engine).Holds s.engine := ⟨ok.locked, List.nodup_nil, nofun⟩
  have own : ∀ who, (op.stance s.engine).pausing = some who → s.engine.pauser = some who ∧
      .engine ∉ s.engine.locked ∧ ∃ t, who = .thread t ∧ op = .release t := by
    intro who asks
    cases op with
    | release t =>
      change (if _ then _ else _) = _ at asks
      split at asks
      · next own =>
        cases asks
        exact ⟨own.2, own.1, t, rfl, rfl⟩
      · cases asks
    | _ => cases asks
  have pauses : (op.stance s.engine).Pauses s.engine := fun who asks => (own who asks).1
  have fits : (op.stance s.engine).Fits s.engine := ⟨holds, ok.seats, ok.up free, pauses, le_rfl⟩
  exact
    { sub := fun _ => id
      back := fun _ => .inl
      pairwise := ok.apart
      control := rfl
      threads := rfl
      known := rfl
      held := fun _ => .rfl
      owns := nofun
      holds := holds
      engine := nofun
      bare := fun _ => rfl
      pauses := pauses
      asks := fun who hwho => by
        obtain ⟨-, unlocked, t, rfl, rfl⟩ := own who hwho
        exact .inr ⟨unlocked, t, rfl, rfl⟩
      all := known
      free := fun q hq waits => by
        refine ⟨(free q hq waits).1, fun c hc same => (free q hq waits).2 (by rw [hc]; rfl)
          (hc.trans same.symm),
          fun _ _ => nofun, ?_⟩
        cases asks : (op.stance s.engine).pausing with
        | none => exact .inr rfl
        | some who =>
          refine .inl (Option.eq_none_iff_forall_ne_some.2 fun who' asks' => ?_)
          obtain ⟨pauser, -, t, rfl, rfl⟩ := own who asks
          obtain ⟨pauser', own'⟩ := (ok.tasks q hq).pausing asks'
          exact (free q hq waits).1 t (own' t (Option.some.inj (pauser'.symm.trans pauser)))
            (List.mem_singleton_self t)
      lands := (op.walks known ok.inv fits fit).lands fits
      treads := op.treads known ok.inv roomy fit
      stops := fun k t owner stopped _ => ok.stops k t owner stopped
      asleep := ok.asleep
      room := ok.room }

theorem erased (here : s.tasks[i]? = some p) : (p :: s.tasks.eraseIdx i).Perm s.tasks := by
  obtain ⟨hi, rfl⟩ := List.getElem?_eq_some_iff.1 here
  exact List.getElem_cons_eraseIdx_perm hi

theorem Ok.erased (ok : s.Ok) (here : s.tasks[i]? = some p) :
    (∀ q ∈ s.tasks.eraseIdx i, q ∈ s.tasks) ∧
    (s.tasks.eraseIdx i).Pairwise (fun p q => p.Waits → q.Waits → p.Apart q) ∧
    (∀ q ∈ s.tasks.eraseIdx i, p.Waits → q.Waits → p.Apart q) ∧
    ∀ q ∈ s.tasks, q = p ∨ q ∈ s.tasks.eraseIdx i := by
  have perm := System.erased here
  have all := (perm.symm.pairwise_iff fun h hq hp => (h hp hq).symm).1 ok.apart
  exact ⟨fun q hq => perm.subset (.tail _ hq), (List.pairwise_cons.1 all).2,
    (List.pairwise_cons.1 all).1,
    fun q hq => List.mem_cons.1 (perm.symm.subset hq)⟩

theorem Ok.moves_wake (ok : s.Ok) (roomy : s.engine.Roomy)
    {resume : Engine → Course Engine op.Answer}
    (here : s.tasks[i]? = some ⟨op, threads, held, .waiting w e1 resume⟩)
    (ready : w.ready s.engine = true) :
    ∃ σ, s.Moves (s.tasks.eraseIdx i) ⟨op, threads, held, Machine.woken w resume s.engine⟩ σ := by
  obtain ⟨sub, pairwise, apart, rest⟩ := ok.erased here
  have okay := ok.tasks _ (List.mem_of_getElem? here)
  have waiting : Task.Waiting ⟨op, threads, held, .waiting w e1 resume⟩ w e1 resume s.engine := okay
  obtain ⟨τ, control, threads', held', nodup, pausing, seeking, abides, walks⟩ := waiting.walks
  let σ : Stance := { τ with known := s.engine.threads.size }
  have holds : σ.Holds s.engine := ⟨ok.locked, nodup, fun m hm => waiting.held m ((held' m).2 hm)⟩
  have pauses : σ.Pauses s.engine := fun who asks => (okay.pausing (pausing.symm.trans asks)).1
  have sits : ∀ z, w.sleeper? = some z → Sits σ.threads w z s.engine :=
    fun z hz => threads' ▸ waiting.sits z hz
  have all : ∀ t ∈ σ.threads, t < s.engine.threads.size :=
    fun t ht => waiting.known t (threads' ▸ ht)
  have unbracketed : w.goal? ≠ none → .bracket ∉ σ.held :=
    fun goal held => waiting.apart goal ((held' _).2 held)
  have up : ∀ t k, t ∈ σ.threads → (s.engine.thread t).segment = some k → w.segment? ≠ some k →
      (s.engine.segment k).standing = .running := by
    intro t k own seat other
    refine not_not.1 fun stopped => ?_
    obtain ⟨q, hq, z, hz, hk⟩ := ok.stops k t (ok.seats.holds t k seat) stopped
    obtain ⟨own', waits⟩ := ok.sleeps hq hz seat hk
    obtain rfl | hq := rest q hq
    · rw [Wait.segment?, show w.sleeper? = some z from hz] at other
      exact other hk
    · exact (apart q hq rfl waits).threads t (threads' ▸ own) own'
  refine ⟨σ, ?_⟩
  exact
    { sub := sub
      back := fun q hq => (rest q hq).symm.imp id fun same => by
        rw [same]
        exact ⟨rfl, pausing.symm⟩
      pairwise := pairwise
      control := control
      threads := threads'
      known := rfl
      held := held'
      owns := fun m hm => ⟨_, List.mem_of_getElem? here, hm⟩
      holds := holds
      engine := fun engine => waiting.engine ((held' _).2 engine)
      bare := fun taken => by
        cases w with
        | backoff => exact absurd rfl waiting.real
        | pause | goal | pauseInGoal => exact absurd taken (Wait.awake_of_ready ready rfl).1
        | mutex m =>
          obtain rfl | none := waiting.bare m rfl
          · exact absurd ready (by simpa [Wait.ready, isLocked] using taken)
          · refine List.eq_nil_iff_forall_not_mem.2 fun m' hm' => ?_
            rw [show held = [] from none] at held'
            exact List.not_mem_nil ((held' m').2 hm')
      pauses := pauses
      asks := fun who hwho => .inl ⟨_, List.mem_of_getElem? here, pausing.symm.trans hwho⟩
      all := waiting.known
      free := fun q hq waits => by
        have apart := apart q hq rfl waits
        refine ⟨apart.symm.threads, apart.symm.control,
          fun m hm hm' => apart.held m ((held' m).2 hm') hm, ?_⟩
        exact apart.pausing.symm.imp id fun idle => pausing.trans idle
      lands := by
        refine lands_woken (fun a b (meets : Stance.Meets _ e1 w a b) =>
          walks a b ⟨meets.inv, ?_, meets.resumes, meets.fits⟩) ok.inv ?_ holds ok.seats pauses
          rfl all up pausing seeking waiting.real ready sits unbracketed
        · exact { meets.abides with }
        · exact { abides with }
      treads := by
        refine treads_woken ok.inv roomy ready (abides.start control threads' e1)
          (fun w' b run => ?_) waiting.treads
        obtain ⟨b', run', -⟩ | ⟨w'', b', run', stays⟩ :=
          Wait.wake_cases rfl all pausing seeking waiting.real ready sits unbracketed
        · rw [run] at run'
          cases run'
        · rw [run] at run'
          cases run'
          exact stays.abides.start control threads' _
      stops := fun k t owner stopped other => by
        obtain ⟨q, hq, z, hz, hk⟩ := ok.stops k t owner stopped
        refine ⟨q, (rest q hq).resolve_left ?_, z, hz, hk⟩
        rintro rfl
        exact other (ok.sleeps hq hz (ok.seats.owner k t owner) hk).1
      asleep := fun i c asleep => by
        obtain ⟨q, hq, z, hz, rfl⟩ := ok.asleep i c asleep
        refine ⟨q, (rest q hq).resolve_left ?_, z, hz, rfl⟩
        rintro rfl
        exact (Wait.awake_of_ready ready hz).2 c asleep
      room := fun some => by
        refine (ok.room some).trans ?_
        rw [← ((System.erased here).filterMap Task.seeker?).length_eq, Task.seekers_cons]
        exact Nat.add_le_add_left
          ((Task.seeker_of_wait rfl).trans (congrArg Bool.toNat seeking.symm)).le _ }

theorem Ok.moves_answer (ok : s.Ok) (roomy : s.engine.Roomy) {f : Callback}
    {resume : Except Raise Unit → Engine → Course Engine op.Answer}
    (here : s.tasks[i]? = some ⟨op, threads, held, .calling f e1 resume⟩)
    (free : s.Free op.control threads) (r : Except Raise Unit) :
    s.Moves (s.tasks.eraseIdx i) ⟨op, threads, held, resume r s.engine⟩
    (.start op.control threads s.engine) := by
  obtain ⟨sub, pairwise, -, rest⟩ := ok.erased here
  have calling : Task.Calling ⟨op, threads, held, .calling f e1 resume⟩ e1 resume s.engine :=
    ok.tasks _ (List.mem_of_getElem? here)
  have holds : (Stance.start op.control threads s.engine).Holds s.engine :=
    ⟨ok.locked, List.nodup_nil, nofun⟩
  have fits : (Stance.start op.control threads s.engine).Fits s.engine :=
    ⟨holds, ok.seats, ok.up free, nofun, le_rfl⟩
  have others : ∀ q ∈ s.tasks, ∀ z, q.sleeper? = some z → q ∈ s.tasks.eraseIdx i := by
    intro q hq z hz
    refine (rest q hq).resolve_left ?_
    rintro rfl
    cases hz
  exact
    { sub := sub
      back := fun q hq => (rest q hq).symm.imp id fun same => by rw [same]; exact ⟨rfl, rfl⟩
      pairwise := pairwise
      control := rfl
      threads := rfl
      known := rfl
      held := fun m => by rw [show held = [] from calling.held]; rfl
      owns := fun m hm => ⟨_, List.mem_of_getElem? here, hm⟩
      holds := holds
      engine := nofun
      bare := fun _ => rfl
      pauses := nofun
      asks := nofun
      all := calling.known
      free := fun q hq waits =>
        have free := free q (sub q hq) waits
        ⟨free.1, fun c hc same => free.2 (by rw [hc]; rfl) (hc.trans same.symm),
          fun _ _ => nofun, .inr rfl⟩
      lands := (calling.walks r s.engine ok.inv calling.ages fits).lands fits
      treads := calling.treads r s.engine ok.inv roomy calling.ages
      stops := fun k t owner stopped _ => by
        obtain ⟨q, hq, z, hz, hk⟩ := ok.stops k t owner stopped
        exact ⟨q, others q hq z hz, z, hz, hk⟩
      asleep := fun i c asleep => by
        obtain ⟨q, hq, z, hz, same⟩ := ok.asleep i c asleep
        exact ⟨q, others q hq z hz, z, hz, same⟩
      room := fun some => by
        refine (ok.room some).trans (Nat.le_of_eq ?_)
        rw [← ((System.erased here).filterMap Task.seeker?).length_eq, Task.seekers_cons]
        rfl }

theorem Ok.moves (ok : s.Ok) (roomy : s.engine.Roomy) {choice : Choice} (allowed : s.Allows choice)
    (h : s.mover? choice = some (others, p)) : ∃ σ, s.Moves others p σ := by
  cases choice with
  | start =>
    obtain ⟨rfl, rfl⟩ := Prod.mk.inj (Option.some.inj h)
    exact ⟨_, ok.moves_start roomy allowed⟩
  | wake =>
    unfold mover? at h
    dsimp only at h
    split at h
    · next op threads held w e1 resume here =>
      split at h
      · next ready =>
        obtain ⟨rfl, rfl⟩ := Prod.mk.inj (Option.some.inj h)
        exact ok.moves_wake roomy here ready
      · cases h
    · cases h
  | answer i r =>
    unfold mover? at h
    dsimp only at h
    split at h
    · next op threads held f e1 resume here =>
      obtain ⟨rfl, rfl⟩ := Prod.mk.inj (Option.some.inj h)
      exact ⟨_, ok.moves_answer roomy here (allowed _ here) r⟩
    · cases h

end System
end TxHeap
