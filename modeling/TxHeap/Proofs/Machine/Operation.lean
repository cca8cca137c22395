import TxHeap.Proofs.Sync.Strides
import TxHeap.Proofs.Sync.Upkeep

/-! The public operations of an engine, those of foreign callers and lasting pauses included: what
each does act by act, and with which mutexes held it can end. An atomic block is a sequence of them.
-/

namespace TxHeap
open Engine

variable {op : Operation} {τ : Stance} {b : Engine}

inductive Operation
  | ask (q : Request)
  | depth (t : ThreadId)
  | isWeak (x : TxnId) (r : Ref)
  | weakTarget (x : TxnId) (r : Ref)
  /-- Stops the other threads until the pause is released. -/
  | pause (t : ThreadId) (mode : PauseMode)
  | release (t : ThreadId)
  | enter (control : Nat)
  | leave (control : Nat) (token : Token)
  | checkHeap
  | stats
  | close

namespace Operation

def Answer : Operation → Type
  | ask q => q.Answer
  | depth _ => Nat
  | isWeak .. => Bool
  | weakTarget .. => Ref
  | enter _ => ThreadId × Token
  | checkHeap => Option HeapError
  | stats => Engine.Stats
  | _ => Unit

def call : (op : Operation) → EngineCall op.Answer
  | ask q => q.call
  | depth t => TxHeap.depth t
  | isWeak x r => TxHeap.isWeak x r
  | weakTarget x r => TxHeap.weakTarget x r
  | pause t mode => withLock .engine (beginPause (.thread t) mode)
  | release t => withLock .engine (liftM (endPause (.thread t)))
  | enter control => TxHeap.enter control
  | leave control token => TxHeap.leave control token
  | checkHeap => TxHeap.checkHeap
  | stats => TxHeap.stats
  | close => TxHeap.close

def actor (e : Engine) : Operation → Actor
  | ask q => q.actor e
  | depth t => ⟨some t, none⟩
  | isWeak x _ => e.actor x
  | weakTarget x _ => e.actor x
  | pause t _ => ⟨some t, none⟩
  | release t => ⟨some t, none⟩
  | _ => ⟨none, none⟩

def control : Operation → Option Nat
  | enter c => some c
  | leave c _ => some c
  | _ => none

def threads (e : Engine) (op : Operation) : List ThreadId :=
  match op.control with
  | some c => ((e.foreign.lookup c).map (·.thread)).toList
  | none => (op.actor e).thread.toList

def Fit (e : Engine) : Operation → Prop
  | ask q => q.Fit e
  | weakTarget x r => e.Usable (e.txn x).thread r
  | _ => True

instance (e : Engine) : (op : Operation) → Decidable (op.Fit e)
  | ask q => inferInstanceAs (Decidable (q.Fit e))
  | weakTarget x r => inferInstanceAs (Decidable (e.Usable (e.txn x).thread r))
  | depth _ | isWeak .. | pause .. | release _ | enter _ | leave .. | checkHeap | stats | close =>
    .isTrue trivial

/-- How an operation begins. Whoever releases its own pause has asked for it before. -/
def stance (e : Engine) (op : Operation) : Stance :=
  { Stance.start op.control (op.threads e) e with
    pausing := match op with
      | release t =>
        if .engine ∉ e.locked ∧ e.pauser = some (.thread t) then some (.thread t) else none
      | _ => none }

/-- What holds where an operation returns: no mutex is held, a pause asked for is in effect, or
released, a transaction that has read a word runs, and one whose function failed does not. -/
def Returns (τ : Stance) (b : Engine) : Operation → Prop
  | ask (.load x _ _) => τ.Holding [] none ∧ Engaged τ x b
  | ask (.endFailed x) => τ.Holding [] none ∧ ¬ b.Active x
  | pause t mode => τ.Holding [] (some (.thread t)) ∧ b.Stopped (.thread t) mode ∧ τ.Tracks b t
  | release t => τ.Holding [] none ∧ b.pauser ≠ some (.thread t)
  | _ => τ.Holding [] none

/-- What holds where an operation raises `v`: no mutex is held, but for those that end a
transaction, or let others collect for it, and those that may find the engine closed. -/
def Raises (v : Raise) (τ : Stance) (b : Engine) : Operation → Prop
  | ask (.alloc x _) => τ.Holding [] none ∧ ¬ b.Active x ∨ Stuck x v τ b
  | ask (.allocWeak x _ _) => τ.Holding [] none ∨ Stuck x v τ b
  | ask (.commit x) => τ.Holding [] none ∧ ¬ b.Active x ∨ Stuck x v τ b
  | ask (.endFailed x) => τ.Holding [] none ∧ ¬ b.Active x ∨ Stuck x v τ b
  | ask (.begin _) =>
    v = .violation .engineClosed ∧ τ.Holding [.engine] none ∨
      v ≠ .violation .engineClosed ∧ τ.Holding [] none
  | enter c => τ.Holding [] none ∨
    v = .violation .engineClosed ∧
      (τ.Holding [.engine] none ∨ τ.Holding [.bracket] none ∧ b.foreign.lookup c = none)
  | leave .. => τ.Holding [] none ∨ ∃ x, Stuck x v τ b
  | release t => τ.Holding [] none ∧ b.pauser ≠ some (.thread t)
  | _ => τ.Holding [] none

def Ends {α : Type} (op : Operation) (τ : Stance) (out : Except Raise α) (b : Engine) : Prop :=
  match out with
  | .ok _ => op.Returns τ b
  | .error v => op.Raises v τ b

theorem Ends.holding {α : Type} {out : Except Raise α} (h : op.Ends τ out b) :
    (∃ base, τ.Holding base none) ∨
    ∃ t mode, op = .pause t mode ∧ (∃ a, out = .ok a) ∧ τ.Holding [] (some (.thread t)) := by
  have idle : ∀ {base}, τ.Holding base none → (∃ base, τ.Holding base none) ∨
      ∃ t mode, op = .pause t mode ∧ (∃ a, out = .ok a) ∧ τ.Holding [] (some (.thread t)) :=
        fun held => .inl ⟨_, held⟩
  cases out with
  | ok a =>
    cases op with
    | pause t mode => exact .inr ⟨t, mode, rfl, ⟨a, rfl⟩, h.1⟩
    | release => exact idle h.1
    | ask q =>
      cases q with
      | load | endFailed => exact idle h.1
      | _ => exact idle h
    | _ => exact idle h
  | error =>
    cases op with
    | enter => exact h.elim idle fun closed => closed.2.elim idle fun h => idle h.1
    | leave => exact h.elim idle fun ⟨_, stuck⟩ => idle stuck.holding
    | release => exact idle h.1
    | ask q =>
      cases q with
      | alloc | commit | endFailed =>
        exact h.elim (fun h => idle h.1) fun stuck => idle stuck.holding
      | allocWeak => exact h.elim idle fun stuck => idle stuck.holding
      | begin => exact h.elim (fun h => idle h.2) fun h => idle h.2
      | _ => exact idle h
    | _ => exact idle h

theorem Ends.asks {α : Type} {out : Except Raise α} {who : Caller}
    (h : op.Ends τ out b) (asks : τ.pausing = some who) :
    ∃ t mode, op = .pause t mode ∧ who = .thread t ∧ ∃ a, out = .ok a := by
  obtain ⟨_, held⟩ | ⟨t, mode, is, done, held⟩ := h.holding
  · cases asks.symm.trans held.pausing
  · exact ⟨t, mode, is, Option.some.inj (asks.symm.trans held.pausing), done⟩

theorem Ends.calm {α : Type} {out : Except Raise α} (h : op.Ends τ out b) : τ.seeking = false := by
  obtain ⟨_, held⟩ | ⟨_, _, _, _, held⟩ := h.holding
  · exact held.calm
  · exact held.calm

variable {e : Engine}

section Walks
variable (known : ∀ t ∈ op.threads e, t < e.threads.size)
include known

theorem tracks {t : ThreadId} (mine : t ∈ op.threads e) : (op.stance e).Tracks e t :=
  ⟨.inl mine, known t mine⟩

theorem tracks_foreign {c : Nat} (control : op.control = some c) (f : Foreign)
    (found : e.foreign.lookup c = some f) :
    (op.stance e).Tracks e f.thread := by
  refine tracks known ?_
  rw [threads, control]
  simp [found]

variable (inv : e.Inv) (fits : (op.stance e).Fits e)
include inv fits

theorem walks (fit : op.Fit e) : Walks op.Ends (op.stance e) e (op.call e) := by
  have outside : (op.stance e).pausing = none → (op.stance e).Outside [] e :=
    fun idle => ⟨rfl, rfl, idle, fits, inv.locks⟩
  have tracks : ∀ {t}, t ∈ op.threads e → (op.stance e).Tracks e t := fun mine => tracks known mine
  cases op with
  | ask q =>
    have outside := outside rfl
    have weak := inv.weak
    cases q with
    | register =>
      exact (walks_register outside (by simp)).mono fun τ out b post => by
        cases out <;> exact post.outside.holding
    | unregister t =>
      exact (walks_unregister outside (tracks (.head _))).mono fun τ out b post => by
        cases out <;> exact Bare.holding post
    | push t r =>
      change Walks _ _ e (TxHeap.push t r e)
      rw [← bind_pure (TxHeap.push t r)]
      exact walks_push outside t r fun e' _ _ outside => .ok outside.holding
    | pop t =>
      exact (walks_pop outside t).mono fun τ out b post => by
        cases out <;> exact post.1 ▸ post.2.2.holding
    | root t i =>
      exact (walks_root outside t i).mono fun τ out b post => by
        cases out <;> exact post.1 ▸ post.2.2.holding
    | setRoot t i r =>
      exact (walks_setRoot outside t r fit.2.1 fit.2.2).mono fun τ out b post => by
        cases out <;> exact post.1 ▸ post.2.2.holding
    | onAbort t key callback =>
      exact (walks_noteCallback inv.core outside (tracks (.head _)) .aborted key callback).mono
        fun τ out b post => by
        cases out <;> exact Bare.holding post
    | onCommit t key callback =>
      exact (walks_noteCallback inv.core outside (tracks (.head _)) .committed key callback).mono
        fun τ out b post => by
        cases out <;> exact Bare.holding post
    | safePoint t =>
      change Walks _ _ e (poll (.thread t) e)
      rw [← bind_pure (poll (.thread t))]
      exact walks_poll outside (tracks (.head _)) fun τ b _ outside _ => .ok outside.holding
    | collect t =>
      exact (walks_collect outside (tracks (.head _))).mono fun τ out b post => by
        cases out <;> exact Bare.holding post
    | begin t =>
      refine (walks_begin inv.core outside (tracks (.head _))).mono fun τ out b post => ?_
      cases out with
      | ok => exact post.1.outside.holding
      | error => exact post.imp id fun h => ⟨h.1, h.2.holding⟩
    | load =>
      refine (walks_load inv.core outside (tracks (.head _)) fit).mono fun τ out b post => ?_
      cases out with
      | ok => exact ⟨Minding.outside post |>.holding, Minding.engaged post⟩
      | error => exact post
    | store x r w v =>
      exact (walks_store inv.core outside (tracks (.head _)) fit.1 v).mono fun τ out b post => by
        cases out <;> exact Bare.holding post
    | alloc x size =>
      refine (walks_alloc inv.core weak outside (tracks (.head _)) size).mono fun τ out b post => ?_
      cases out with
      | ok => exact post.outside.holding
      | error => exact post.imp (fun spent => ⟨spent.1.holding, spent.2⟩) id
    | allocWeak x size =>
      refine (walks_allocWeak inv.core weak outside (tracks (.head _)) size fit).mono
        fun τ out b post => ?_
      cases out <;> exact post
    | becomeInevitable x reason =>
      exact (walks_becomeInevitable inv.core outside (tracks (.head _)) reason).mono
        fun τ out b post => by
        cases out <;> exact post.holding
    | abort =>
      refine (walks_abort inv.core outside (tracks (.head _))).mono fun τ out b post => ?_
      cases out <;> exact post.1.holding
    | endFailed =>
      refine (walks_endFailed inv.core outside (tracks (.head _))).mono fun τ out b post => ?_
      cases out with
      | ok => exact ⟨post.1.holding, post.2⟩
      | error => exact post
    | commit =>
      refine (walks_commit inv.core outside (tracks (.head _))).mono fun τ out b post => ?_
      cases out with
      | ok => exact post.1.holding
      | error => exact post
    | allocPrebuilt size words =>
      exact (walks_allocPrebuilt outside size words).mono fun τ out b post => by
        cases out <;> exact Bare.holding post
  | depth t =>
    exact (walks_depth (outside rfl) t).mono fun τ out b post => by
      cases out <;> exact post.1 ▸ post.2.2.holding
  | isWeak =>
    exact (walks_isWeak inv.core (outside rfl) (tracks (.head _))).mono fun τ out b post => by
      cases out <;> exact Bare.holding post
  | weakTarget =>
    exact (walks_weakTarget inv.core (outside rfl) (tracks (.head _)) fit).mono
      fun τ out b post => by
      cases out <;> exact Bare.holding post
  | pause t mode =>
    have own := tracks (.head _)
    refine (walks_pause (outside rfl) own mode).keeps.mono fun τ out b post => ?_
    cases out with
    | ok => exact ⟨post.1.1, post.1.2, post.2.2 t own⟩
    | error => exact post.1
  | release t =>
    refine (walks_release rfl rfl rfl (tracks (.head _)).mine).mono fun τ out b post => ?_
    cases out <;> exact post
  | enter =>
    refine (walks_enter inv.core (outside rfl) rfl (tracks_foreign known rfl)).mono
      fun τ out b post => ?_
    cases out with
    | ok => exact Stance.Outside.holding post
    | error => exact post.imp Stance.Outside.holding id
  | leave c token =>
    refine (walks_leave inv.core (outside rfl) rfl (tracks_foreign known rfl) token).mono
      fun τ out b post => ?_
    cases out with
    | ok => exact post
    | error => exact post.imp id fun ⟨f, x, _, _, stuck⟩ => ⟨x, stuck⟩
  | checkHeap =>
    exact (walks_checkHeap (outside rfl)).mono fun τ out b post => by
      cases out <;> exact Bare.holding post
  | stats =>
    exact (walks_stats (outside rfl)).mono fun τ out b post => by
      cases out <;> exact Bare.holding post
  | close =>
    exact (walks_close (outside rfl)).mono fun τ out b post => by
      cases out <;> exact Bare.holding post

end Walks

theorem treads (known : ∀ t ∈ op.threads e, t < e.threads.size) (inv : e.Inv) (roomy : e.Roomy)
    (fit : op.Fit e) :
    Treads op.control Going (op.threads e) e (op.call e) := by
  have alone : ∀ {α : Type} {c : Course Engine α}, op.control = none →
      Sound (op.actor e) (fun a _ b => Stretch (op.actor e) a b) e c →
      Treads op.control Going (op.threads e) e c := by
    intro α c alone sound
    refine (sound.treads (.start inv) (Nat.zero_le 2) roomy (fun u hu => ?_) fun _ _ _ => id).mono
      fun threads e _ e' post => ?_
    · have mine : u ∈ op.threads e := by
        rw [threads, alone]
        exact Option.mem_toList.2 hu
      exact ⟨.inl mine, known u mine⟩
    · obtain ⟨m, -, hm, strides, -⟩ := post
      exact ⟨m + 1, by omega, strides⟩
  have foreign : ∀ {c : Nat}, op.control = some c → ∀ f, e.foreign.lookup c = some f →
      Acting (op.threads e) e f.thread ∧ f.thread < e.threads.size := fun control f found =>
    have tracks := tracks_foreign known control f found
    ⟨tracks.mine, tracks.known⟩
  cases op with
  | ask q => exact alone rfl ((q.sound inv fit).mono fun _ _ _ h => h.1)
  | depth => exact alone rfl (sound_depth inv)
  | isWeak => exact alone rfl (sound_isWeak inv)
  | weakTarget => exact alone rfl (sound_weakTarget inv rfl fit)
  | pause t mode => exact alone rfl (sound_pause inv mode)
  | release => exact alone rfl (sound_release inv)
  | enter => exact treads_enter inv roomy (foreign rfl)
  | leave => exact treads_leave inv roomy (foreign rfl)
  | checkHeap => exact alone rfl (sound_checkHeap inv)
  | stats => exact alone rfl (sound_stats inv)
  | close => exact alone rfl (sound_close inv)

end Operation
end TxHeap
