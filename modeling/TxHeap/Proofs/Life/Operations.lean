import TxHeap.Proofs.Life.Brackets
import TxHeap.Proofs.Life.Upkeep
import TxHeap.Proofs.Machine.Operation

/-! All operations in outline: what each has licence for, and what it comes to. -/

namespace TxHeap
open Engine TxHeap.Action

variable {z : CallPart} {e' : Engine} {v : Raise} {c : Nat}

/-- What is done in a pause has been done in the caller's own, with all others stopped, and the
pause given up. -/
def RanPaused {α : Type} (who : Caller) (mode : PauseMode) (y : EngineCall α) (a : α)
    (e' : Engine) : Prop :=
  ∃ e1 e2, e1.Stopped who mode ∧ y e1 = .done a e2 ∧ e' = e2.resumed.giveUp .engine

namespace Operation

def notes : Operation → Option ThreadId
  | ask (.onAbort t _ _) => some t
  | ask (.onCommit t _ _) => some t
  | _ => none

def retires : Operation → Option ThreadId
  | ask (.unregister t) => some t
  | _ => none

def Asks (e : Engine) (op : Operation) (who : Caller) : Prop :=
  who = .system ∧ op = checkHeap ∨ ∃ t ∈ op.threads e, who = .thread t

def licence (back : Engine → Prop) (e : Engine) : Operation → Licence
  | enter c => .opening c e back
  | leave c token => .closing c token e back
  | op =>
    { control := none
      tables := fun t => op.notes = some t
      ends := fun t => t ∈ op.threads e
      asks := op.Asks e
      collects := fun t mine => .inr ⟨t, mine, rfl⟩
      retires := fun t => op.retires = some t
      closes := op = close
      drops := False
      settled := fun _ => True
      back }

/-- How an operation may fail. Only one that asks for a pause fails because the caller has one, only
a release because it has none. -/
def Fails (e : Engine) (op : Operation) (v : Raise) (e' : Engine) : Prop :=
  v.Plain ∨ (∃ who, op.Asks e who ∧ v = .violation (.nestedPause who) ∧ e'.pauser = some who) ∨
    ∃ t, op = release t ∧ v = .violation (.pauseNotOwned (.thread t))

/-- What an operation leads to that began in `e`, for those of which more is known than that. -/
def Yields (back : Engine → Prop) (e : Engine) : (op : Operation) → CallPart → Post op.Answer
  | enter c => Opens c e
  | leave c token => fun z out e' => Closes c token back e z e' out
  | ask (.collect t) =>
    fun _ out e' => ∀ a, out = .ok a → RanPaused (.thread t) .unique collectOld a e'
  | checkHeap =>
    fun _ out e' => ∀ a, out = .ok a → RanPaused .system .whileLocked (liftM audit) a e'
  | _ => fun _ _ _ => True

structure Meets (back : Engine → Prop) (e : Engine) (op : Operation) (z : CallPart)
    (out : Except Raise op.Answer) (e' : Engine) : Prop where
  fails : ∀ v, out = .error v → op.Fails e v e'
  yields : op.Yields back e z out e'

variable {back : Engine → Prop} {e : Engine} {op : Operation}

theorem Meets.ok {a : op.Answer} (yields : op.Yields back e z (.ok a) e') :
    op.Meets back e z (.ok a) e' :=
  ⟨by rintro _ ⟨⟩, yields⟩

theorem Meets.error (fails : op.Fails e v e') (yields : op.Yields back e z (.error v) e') :
    op.Meets back e z (.error v) e' :=
  ⟨by rintro _ ⟨⟩; exact fails, yields⟩

def start (op : Operation) (e : Engine) : Point := ⟨⟨false, op.threads e, e.outline⟩, none, e⟩

theorem licensed_start (inv : e.Inv) (sound : e.outline.Sound) (L : Licence) :
    Licensed L (op.start e) := ⟨.start, sound, inv.locks⟩

theorem fails_hindered {who : Caller} (asks : op.Asks e who) (why : Hindered who v e') :
    op.Fails e v e' :=
  why.elim (fun badObject => .inl badObject.plain) fun nested =>
    .inr (.inl ⟨who, asks, nested.1, nested.2⟩)

theorem Meets.enter {out : Except Raise (ThreadId × Token)} (h : Opens c e z out e') :
    (Operation.enter c).Meets back e z out e' := by
  refine ⟨?_, h⟩
  rintro v rfl
  exact .inl h.1

theorem Meets.leave {token : Token} {out : Except Raise Unit} (h : Closes c token back e z e' out) :
    (Operation.leave c token).Meets back e z out e' := by
  refine ⟨?_, h⟩
  rintro v rfl
  cases h with
  | unopened | mismatched | refused | inside => exact .inl id
  | obstructed _ _ _ why => exact .inl why.plain
  | @hindered t _ _ _ entry _ _ why =>
    refine fails_hindered (.inr ⟨t, ?_, rfl⟩) why
    change t ∈ ((e.foreign.lookup c).map (·.thread)).toList
    rw [entry]
    exact .head _

section Turning
variable (inv : e.Inv) (sound : e.outline.Sound)
include inv sound

theorem turning_ask (q : Request) (known : ∀ t ∈ (ask q).threads e, t < e.threads.size) :
    Turning ((ask q).licence back e) ((ask q).Meets back e) ((ask q).start e).toCallPart
    ((ask q).call e) := by
  have lic : Licensed ((ask q).licence back e) ((ask q).start e) := licensed_start inv sound _
  have first : ((ask q).start e).ended = none := rfl
  have settles : ∀ foreign, ((ask q).licence back e).SettlesAt foreign := fun _ _ _ => trivial
  have clear : ((ask q).start e).Clear ((ask q).licence back e) := .of_none first
  cases q with
  | register =>
    rw [← bind_pure (call _)]
    refine turning_register lic first (fun e' _ _ => .error (.inl id) trivial)
      fun r t lic' enrolled => ?_
    exact .ok lic' (.of_none enrolled.first) (.ok trivial)
  | unregister t =>
    exact turning_unregister lic clear ⟨.inl (.head _), known t (.head _)⟩ rfl
      (fun _ => .error (.inl id) trivial)
      fun _ _ _ _ => .ok trivial
  | push t r =>
    have turning := turning_stackWork (P := (ask (.push t r)).Meets back e) (t := t)
      (y := updateThread t fun th => { th with stack := th.stack.push r }) lic first
      (.thread t fun _ => ⟨rfl, rfl, rfl, rfl, rfl⟩) (fun _ _ => .ok trivial) fun _ _ plain =>
        .error (.inl plain) trivial
    exact turning
  | pop t =>
    exact turning_stackLook lic first (quiet_popTop t) (fun _ _ => .ok trivial) fun _ _ plain =>
      .error (.inl plain) trivial
  | root =>
    exact turning_stackLook lic first (.inspect _) (fun _ _ => .ok trivial) fun _ _ plain =>
      .error (.inl plain) trivial
  | setRoot t i r =>
    exact turning_setRoot lic first i r (fun _ _ => .ok trivial) fun _ _ _ plain =>
      .error (.inl plain) trivial
  | onAbort =>
    exact turning_noteCallback lic first rfl (fun _ => .ok trivial)
      (.error (.inl id) trivial) .aborted
  | onCommit =>
    exact turning_noteCallback lic first rfl (fun _ => .ok trivial)
      (.error (.inl id) trivial) .committed
  | safePoint => exact turning_poll lic first fun _ _ => .ok trivial
  | collect t =>
    have asks : (ask (.collect t)).Asks e (.thread t) := .inr ⟨t, .head _, rfl⟩
    change Turning _ _ _ (collect t e)
    unfold collect
    rw [look_bind]
    split
    · exact .error lic clear rfl (.error (.inl id) (by rintro _ ⟨⟩))
    refine turning_pausedOnce lic first asks smooth_collectOld mute_collectOld
      (fun z e' => .error (.inl id) (by rintro _ ⟨⟩))
      (fun z e' own => .error (.inr (.inl ⟨_, asks, rfl, own⟩)) (by rintro _ ⟨⟩))
      (fun z v e' badObject => .error (.inl badObject.plain) (by rintro _ ⟨⟩))
        fun z a e1 e2 stopped run => .ok ?_
    rintro _ ⟨⟩
    exact ⟨e1, e2, stopped, run, rfl⟩
  | begin t =>
    rw [← bind_pure (call _)]
    refine turning_begin lic first ⟨.inl (.head _), known t (.head _)⟩
      (fun _ => .error (.inl id) trivial)
      (fun _ => .error (.inl id) trivial) (fun _ _ _ => .error (.inl id) trivial)
        fun r x lic' commenced => ?_
    exact .ok lic' (.of_none commenced.first) (.ok trivial)
  | load x r w =>
    exact turning_attends (attends_load settles r w) lic first rfl (.inl (.head _)) (.head _)
      (fun _ _ _ plain => .error (.inl plain) trivial) fun _ _ _ => .ok trivial
  | store x r w v =>
    exact turning_attends (attends_store settles r w v) lic first rfl (.inl (.head _)) (.head _)
      (fun _ _ _ plain => .error (.inl plain) trivial) fun _ _ _ => .ok trivial
  | alloc x size =>
    exact turning_attends (attends_alloc settles size) lic first rfl (.inl (.head _)) (.head _)
      (fun _ _ _ plain => .error (.inl plain) trivial) fun _ _ _ => .ok trivial
  | allocWeak x size target =>
    exact turning_attends (attends_allocWeak settles size target) lic first rfl
      (.inl (.head _)) (.head _)
      (fun _ _ _ plain => .error (.inl plain) trivial) fun _ _ _ => .ok trivial
  | becomeInevitable x reason =>
    rw [← bind_pure (call _)]
    refine turning_becomeInevitable lic first rfl (.inl (.head _))
      (fun _ => ⟨.head _, settles _⟩) reason
      (fun _ => .error (.inl id) trivial) (fun _ _ _ _ plain _ => .error (.inl plain) trivial)
        fun r lic' promoted => ?_
    exact .ok lic' (.of_none promoted.first) (.ok trivial)
  | abort =>
    rw [← bind_pure (call _)]
    exact turning_abort settles lic first rfl (.inl (.head _)) (.head _) (.pure _)
      (fun _ _ _ plain => .error (.inl plain) trivial) fun r lic' clear' =>
        .ok lic' clear' (.ok trivial)
  | endFailed x =>
    change Turning _ _ _ (endFailed x e)
    unfold endFailed
    rw [look_bind]
    split
    · rw [look_bind]
      split
      · rw [← bind_pure (commit x)]
        refine turning_commit (settles _) (fun _ => .pure _)
          (fun r answer lic' _ clear' _ => .ok lic' clear' (.ok trivial)) lic first rfl
          inv.orderly (.inl (.head _)) (.head _) (fun _ => .error (.inl id) trivial)
          (fun _ _ _ _ why _ => .error (.inl why.plain) trivial) fun r v _ why =>
            .error (fails_hindered (.inr ⟨_, .head _, rfl⟩) why) trivial
      · exact turning_abort settles lic first rfl (.inl (.head _)) (.head _) (.pure _)
          (fun _ _ _ plain => .error (.inl plain) trivial) fun r lic' clear' =>
            .ok lic' clear' (.ok trivial)
    · exact .ok lic clear (.ok trivial)
  | commit =>
    rw [← bind_pure (call _)]
    exact turning_commit (settles _) (fun _ => .pure _)
      (fun r answer lic' _ clear' _ => .ok lic' clear' (.ok trivial)) lic first rfl
      inv.orderly (.inl (.head _)) (.head _) (fun _ => .error (.inl id) trivial)
      (fun _ _ _ _ why _ => .error (.inl why.plain) trivial) fun r v _ why =>
        .error (fails_hindered (.inr ⟨_, .head _, rfl⟩) why) trivial
  | allocPrebuilt size words =>
    exact turning_allocPrebuilt lic first size words (fun _ _ _ => .ok trivial) fun _ _ _ plain =>
      .error (.inl plain) trivial

theorem turning (op : Operation) (known : ∀ t ∈ op.threads e, t < e.threads.size) :
    Turning (op.licence back e) (op.Meets back e) (op.start e).toCallPart (op.call e) := by
  have tracks : ∀ c, op.control = some c → ∀ f, e.foreign.lookup c = some f →
      (op.start e).Tracks f.thread := by
    intro c control f found
    have mine : f.thread ∈ op.threads e := by
      rw [threads, control]
      dsimp only
      rw [found]
      exact .head _
    exact ⟨.inl mine, known _ mine⟩
  have lic : Licensed (op.licence back e) (op.start e) := licensed_start inv sound _
  have first : (op.start e).ended = none := rfl
  cases op with
  | ask q => exact turning_ask inv sound q known
  | depth => exact turning_depth lic first fun _ _ _ => .ok trivial
  | isWeak x r =>
    exact turning_attends (attends_isWeak r) lic first rfl (.inl (.head _)) (.head _)
      (fun _ _ _ plain => .error (.inl plain) trivial) fun _ _ _ => .ok trivial
  | weakTarget x r =>
    exact turning_attends (attends_weakTarget (fun _ _ _ => trivial) r) lic first rfl
      (.inl (.head _)) (.head _)
      (fun _ _ _ plain => .error (.inl plain) trivial) fun _ _ _ => .ok trivial
  | pause t =>
    exact turning_pause lic first (.inr ⟨t, .head _, rfl⟩)
      (fun z e' own => .error (.inr (.inl ⟨_, .inr ⟨t, .head _, rfl⟩, rfl, own⟩)) trivial)
      fun _ _ => .ok trivial
  | release t =>
    exact turning_release lic first (fun _ _ => .error (.inr (.inr ⟨t, rfl, rfl⟩)) trivial)
      fun _ _ => .ok trivial
  | enter c => exact (turning_enter lic first rfl rfl (tracks c rfl)).mono fun _ _ _ => .enter
  | leave c =>
    exact (turning_leave lic first rfl inv.orderly rfl (tracks c rfl)).mono fun _ _ _ => .leave
  | checkHeap =>
    refine turning_pausedOnce lic first (.inl ⟨rfl, rfl⟩) (.lift looks_audit.quiet) (.lift _)
      (fun z e' => .error (.inl id) (by rintro _ ⟨⟩))
      (fun z e' own => .error (.inr (.inl ⟨_, .inl ⟨rfl, rfl⟩, rfl, own⟩)) (by rintro _ ⟨⟩))
      (fun z v e' badObject => .error (.inl badObject.plain) (by rintro _ ⟨⟩))
        fun z a e1 e2 stopped run => .ok ?_
    rintro _ ⟨⟩
    exact ⟨e1, e2, stopped, run, rfl⟩
  | stats => exact turning_stats lic first fun _ _ _ => .ok trivial
  | close =>
    exact turning_close lic first rfl (fun _ _ _ => .error (.inl id) trivial) fun _ _ => .ok trivial

end Turning
end Operation
end TxHeap
