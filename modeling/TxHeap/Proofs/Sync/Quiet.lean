import TxHeap.Engine.Audit
import TxHeap.Engine.Bracket
import TxHeap.Proofs.Engine.State

/-! Computations that leave alone who holds and who waits for what, and the lives of threads and
transactions. All work on objects is of this kind. -/

namespace TxHeap
variable {f : Thread → Thread} {v : Violation}

/-- How many transactions have committed, committed as inevitable ones, been aborted, and met a
conflict. -/
def Counters.fates (c : Counters) : UInt64 × UInt64 × UInt64 × UInt64 :=
  (c.commits, c.inevitableCommits, c.aborts, c.conflicts)

namespace Engine

structure Still (e e' : Engine) : Prop where
  locked : e'.locked = e.locked
  pauser : e'.pauser = e.pauser
  pauseMode : e'.pauseMode = e.pauseMode
  asleep : e'.asleep = e.asleep
  tickets : e'.tickets = e.tickets
  inevitable : e'.inevitable = e.inevitable
  segments_size : e'.segments.size = e.segments.size
  segment : ∀ k, (e'.segment k).owner = (e.segment k).owner ∧
    (e'.segment k).standing = (e.segment k).standing
  thread : ∀ t, (e'.thread t).segment = (e.thread t).segment

structure Silent (e e' : Engine) : Prop extends Still e e' where
  threads_size : e'.threads.size = e.threads.size
  txns_size : e'.txns.size = e.txns.size
  life : ∀ t, (e'.thread t).txn = (e.thread t).txn ∧
    (e'.thread t).registered = (e.thread t).registered
  txn : ∀ x, (e'.txn x).thread = (e.txn x).thread ∧ (e'.txn x).segment = (e.txn x).segment ∧
    (e'.txn x).phase = (e.txn x).phase
  foreign : e'.foreign = e.foreign
  closed : e'.closed = e.closed

structure Hushed (e e' : Engine) : Prop extends Silent e e' where
  tables : ∀ t, (e'.thread t).onAbort = (e.thread t).onAbort ∧
    (e'.thread t).onCommit = (e.thread t).onCommit

variable {e e' e'' : Engine}

theorem Still.refl (e : Engine) : Still e e :=
  ⟨rfl, rfl, rfl, rfl, rfl, rfl, rfl, fun _ => ⟨rfl, rfl⟩, fun _ => rfl⟩

theorem Still.trans (h : Still e e') (h' : Still e' e'') : Still e e'' where
  locked := h'.locked.trans h.locked
  pauser := h'.pauser.trans h.pauser
  pauseMode := h'.pauseMode.trans h.pauseMode
  asleep := h'.asleep.trans h.asleep
  tickets := h'.tickets.trans h.tickets
  inevitable := h'.inevitable.trans h.inevitable
  segments_size := h'.segments_size.trans h.segments_size
  segment k := ⟨(h'.segment k).1.trans (h.segment k).1, (h'.segment k).2.trans (h.segment k).2⟩
  thread t := (h'.thread t).trans (h.thread t)

theorem Silent.refl (e : Engine) : Silent e e :=
  ⟨.refl e, rfl, rfl, fun _ => ⟨rfl, rfl⟩, fun _ => ⟨rfl, rfl, rfl⟩, rfl, rfl⟩

theorem Silent.trans (h : Silent e e') (h' : Silent e' e'') : Silent e e'' where
  toStill := h.toStill.trans h'.toStill
  threads_size := h'.threads_size.trans h.threads_size
  txns_size := h'.txns_size.trans h.txns_size
  life t := ⟨(h'.life t).1.trans (h.life t).1, (h'.life t).2.trans (h.life t).2⟩
  txn x := ⟨(h'.txn x).1.trans (h.txn x).1, (h'.txn x).2.1.trans (h.txn x).2.1,
    (h'.txn x).2.2.trans (h.txn x).2.2⟩
  foreign := h'.foreign.trans h.foreign
  closed := h'.closed.trans h.closed

theorem silent_setTxn (x : TxnId) {f : Txn → Txn}
    (keeps : ∀ tx, (f tx).thread = tx.thread ∧ (f tx).segment = tx.segment ∧
      (f tx).phase = tx.phase) :
    Silent e (e.setTxn x f) := by
  refine { Silent.refl e with txns_size := by simp, txn := fun y => ?_ }
  rw [txn_setTxn]
  split
  · next h =>
    rw [← h.1]
    exact keeps _
  · exact ⟨rfl, rfl, rfl⟩

theorem silent_setThread (t : ThreadId)
    (keeps : ∀ th, (f th).segment = th.segment ∧ (f th).txn = th.txn ∧
      (f th).registered = th.registered) :
    Silent e (e.setThread t f) := by
  have same : ∀ u, ((e.setThread t f).thread u).segment = (e.thread u).segment ∧
      ((e.setThread t f).thread u).txn = (e.thread u).txn ∧
      ((e.setThread t f).thread u).registered = (e.thread u).registered := by
    intro u
    rw [thread_setThread]
    split
    · next h =>
      rw [← h.1]
      exact keeps _
    · exact ⟨rfl, rfl, rfl⟩
  exact { Silent.refl e with
    thread := fun u => (same u).1
    threads_size := by simp
    life := fun u => (same u).2 }

theorem silent_setSegment (k : SegmentId) {f : Segment → Segment}
    (keeps : ∀ s, (f s).owner = s.owner ∧ (f s).standing = s.standing) :
    Silent e (e.setSegment k f) := by
  refine { Silent.refl e with segments_size := by simp, segment := fun j => ?_ }
  rw [segment_setSegment]
  split
  · next h =>
    rw [← h.1]
    exact keeps _
  · exact ⟨rfl, rfl⟩

theorem Hushed.refl (e : Engine) : Hushed e e := ⟨.refl e, fun _ => ⟨rfl, rfl⟩⟩

theorem hushed_setThread (t : ThreadId)
    (keeps : ∀ th, (f th).segment = th.segment ∧ (f th).txn = th.txn ∧
      (f th).registered = th.registered ∧
      (f th).onAbort = th.onAbort ∧ (f th).onCommit = th.onCommit) :
      Hushed e (e.setThread t f) := by
  refine ⟨silent_setThread t fun th => ⟨(keeps th).1, (keeps th).2.1, (keeps th).2.2.1⟩,
    fun u => ?_⟩
  rw [thread_setThread]
  split
  · next h =>
    rw [← h.1]
    exact (keeps _).2.2.2
  · exact ⟨rfl, rfl⟩

end Engine

open Engine

/-- It is raised for a misuse of the engine or a defect, not to unwind a transaction or a function
of the embedding program. -/
def Raise.Fatal : Raise → Prop
  | violation _ => True
  | fault _ => True
  | _ => False

/-- It is raised for a reference that leads nowhere, an object whose size cannot be, or a defect. -/
def Raise.BadObject : Raise → Prop
  | violation (.badSize _ _) => True
  | violation (.foreignYoung _ _) => True
  | fault _ => True
  | _ => False

class Blames (E : Raise → Prop) : Prop where
  badObject : ∀ {v : Raise}, v.BadObject → E v

instance : Blames Raise.BadObject := ⟨id⟩

/-- It is raised for a pause that is asked for twice, or given up by one who has not got it. -/
def Raise.Pausal : Raise → Prop
  | violation (.nestedPause _) => True
  | violation (.pauseNotOwned _) => True
  | _ => False

def Raise.Plain (v : Raise) : Prop := ¬ v.Pausal

theorem Raise.BadObject.plain {v : Raise} (h : v.BadObject) : v.Plain := by
  cases v with
  | violation w => cases w <;> first | exact id | exact h.elim
  | _ => exact id

instance : Blames Raise.Fatal where
  badObject {v} h := by
    cases v with
    | violation | fault => trivial
    | _ => exact h.elim

/-- Complaints among which are all about a misuse that has nothing to do with pauses. -/
class Complains (E : Raise → Prop) : Prop extends Blames E where
  plain : ∀ {v : Violation}, Raise.Plain (.violation v) → E (.violation v)

instance : Complains Raise.Fatal := ⟨fun _ => trivial⟩

instance : Complains Raise.Plain where
  badObject := Raise.BadObject.plain
  plain := id

/-- A relation that does not mind what happens to objects and the log, nor what collections there
were. -/
class Frame (R : Engine → Engine → Prop) : Prop where
  refl : ∀ e, R e e
  trans : ∀ {e e' e'' : Engine}, R e e' → R e' e'' → R e e''
  hushed : ∀ {e e' : Engine}, Hushed e e' → e'.counters = e.counters → R e e'
  counters : ∀ (e : Engine) {f : Counters → Counters}, (∀ c, (f c).fates = c.fates) →
    R e (e.setCounters f)

instance : Frame Silent where
  refl := .refl
  trans := .trans
  hushed h _ := h.toSilent
  counters _ _ _ := { Silent.refl _ with }

def Engine.Uncounted (e e' : Engine) : Prop := e'.counters.fates = e.counters.fates

instance : Frame Uncounted where
  refl _ := rfl
  trans h h' := h'.trans h
  hushed _ h := congrArg Counters.fates h
  counters _ _ h := h _

/-- The computation keeps to `R`, also if it fails with a complaint of `E`. -/
structure Preserves (E : Raise → Prop) (R : Engine → Engine → Prop) {α : Type}
    (f : EngineM α) : Prop where
  ends : ∀ e, Ends f e (fun _ e' => R e e') fun v e' => E v ∧ R e e'

abbrev Quiet {α : Type} (f : EngineM α) : Prop := Preserves Raise.Fatal Silent f

structure PreservesT (E : Raise → Prop) (R : Engine → Engine → Prop) {τ α : Type}
    (f : StateT τ EngineM α) : Prop where
  run : ∀ m, Preserves E R (f.run m)

variable {E : Raise → Prop} {R : Engine → Engine → Prop} [Frame R]

namespace Preserves
variable {α β : Type} {f : EngineM α} {g : α → EngineM β}

protected theorem pure (a : α) : Preserves E R (pure a : EngineM α) := ⟨fun e => Frame.refl e⟩

protected theorem throw [Blames E] (f : Fault) : Preserves E R (throw (.fault f) : EngineM α) :=
  ⟨fun e => ⟨Blames.badObject trivial, Frame.refl e⟩⟩

protected theorem raise (h : E (.violation v)) : Preserves E R (raise v : EngineM α) :=
  ⟨fun e => ⟨h, Frame.refl e⟩⟩

protected theorem bind (h : Preserves E R f) (h' : ∀ a, Preserves E R (g a)) :
    Preserves E R (f >>= g) where
  ends e := .bind ((h.ends e).mono
    (fun a e' first => ((h' a).ends e').mono (fun _ _ => Frame.trans first) fun _ _ =>
      And.imp_right (Frame.trans first))
    fun _ _ => id)

omit [Frame R] in
theorem get {g : Engine → EngineM β} (h : ∀ e, Preserves E R (g e)) : Preserves E R (get >>= g) :=
  ⟨fun e => (h e).ends e⟩

omit [Frame R] in
theorem modify {g : Engine → Engine} (h : ∀ e, R e (g e)) : Preserves E R (modify g) :=
  ⟨fun e => h e⟩

theorem inspect [Blames E] (f : Engine → Except Fault α) : Preserves E R (inspectEngine f) where
  ends e := by
    rw [Ends, inspectEngine]
    cases f e with
    | ok => exact Frame.refl e
    | error => exact ⟨Blames.badObject trivial, Frame.refl e⟩

theorem arena [Blames E] (x : ArenaM α) : Preserves E R (onArena x) := by
  refine ⟨fun e => ?_⟩
  obtain ⟨tables, arena⟩ := e
  cases h : x arena with
  | ok =>
    simp only [Ends, onArena, h]
    exact Frame.hushed { Hushed.refl _ with } rfl
  | error =>
    simp only [Ends, onArena, h]
    exact ⟨Blames.badObject trivial, Frame.hushed { Hushed.refl _ with } rfl⟩

theorem txn (x : TxnId) {f : Txn → Txn}
    (keeps : ∀ tx, (f tx).thread = tx.thread ∧ (f tx).segment = tx.segment ∧
      (f tx).phase = tx.phase) :
    Preserves E R (updateTxn x f) :=
  ⟨fun _ => Frame.hushed ⟨silent_setTxn x keeps, fun _ => ⟨rfl, rfl⟩⟩ rfl⟩

theorem thread (t : ThreadId) {f : Thread → Thread}
    (keeps : ∀ th, (f th).segment = th.segment ∧ (f th).txn = th.txn ∧
      (f th).registered = th.registered ∧
      (f th).onAbort = th.onAbort ∧ (f th).onCommit = th.onCommit) :
    Preserves E R (updateThread t f) := ⟨fun _ => Frame.hushed (hushed_setThread t keeps) rfl⟩

theorem segment (k : SegmentId) {f : Segment → Segment}
    (keeps : ∀ s, (f s).owner = s.owner ∧ (f s).standing = s.standing) :
    Preserves E R (updateSegment k f) :=
  ⟨fun _ => Frame.hushed ⟨silent_setSegment k keeps, fun _ => ⟨rfl, rfl⟩⟩ rfl⟩

theorem log (f : Event.Log → Event.Log) : Preserves E R (updateLog f) :=
  ⟨fun _ => Frame.hushed { Hushed.refl _ with } rfl⟩

theorem counters {f : Counters → Counters} (h : ∀ c, (f c).fates = c.fates) :
    Preserves E R (updateCounters f) :=
  ⟨fun e => Frame.counters e h⟩

omit [Frame R] in
protected theorem ite {p : Prop} [Decidable p] {f f' : EngineM α} (h : Preserves E R f)
    (h' : Preserves E R f') :
    Preserves E R (if p then f else f') := by
  split
  · exact h
  · exact h'

end Preserves

theorem Quiet.counters (f : Counters → Counters) : Quiet (updateCounters f) :=
  ⟨fun _ => { Silent.refl _ with }⟩

theorem Quiet.thread (t : ThreadId)
    (keeps : ∀ th, (f th).segment = th.segment ∧ (f th).txn = th.txn ∧
      (f th).registered = th.registered) :
    Quiet (updateThread t f) := ⟨fun _ => silent_setThread t keeps⟩

structure Looks (E : Raise → Prop) {α : Type} (f : EngineM α) : Prop where
  ends : ∀ e, Ends f e (fun _ e' => e' = e) fun v e' => E v ∧ e' = e

namespace Looks
variable {α β : Type} {f : EngineM α} {g : α → EngineM β}

protected theorem pure (a : α) : Looks E (pure a : EngineM α) := ⟨fun _ => rfl⟩

protected theorem raise (h : E (.violation v)) : Looks E (raise v : EngineM α) :=
  ⟨fun _ => ⟨h, rfl⟩⟩

protected theorem bind (h : Looks E f) (h' : ∀ a, Looks E (g a)) : Looks E (f >>= g) where
  ends e := .bind ((h.ends e).mono (fun a _ same => same ▸ (h' a).ends e) fun _ _ => id)

theorem get {g : Engine → EngineM β} (h : ∀ e, Looks E (g e)) : Looks E (get >>= g) :=
  ⟨fun e => (h e).ends e⟩

theorem inspect [Blames E] (f : Engine → Except Fault α) : Looks E (inspectEngine f) where
  ends e := by
    rw [Ends, inspectEngine]
    cases f e with
    | ok => exact rfl
    | error => exact ⟨Blames.badObject trivial, rfl⟩

protected theorem ite {p : Prop} [Decidable p] {f f' : EngineM α} (h : Looks E f)
    (h' : Looks E f') :
    Looks E (if p then f else f') := by
  split
  · exact h
  · exact h'

theorem quiet (h : Looks E f) : Preserves E R f where
  ends e := (h.ends e).mono (fun _ _ same => by rw [same]; exact Frame.refl e)
    fun _ _ h => ⟨h.1, by rw [h.2]; exact Frame.refl e⟩

end Looks

namespace PreservesT
variable {τ α β : Type} {f : StateT τ EngineM α} {g : α → StateT τ EngineM β}

protected theorem pure (a : α) : PreservesT E R (pure a : StateT τ EngineM α) :=
  ⟨fun m => Preserves.pure (a, m)⟩

protected theorem bind (h : PreservesT E R f) (h' : ∀ a, PreservesT E R (g a)) :
    PreservesT E R (f >>= g) := by
  refine ⟨fun m => ?_⟩
  rw [StateT.run_bind]
  exact (h.run m).bind fun p => (h' p.1).run p.2

protected theorem throw [Blames E] (f : Fault) :
    PreservesT E R (throw (.fault f) : StateT τ EngineM α) :=
  ⟨fun m => (Preserves.throw f).bind fun a => Preserves.pure (a, m)⟩

protected theorem lift {f : EngineM α} (h : Preserves E R f) :
    PreservesT E R (liftM f : StateT τ EngineM α) :=
  ⟨fun m => h.bind fun a => .pure (a, m)⟩

theorem reads {f : EngineM α} (h : Looks E f) (h' : ∀ a, PreservesT E R (g a)) :
    PreservesT E R (liftM f >>= g) :=
  .bind (.lift h.quiet) h'

omit [Frame R] in
theorem get {g : τ → StateT τ EngineM β} (h : ∀ m, PreservesT E R (g m)) :
    PreservesT E R (get >>= g) := ⟨fun m => (h m).run m⟩

omit [Frame R] in
theorem getThe {g : Engine → StateT τ EngineM β} (h : ∀ e, PreservesT E R (g e)) :
    PreservesT E R (getThe Engine >>= g) :=
  ⟨fun m => ⟨fun e => ((h e).run m).ends e⟩⟩

theorem modify (g : τ → τ) : PreservesT E R (modify g : StateT τ EngineM PUnit) :=
  ⟨fun m => Preserves.pure ((), g m)⟩

theorem modifyThe {g : Engine → Engine} (h : ∀ e, R e (g e)) :
    PreservesT E R (modifyThe Engine g : StateT τ EngineM PUnit) :=
  ⟨fun m => (Preserves.modify h).bind fun a => Preserves.pure (a, m)⟩

omit [Frame R] in
protected theorem ite {p : Prop} [Decidable p] {f f' : StateT τ EngineM α} (h : PreservesT E R f)
    (h' : PreservesT E R f') :
    PreservesT E R (if p then f else f') := by
  split
  · exact h
  · exact h'

end PreservesT

variable [Blames E]

section Objects

theorem looks_oldSpan (r : Ref) : Looks E (oldSpan r) := .inspect _

theorem looks_getOld (s : Span) (i : Nat) : Looks E (getOld s i) := .inspect _

theorem looks_getYoung (k : SegmentId) (s : Span) (i : Nat) : Looks E (getYoung k s i) := .inspect _

theorem looks_header (r : Ref) : Looks E (header r) := .inspect _

theorem looks_slotsIn (view : Engine → View) (weak : Bool) :
    Looks E (slotsIn view weak) := .inspect _

theorem quiet_setHeader (r : Ref) (h : UInt64) : Preserves E R (setHeader r h) := .arena _

theorem quiet_setOld (s : Span) (i : Nat) (v : UInt64) : Preserves E R (setOld s i v) :=
  .ite (.arena _) (.throw _)

theorem quiet_setYoung (k : SegmentId) (s : Span) (i : Nat) (v : UInt64) :
    Preserves E R (setYoung k s i v) :=
  .ite (.segment k fun _ => ⟨rfl, rfl⟩) (.throw _)

omit [Blames E] in
theorem quiet_resetNursery (k : SegmentId) : Preserves E R (resetNursery k) :=
  .segment k fun _ => ⟨rfl, rfl⟩

theorem looks_sizeIn (view : Engine → View) : Looks E (sizeIn view) :=
  .get fun _ => .bind (.inspect _) fun _ => .ite (.raise (Blames.badObject trivial)) (.pure _)

theorem looks_oldObject (r : Ref) : Looks E (oldObject r) :=
  .bind (looks_oldSpan r) fun _ => .bind (looks_sizeIn _) fun _ => .pure _

theorem quiet_copyFrom (s : Span) :
    ∀ (i : Nat) (words : List UInt64), Preserves E R (copyFrom s i words)
  | _, [] => .pure ()
  | i, v :: rest => .bind (quiet_setOld s i v) fun _ => quiet_copyFrom s (i + 1) rest

theorem quiet_copyToOld (s : Span) (words : List UInt64) : Preserves E R (copyToOld s words) :=
  quiet_copyFrom s 1 _

omit [Blames E] in
theorem quiet_logInfo (kind : Event.Kind) (k : Int) (fields : List (String × Event.Value)) :
    Preserves E R (logInfo kind k fields) := .log _

omit [Blames E] in
theorem quiet_logDebug (kind : Event.Kind) (k : Int) (fields : List (String × Event.Value)) :
    Preserves E R (logDebug kind k fields) := .log _

theorem quiet_growFor (need : UInt64) : Preserves E R (growFor need) := by
  refine .get fun _ => .get fun _ => .get fun _ => ?_
  refine .ite (.pure _) (.bind (.arena _) fun _ => .ite (.pure _) (.get fun _ => ?_))
  exact .bind (quiet_logInfo ..) fun _ => .pure _

theorem quiet_mallocWithin (size : UInt64) : ∀ n, Preserves E R (mallocWithin size n)
  | 0 => .throw _
  | n + 1 => .bind (.arena _) fun _ => .ite (.pure _) <| .bind (quiet_growFor size) fun _ =>
    .ite (quiet_mallocWithin size n) (.pure _)

theorem quiet_mallocOld (size : UInt64) : Preserves E R (mallocOld size) :=
  quiet_mallocWithin size 66

theorem looks_youngSpan (x : TxnId) (r : Ref) : Looks E (youngSpan x r) := by
  refine .get fun e => .get fun e' => ?_
  cases e'.youngWords? (e.txn x).segment r with
  | some s => exact .pure s
  | none => exact .raise (Blames.badObject trivial)

omit [Blames E] in
theorem looks_checkWord [Complains E] (r : Ref) (w : Int) (length : Nat) :
    Looks E (checkWord r w length) :=
  .ite (.raise (Complains.plain id)) (.pure _)

omit [Blames E] in
theorem quiet_noteRead (x : TxnId) (r : Ref) (version : UInt64) :
    Preserves E R (updateTxn x (·.noteRead r version)) := by
  refine .txn x fun tx => ?_
  unfold Txn.noteRead
  split
  · exact ⟨rfl, rfl, rfl⟩
  · exact ⟨rfl, rfl, rfl⟩

omit [Blames E] in
theorem quiet_noteCreated (x : TxnId) (r : Ref) :
    Preserves E R (updateTxn x (·.noteCreated r)) := by
  refine .txn x fun tx => ?_
  unfold Txn.noteCreated
  split
  · exact ⟨rfl, rfl, rfl⟩
  · exact ⟨rfl, rfl, rfl⟩

omit [Blames E] in
theorem quiet_setCopyWord (x : TxnId) (r : Ref) (i : Nat) (v : UInt64) :
    Preserves E R (updateTxn x (·.setCopyWord r i v)) :=
  .txn x fun _ => ⟨rfl, rfl, rfl⟩

omit [Blames E] in
theorem quiet_bump? (k : SegmentId) (size : UInt64) : Preserves E R (bump? k size) :=
  .get fun _ => .get fun _ =>
    .ite (.pure _) (.bind (.segment k fun _ => ⟨rfl, rfl⟩) fun _ => .pure _)

omit [Blames E] in
theorem looks_weakSlot [Complains E] (x : TxnId) (r : Ref) : Looks E (weakSlot x r) := by
  refine .ite (.bind (.raise (Complains.plain id)) fun _ => ?_) ?_
  all_goals
    refine .ite (.bind (looks_youngSpan x r) fun _ => .get fun _ => .bind (looks_sizeIn _)
      fun _ => .pure _)
      (.get fun e => ?_)
    split
    · exact .pure _
    · exact .bind (looks_oldSpan r) fun _ => .bind (looks_sizeIn _) fun _ => .pure _

end Objects

variable {α : Type}

section Ending
omit [Blames E] in
theorem looks_check [Complains E] (x : TxnId) : Looks E (check x) :=
  .get fun _ => .get fun _ => .ite (.raise (Complains.plain id)) (.pure _)

omit [Blames E] in
theorem looks_checkOpen [Complains E] : Looks E checkOpen :=
  .get fun _ => .ite (.raise (Complains.plain id)) (.pure _)

theorem quiet_clearTables (t : ThreadId) : Quiet (clearTables t) :=
  Quiet.thread t fun _ => ⟨rfl, rfl, rfl⟩

theorem quiet_freeAll : ∀ refs, Preserves E R (freeAll refs)
  | [] => .pure ()
  | _ :: rest => .bind (.arena _) fun _ => quiet_freeAll rest

theorem quiet_countConflict (x : TxnId) (r : Ref) (kind : String) :
    Quiet (countConflict x r kind) :=
  .get fun _ => .bind (.log _) fun _ => Quiet.counters _

theorem looks_staleRead? : ∀ reads, Looks E (staleRead? reads)
  | [] => .pure none
  | (r, _) :: rest => .bind (looks_header r) fun _ => .ite (.pure _) (looks_staleRead? rest)

theorem looks_validate? (x : TxnId) : Looks E (validate? x) :=
  .get fun _ => .ite (.pure none) (.get fun _ => looks_staleRead? _)

theorem quiet_publish (version : UInt64) : ∀ writes, Preserves E R (publish version writes)
  | [] => .pure ()
  | (r, words) :: rest => .bind (looks_oldSpan r).quiet fun s => .bind (quiet_setOld s 0 _) fun _ =>
    .bind (quiet_copyToOld s words.toList) fun _ => .bind (quiet_setOld s 0 _) fun _ =>
      quiet_publish version rest

theorem quiet_stamp (version : UInt64) : ∀ refs, Preserves E R (stamp version refs)
  | [] => .pure ()
  | r :: rest => .bind (quiet_setHeader r _) fun _ => quiet_stamp version rest

theorem quiet_publishAll (x : TxnId) : Preserves E R (publishAll x) := by
  refine .get fun _ => .get fun _ => .get fun _ => .ite (.pure _) ?_
  exact .bind (quiet_publish ..) fun _ => .bind (quiet_stamp ..) fun _ =>
    .bind (.modify fun _ => Frame.hushed { Hushed.refl _ with } rfl) fun _ => .pure _

theorem quiet_noteCallback (last : Phase) (t : ThreadId) (key : Key) (callback : Option Callback) :
    Quiet (noteCallback last t key callback) := by
  have retable : ∀ table : Thread → CallbackTable Key Callback, Quiet
      (updateThread t fun th => th.setTable last (table th)) :=
    fun table => Quiet.thread t fun th => by unfold Thread.setTable; split <;> exact ⟨rfl, rfl, rfl⟩
  refine .get fun e => ?_
  split
  · exact .pure ()
  · refine .get fun _ => .ite ?_ (.pure ())
    split
    · exact retable _
    · refine .get fun _ => ?_
      split
      · exact .raise trivial
      · exact retable fun _ => _

omit [Blames E] in
theorem quiet_popTop [Complains E] (t : ThreadId) : Preserves E R (popTop t) := by
  refine .get fun e => ?_
  split
  · exact .raise (Complains.plain id)
  · exact .bind (.thread t fun _ => ⟨rfl, rfl, rfl, rfl, rfl⟩) fun _ => .pure _

theorem quiet_setWords (s : Span) : ∀ words, Preserves E R (setWords s words)
  | [] => .pure ()
  | (i, v) :: rest => .bind (quiet_setOld s i v) fun _ => quiet_setWords s rest

theorem Arena.ends_inspect (f : Memory → Except Fault α) (a : Arena) :
    Ends (inspect f) a (fun r a' => a' = a ∧ f a.memory = .ok r) fun _ a' => a' = a := by
  cases h : f a.memory with
  | ok =>
    rw [Ends, inspect, h]
    exact ⟨rfl, rfl⟩
  | error =>
    rw [Ends, inspect, h]

theorem Arena.walkFrom_keeps {visit : α → UInt64 → UInt64 → Memory → Except Fault (Visit α)}
    (keeps : ∀ b p size m v, visit b p size m = .ok v → v.free = false) (n : Nat) (off : UInt64)
    (b : α) (a : Arena) :
    Ends (walkFrom visit n off b) a (fun _ a' => a' = a) fun _ a' => a' = a := by
  induction n generalizing off b with
  | zero => exact rfl
  | succ n ih =>
    rw [walkFrom]
    refine .get_bind ?_
    split
    · refine .bind ((ends_inspect _ a).mono (fun size a' same => ?_) fun _ _ same => same)
      obtain ⟨rfl, -⟩ := same
      refine .bind ((ends_inspect _ a').mono (fun free a'' same => ?_) fun _ _ same => same)
      obtain ⟨rfl, -⟩ := same
      split
      · exact ih _ _
      · refine .bind ((ends_inspect _ a'').mono (fun v a3 same => ?_) fun _ _ same => same)
        obtain ⟨rfl, visited⟩ := same
        rw [if_neg (by rw [keeps _ _ _ _ _ visited]; exact Bool.false_ne_true)]
        split
        · exact rfl
        · exact ih _ _
    · exact rfl

theorem looks_walk {visit : α → UInt64 → UInt64 → Memory → Except Fault (Arena.Visit α)}
    (keeps : ∀ b p size m v, visit b p size m = .ok v → v.free = false) (init : α) :
    Looks E (onArena (Arena.walk visit init)) := by
  refine ⟨fun e => ?_⟩
  obtain ⟨tables, arena⟩ := e
  have ends : Ends (Arena.walk visit init) arena (fun _ a' => a' = arena) fun _ a' => a' = arena :=
    Arena.walkFrom_keeps keeps _ 0 init arena
  unfold Ends at ends
  split at ends
  · next a arena' run =>
    subst ends
    simp only [Ends, onArena, run]
  · next v arena' run =>
    subst ends
    simp only [Ends, onArena, run]
    exact ⟨Blames.badObject trivial, trivial⟩

theorem looks_auditHeaders : Looks E auditHeaders := by
  refine .get fun e => looks_walk (fun b p size m v visited => ?_) _
  obtain ⟨seen, bad⟩ := b
  cases read : m.read? (Word.index p) with
  | error =>
    simp only [read] at visited
    cases visited
  | ok =>
    simp only [read] at visited
    cases visited
    rfl

theorem looks_auditWeakrefs (allocated : List Ref) :
    ∀ weakrefs, Looks E (auditWeakrefs allocated weakrefs)
  | [] => .pure none
  | w :: rest =>
    .ite (.pure _) <| .bind (looks_oldObject w) fun s => .bind (looks_getOld s _) fun _ =>
    .ite (.pure _) (looks_auditWeakrefs allocated rest)

theorem looks_audit : Looks E audit := by
  refine .bind (.inspect _) fun damage => ?_
  split
  · exact .pure _
  · refine .bind looks_auditHeaders fun found => ?_
    split
    · exact .pure _
    · exact .get fun _ => looks_auditWeakrefs ..

end Ending

namespace Evacuation

theorem quiet_promote (y : Ref) : PreservesT E R (promote y) := by
  refine .get fun ev => .ite (.pure _)
    (.get fun _ => .get fun _ => .reads (looks_youngSpan ..) fun s =>
    .reads (looks_getYoung ..) fun h => .ite (.pure _) (.reads (looks_sizeIn _) fun size =>
      .bind (.lift (quiet_mallocOld size)) fun r => .ite (.bind (.modify _) fun _ => .pure _) ?_))
  refine .reads (looks_oldSpan r) fun _ => .getThe fun _ =>
    .bind (.lift (quiet_copyToOld ..)) fun _ =>
    .bind (.lift (quiet_setYoung ..)) fun _ => .bind (.lift (quiet_noteCreated ..)) fun _ =>
      .bind (.modify _) fun _ => .pure _

theorem quiet_promoteStack (t : ThreadId) :
    ∀ (i : Nat) (refs : List Ref), PreservesT E R (promoteStack t i refs)
  | _, [] => .pure ()
  | i, r :: rest => by
    have next := quiet_promoteStack t (i + 1) rest
    exact .ite (.bind (quiet_promote r) fun _ =>
      .bind (.lift (.thread t fun _ => ⟨rfl, rfl, rfl, rfl, rfl⟩)) fun _ => next) next

theorem quiet_promoteCopySlots (r : Ref) : ∀ slots, PreservesT E R (promoteCopySlots r slots)
  | [] => .pure ()
  | i :: rest => by
    have next := quiet_promoteCopySlots r rest
    exact .get fun _ => .getThe fun _ => .ite (.bind (quiet_promote _) fun _ =>
      .bind (.lift (quiet_setCopyWord ..)) fun _ => next) next

theorem quiet_promoteCopies : ∀ copies, PreservesT E R (promoteCopies copies)
  | [] => .pure ()
  | (r, _) :: rest => .getThe fun _ => .reads (looks_slotsIn ..) fun slots =>
    .bind (quiet_promoteCopySlots r slots) fun _ => quiet_promoteCopies rest

theorem quiet_promoteOldSlots (s : Span) : ∀ slots, PreservesT E R (promoteOldSlots s slots)
  | [] => .pure ()
  | i :: rest => by
    have next := quiet_promoteOldSlots s rest
    exact .reads (looks_getOld s i) fun _ => .ite (.bind (quiet_promote _) fun _ =>
      .bind (.lift (quiet_setOld ..)) fun _ => next) next

theorem quiet_scan (r : Ref) : PreservesT E R (scan r) :=
  .get fun _ => .ite (.pure ()) (.reads (looks_oldObject r) fun s => .get fun _ =>
    .reads (looks_slotsIn ..) fun slots => quiet_promoteOldSlots s slots)

theorem quiet_scanAll : ∀ refs, PreservesT E R (scanAll refs)
  | [] => .pure ()
  | r :: rest => .bind (quiet_scan r) fun _ => quiet_scanAll rest

theorem quiet_scanQueue : ∀ n, PreservesT E R (scanQueue n)
  | 0 => .throw _
  | n + 1 => by
    refine .get fun ev => ?_
    split
    · exact .pure ()
    · exact .bind (.modify _) fun _ => .bind (quiet_scan _) fun _ => quiet_scanQueue n

theorem quiet_promoteReachable (x : TxnId) (k : SegmentId) :
    PreservesT E R (promoteReachable x k) :=
  .getThe fun _ => .bind (quiet_promoteCopies _) fun _ => .getThe fun _ =>
    .bind (quiet_scanAll _) fun _ =>
    .getThe fun _ => quiet_scanQueue _

theorem quiet_fixWeakrefs (k : SegmentId) :
    ∀ (refs : List Ref) (live : Array Ref), Preserves E R (fixWeakrefs k refs live)
  | [], live => .pure live
  | w :: rest, live => by
    have next := quiet_fixWeakrefs k rest
    refine .get fun _ => .ite (next live)
      (.bind (looks_oldObject _).quiet fun s => .bind (looks_getOld ..).quiet fun _ => ?_)
    exact .ite (.get fun _ => .bind (quiet_setOld ..) fun _ => next _) (next _)

omit [Blames E] in
theorem quiet_fixCopies (x : TxnId) (k : SegmentId) : ∀ copies, Preserves E R (fixCopies x k copies)
  | [] => .pure ()
  | (r, words) :: rest => by
    have next := quiet_fixCopies x k rest
    exact .get fun _ => .ite (.get fun _ => .bind (quiet_setCopyWord ..) fun _ => next) next

theorem quiet_fixTargets (x : TxnId) (k : SegmentId) : Preserves E R (fixTargets x k) :=
  .get fun _ => .bind (quiet_fixWeakrefs ..) fun _ =>
    .bind (.segment k fun _ => ⟨rfl, rfl⟩) fun _ =>
    .get fun _ => quiet_fixCopies ..

omit [Blames E] in
theorem quiet_close (k : SegmentId) (ev : Evacuation) : Preserves E R (close k ev) :=
  .bind (quiet_resetNursery k) fun _ => .bind (.counters fun _ => rfl) fun _ => quiet_logInfo ..

end Evacuation

namespace Marking

theorem quiet_liftFault (f : Except Fault α) : PreservesT E R (liftFault f) := by
  cases f with
  | ok a => exact .pure a
  | error => exact .throw _

theorem quiet_mark (r : Ref) : PreservesT E R (mark r) :=
  .ite (.pure ()) (.get fun _ => .bind (quiet_liftFault _) fun _ => .ite (.modify _) (.pure ()))

theorem quiet_markAll : ∀ refs, PreservesT E R (markAll refs)
  | [] => .pure ()
  | r :: rest => .bind (quiet_mark r) fun _ => quiet_markAll rest

theorem quiet_markSlots (view : Engine → View) (weak : Bool) :
    PreservesT E R (markSlots view weak) :=
  .reads (looks_slotsIn ..) fun _ => .getThe fun _ => quiet_markAll _

theorem quiet_markCopies : ∀ copies, PreservesT E R (markCopies copies)
  | [] => .pure ()
  | (r, _) :: rest =>
    .bind (quiet_mark r) fun _ => .get fun _ => .bind (quiet_markSlots ..) fun _ =>
    quiet_markCopies rest

theorem quiet_markTxn (x : TxnId) : PreservesT E R (markTxn x) :=
  .getThe fun _ => .bind (quiet_markAll _) fun _ => .bind (quiet_markAll _) fun _ =>
    .bind (quiet_markAll _) fun _ =>
    quiet_markCopies _

theorem quiet_markNursery (k : SegmentId) : ∀ offsets, PreservesT E R (markNursery k offsets)
  | [] => .pure ()
  | off :: rest => by
    have next := quiet_markNursery k rest
    refine .getThe fun e => ?_
    split
    · exact .reads (looks_sizeIn _) fun _ => .get fun _ => .bind (quiet_markSlots ..) fun _ => next
    · exact next

theorem quiet_markNurseries :
    ∀ (k : Nat) (segments : List Segment), PreservesT E R (markNurseries k segments)
  | _, [] => .pure ()
  | k, s :: rest => by
    have next := quiet_markNurseries (k + 1) rest
    exact .ite (.bind (quiet_markNursery ..) fun _ => next) next

theorem quiet_markQueue : ∀ n, PreservesT E R (markQueue n)
  | 0 => .throw _
  | n + 1 => by
    refine .get fun m => ?_
    split
    · exact .pure ()
    · exact .bind (.modify _) fun _ => .reads (looks_oldObject _) fun _ => .get fun _ =>
        .bind (quiet_markSlots ..) fun _ => quiet_markQueue n

theorem quiet_markReachable : PreservesT E R markReachable :=
  .getThe fun _ => .bind (quiet_markNurseries ..) fun _ => .get fun _ => quiet_markQueue _

theorem quiet_clearCommitted : ∀ refs, PreservesT E R (clearCommitted refs)
  | [] => .pure []
  | w :: rest => by
    have next := quiet_clearCommitted rest
    refine .get fun _ => .bind (quiet_liftFault _) fun _ =>
      .ite next (.reads (looks_oldObject w) fun s =>
      .reads (looks_getOld ..) fun _ => .get fun _ => .bind (quiet_liftFault _) fun _ => ?_)
    exact .ite (.bind (.lift (quiet_setOld ..)) fun _ => .bind next fun _ => .pure _)
      (.bind next fun _ => .pure _)

theorem quiet_clearPrivate (k : SegmentId) : ∀ refs, PreservesT E R (clearPrivate k refs)
  | [] => .pure ()
  | w :: rest => by
    have next := quiet_clearPrivate k rest
    refine .ite (.getThe fun _ => .reads (looks_sizeIn _) fun _ =>
      .reads (looks_getYoung ..) fun _ =>
      .get fun _ => .bind (quiet_liftFault _) fun _ => ?_) (.reads (looks_oldObject w) fun s =>
      .reads (looks_getOld ..) fun _ => .get fun _ => .bind (quiet_liftFault _) fun _ => ?_)
    · exact .ite (.bind (.lift (quiet_setYoung ..)) fun _ => next) next
    · exact .ite (.bind (.lift (quiet_setOld ..)) fun _ => next) next

theorem quiet_clearCopies (x : TxnId) : ∀ copies, PreservesT E R (clearCopies x copies)
  | [] => .pure ()
  | (r, words) :: rest => by
    have next := quiet_clearCopies x rest
    exact .get fun _ => .ite (.get fun _ => .bind (quiet_liftFault _) fun _ =>
      .ite (.bind (.lift (quiet_setCopyWord ..)) fun _ => next) next) next

theorem quiet_clearSegments :
    ∀ (k : Nat) (segments : List Segment), PreservesT E R (clearSegments k segments)
  | _, [] => .pure ()
  | k, s :: rest => by
    have next := quiet_clearSegments (k + 1) rest
    refine .bind (quiet_clearPrivate ..) fun _ => ?_
    split
    · refine .getThe fun _ => ?_
      split
      · exact .getThe fun _ => .bind (quiet_clearCopies ..) fun _ => next
      · exact next
    · exact next

theorem quiet_clearWeakrefs : PreservesT E R clearWeakrefs :=
  .getThe fun _ => .bind (quiet_clearCommitted _) fun _ =>
    .bind (.modifyThe fun _ => Frame.hushed { Hushed.refl _ with } rfl) fun _ =>
      .getThe fun _ => .bind (quiet_clearSegments ..) fun _ => .pure _

theorem quiet_releaseAbove : Preserves E R releaseAbove := by
  refine .get fun _ => .get fun _ => .get fun _ => ?_
  split
  · exact quiet_logInfo ..
  · exact .arena _

end Marking

theorem quiet_sweepUnmarked (m : Marking) : Preserves E R (sweepUnmarked m) :=
  .bind (Marking.quiet_clearWeakrefs.run m) fun _ => .bind (.arena _) fun _ =>
    .bind (.arena _) fun _ =>
    .bind Marking.quiet_releaseAbove fun _ => .get fun _ => .get fun _ =>
      .bind (.modify fun _ => Frame.hushed { Hushed.refl _ with } rfl) fun _ =>
        .bind (.counters fun _ => rfl) fun _ => quiet_logInfo ..

end TxHeap
