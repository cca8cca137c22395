import TxHeap.Proofs.Call.Lifecycle

/-! Requests to an engine, and runs. Calls are begun, woken and resumed in any order. A thread whose
call waits does nothing else, but a callback may make calls. -/

namespace TxHeap
open Engine

inductive Request
  | register
  | unregister (t : ThreadId)
  | push (t : ThreadId) (r : Ref)
  | pop (t : ThreadId)
  | root (t : ThreadId) (i : Int)
  | setRoot (t : ThreadId) (i : Int) (r : Ref)
  | onAbort (t : ThreadId) (key : Key) (callback : Option Callback)
  | onCommit (t : ThreadId) (key : Key) (callback : Option Callback)
  | safePoint (t : ThreadId)
  | collect (t : ThreadId)
  | begin (t : ThreadId)
  | load (x : TxnId) (r : Ref) (w : Int)
  | store (x : TxnId) (r : Ref) (w : Int) (v : UInt64)
  | alloc (x : TxnId) (size : UInt64)
  | allocWeak (x : TxnId) (size : UInt64) (target : Ref)
  | becomeInevitable (x : TxnId) (reason : String)
  | abort (x : TxnId)
  /-- The function run in the transaction failed. -/
  | endFailed (x : TxnId)
  | commit (x : TxnId)
  | allocPrebuilt (size : UInt64) (words : List (Nat × UInt64))

namespace Request

def Answer : Request → Type
  | register => ThreadId
  | pop _ => Ref
  | root _ _ => Ref
  | begin _ => TxnId
  | load .. => UInt64
  | alloc .. => Ref
  | allocWeak .. => Ref
  | endFailed _ => Option Error
  | commit _ => Option Error
  | allocPrebuilt .. => Except Error Ref
  | _ => Unit

def call : (q : Request) → EngineCall q.Answer
  | register => TxHeap.register
  | unregister t => TxHeap.unregister t
  | push t r => TxHeap.push t r
  | pop t => TxHeap.pop t
  | root t i => TxHeap.root t i
  | setRoot t i r => TxHeap.setRoot t i r
  | onAbort t key callback => liftM (TxHeap.onAbort t key callback)
  | onCommit t key callback => liftM (TxHeap.onCommit t key callback)
  | safePoint t => poll (.thread t)
  | collect t => TxHeap.collect t
  | begin t => TxHeap.begin t
  | load x r w => TxHeap.load x r w
  | store x r w v => TxHeap.store x r w v
  | alloc x size => TxHeap.alloc x size
  | allocWeak x size target => TxHeap.allocWeak x size target
  | becomeInevitable x reason => TxHeap.becomeInevitable x reason
  | abort x => TxHeap.abort x
  | endFailed x => TxHeap.endFailed x
  | commit x => TxHeap.commit x
  | allocPrebuilt size words => TxHeap.allocPrebuilt size words

def actor (e : Engine) : Request → Actor
  | register => ⟨none, none⟩
  | allocPrebuilt .. => ⟨none, none⟩
  | unregister t => ⟨some t, none⟩
  | collect t => ⟨some t, none⟩
  | begin t => ⟨some t, none⟩
  | push t _ => ⟨some t, (e.thread t).txn⟩
  | pop t => ⟨some t, (e.thread t).txn⟩
  | root t _ => ⟨some t, (e.thread t).txn⟩
  | setRoot t _ _ => ⟨some t, (e.thread t).txn⟩
  | onAbort t _ _ => ⟨some t, (e.thread t).txn⟩
  | onCommit t _ _ => ⟨some t, (e.thread t).txn⟩
  | safePoint t => ⟨some t, (e.thread t).txn⟩
  | load x _ _ => e.actor x
  | store x _ _ _ => e.actor x
  | alloc x _ => e.actor x
  | allocWeak x _ _ => e.actor x
  | becomeInevitable x _ => e.actor x
  | abort x => e.actor x
  | endFailed x => e.actor x
  | commit x => e.actor x

/-- The rules for arguments: references are ones that the thread may use, and writes are inside of
objects. -/
def Fit (e : Engine) : Request → Prop
  | push t r => e.Usable t r
  | setRoot t i r => e.Usable t r ∧ 0 ≤ i ∧ i.toNat < (e.thread t).stack.size
  | load x r _ => e.Usable (e.txn x).thread r
  | store x r w _ => e.Usable (e.txn x).thread r ∧ e.Inside x r w
  | allocWeak x _ target => e.Usable (e.txn x).thread target
  | allocPrebuilt size words => ∀ n, e.roundSize? size = some n → ∀ p ∈ words, p.1 < (n / 8).toNat
  | _ => True

instance (e : Engine) : (q : Request) → Decidable (q.Fit e)
  | push t r => inferInstanceAs (Decidable (e.Usable t r))
  | setRoot .. => inferInstanceAs (Decidable (_ ∧ _))
  | load x r _ => inferInstanceAs (Decidable (e.Usable (e.txn x).thread r))
  | store .. => inferInstanceAs (Decidable (_ ∧ _))
  | allocWeak x _ target => inferInstanceAs (Decidable (e.Usable (e.txn x).thread target))
  | allocPrebuilt size words =>
    Option.decidableForallMem (p := fun n : UInt64 => ∀ p ∈ words, p.1 < (n / 8).toNat)
      (e.roundSize? size)
  | register | unregister _ | pop _ | root .. | onAbort .. | onCommit .. | safePoint
      _ | collect _ | begin _
  | alloc .. | becomeInevitable .. | abort _ | endFailed _ | commit _ => .isTrue trivial

def Post : (q : Request) → Engine → Post q.Answer
  | load x r w, e, out, e' => ∀ v : UInt64, out = .ok v → e.Active x ∧ Reads x r w e v e'
  | store x r w _, e, _, e' => e.Active x → e'.Active x → Stores x r w e e'
  | _, _, _, _ => True

theorem sound {e : Engine} (inv : e.Inv) (q : Request) (fit : q.Fit e) :
    Sound (q.actor e) (fun a out b => Stretch (q.actor e) a b ∧ q.Post a out b) e (q.call e) := by
  have only : ∀ {α : Type} {who : Actor} {c : Course Engine α}, Sound who
      (fun a _ b => Stretch who a b) e c →
      Sound who (fun a _ b => Stretch who a b ∧ True) e c :=
        fun h => h.mono fun _ _ _ stretch => ⟨stretch, trivial⟩
  cases q with
  | register => exact only ((sound_register inv rfl).mono fun _ _ _ h => h.1)
  | unregister => exact only (sound_unregister inv rfl)
  | push => exact only (sound_push inv rfl fit)
  | pop => exact only (sound_pop inv rfl)
  | root t i => exact only (sound_root inv i)
  | setRoot => exact only (sound_setRoot inv rfl fit.1 fit.2.1 fit.2.2)
  | onAbort t key callback => exact only (sound_noteCallback inv rfl .aborted key callback)
  | onCommit t key callback => exact only (sound_noteCallback inv rfl .committed key callback)
  | safePoint t => exact only (sound_safePoint inv (.thread t))
  | collect => exact only (sound_collect inv rfl rfl)
  | begin => exact only (sound_begin inv rfl)
  | load => exact sound_load inv rfl fit
  | store => exact sound_store inv rfl fit.1 fit.2
  | alloc x size => exact only (sound_alloc inv rfl size)
  | allocWeak x size => exact only (sound_allocWeak inv rfl size fit)
  | becomeInevitable x reason => exact only (sound_becomeInevitable inv rfl reason)
  | abort => exact only (sound_abort inv rfl)
  | endFailed => exact only (sound_endFailed inv rfl)
  | commit => exact only (sound_commit inv rfl)
  | allocPrebuilt => exact only (sound_allocPrebuilt inv rfl fit)

end Request

variable {p : Pending} {e : Engine} {move : Move}

structure Pending where
  request : Request
  actor : Actor
  course : Course Engine request.Answer

namespace Pending

def Waits (p : Pending) : Prop :=
  match p.course with
  | .waiting .. => True
  | _ => False

instance : (p : Pending) → Decidable p.Waits
  | ⟨_, _, .waiting ..⟩ => .isTrue trivial
  | ⟨_, _, .calling ..⟩ | ⟨_, _, .done ..⟩ | ⟨_, _, .raised ..⟩ => .isFalse id

def Apart (p q : Pending) : Prop :=
  p.Waits → q.Waits → ∀ t, p.actor.thread = some t → q.actor.thread ≠ some t

end Pending

structure Ended where
  request : Request
  outcome : Except Raise request.Answer

inductive Move
  | start (q : Request)
  /-- Looks whether the `i`th call can go on. -/
  | wake (i : Nat)
  /-- The callback that runs for the `i`th call returns. -/
  | answer (i : Nat) (r : Except Raise Unit)

structure Machine where
  engine : Engine
  pending : List Pending := []

namespace Machine

def advance (others : List Pending) (who : Actor) (q : Request) (c : Course Engine q.Answer) :
    Machine × Option Ended :=
  match c with
  | .done a e => (⟨e, others⟩, some ⟨q, .ok a⟩)
  | .raised v e => (⟨e, others⟩, some ⟨q, .error v⟩)
  | .waiting w e resume => (⟨e, ⟨q, who, .waiting w e resume⟩ :: others⟩, none)
  | .calling f e resume => (⟨e, ⟨q, who, .calling f e resume⟩ :: others⟩, none)

def woken {α : Type} (w : Wait) (resume : Engine → Course Engine α) (e : Engine) :
    Course Engine α :=
  match w.wake e with
  | (e, none) => resume e
  | (e, some w) => .waiting w e resume

def step (m : Machine) : Move → Machine × Option Ended
  | .start q => advance m.pending (q.actor m.engine) q (q.call m.engine)
  | .wake i =>
    match m.pending[i]? with
    | some ⟨q, who, .waiting w _ resume⟩ =>
      if w.ready m.engine then advance (m.pending.eraseIdx i) who q (woken w resume m.engine)
        else (m, none)
    | _ => (m, none)
  | .answer i r =>
    match m.pending[i]? with
    | some ⟨q, who, .calling _ _ resume⟩ => advance (m.pending.eraseIdx i) who q (resume r m.engine)
    | _ => (m, none)

def mover (m : Machine) : Move → Actor
  | .start q => q.actor m.engine
  | .wake i => (m.pending[i]?.map (·.actor)).getD ⟨none, none⟩
  | .answer i _ => (m.pending[i]?.map (·.actor)).getD ⟨none, none⟩

def Free (m : Machine) (who : Actor) : Prop :=
  ∀ p ∈ m.pending, p.Waits → ∀ t, p.actor.thread = some t → who.thread ≠ some t

/-- Who may move: a thread that is known, none of whose calls waits, or the one that waits. -/
def Allows (m : Machine) : Move → Prop
  | .start q =>
    q.Fit m.engine ∧ (∀ t, (q.actor m.engine).thread = some t → t < m.engine.threads.size) ∧
    m.Free (q.actor m.engine)
  | .wake _ => True
  | .answer i r => m.Free (m.mover (.answer i r))

instance (m : Machine) (who : Actor) : Decidable (m.Free who) :=
  inferInstanceAs
    (Decidable (∀ p ∈ m.pending, p.Waits → ∀ t, p.actor.thread = some t → who.thread ≠ some t))

instance (m : Machine) : (move : Move) → Decidable (m.Allows move)
  | .start q => inferInstanceAs (Decidable (_ ∧ (∀ t, (q.actor m.engine).thread = some t → _) ∧ _))
  | .wake _ => .isTrue trivial
  | .answer .. => inferInstanceAs (Decidable (m.Free _))

def plays (m : Machine) (moves : List Move) : Nat → Machine
  | 0 => m
  | n + 1 => ((m.plays moves n).step (moves.getD n (.wake 0))).1

end Machine

namespace Engine
variable {who who' : Actor} {e' : Engine} {x : TxnId} {t : ThreadId}

theorem LifeOk.elsewhere (ok : e.LifeOk) (ht : t ≠ (e.txn x).thread)
    (thread : ∀ u, u ≠ (e.txn x).thread → e'.thread u = e.thread u)
    (txn : ∀ y, y ≠ x → e'.txn y = e.txn y) :
    e'.thread t = e.thread t ∧ ∀ y, (e.thread t).txn = some y → e'.txn y = e.txn y := by
  refine ⟨thread t ht, fun y hy => txn y ?_⟩
  rintro rfl
  exact ht (ok.txn t y hy).2.1.symm

theorem Settles.elsewhere (h : Settles e e') (t : ThreadId) :
    e'.thread t = e.thread t ∧ ∀ y, (e.txn y).Blanks (e'.txn y) := by
  obtain alike | ⟨a, b, before, collects, after⟩ := h
  · exact ⟨alike.thread t, fun y => by rw [alike.txn]; exact .refl _⟩
  · refine ⟨by rw [after.thread, collects.sameThread, before.thread], fun y => ?_⟩
    rw [after.txn, ← before.txn]
    exact collects.txn y

theorem Deed.elsewhere (h : Deed who e e') (ok : e.Core) (ht : who.thread ≠ some t)
    (known : t < e.threads.size) :
    e'.thread t = e.thread t ∧ ∀ y, (e.thread t).txn = some y → (e.txn y).Blanks (e'.txn y) := by
  have apart : ∀ x, e.Runs who x → t ≠ (e.txn x).thread :=
    fun x mine heq => ht (mine.thread.trans (by rw [heq]))
  have same : (e'.thread t = e.thread t ∧ ∀ y, (e.thread t).txn = some y → e'.txn y = e.txn y) →
      e'.thread t = e.thread t ∧ ∀ y, (e.thread t).txn = some y →
        (e.txn y).Blanks (e'.txn y) := fun h =>
    ⟨h.1, fun y hy => by rw [h.2 y hy]; exact .refl _⟩
  cases h with
  | nothing h => exact same ⟨h.thread t, fun y _ => h.txn y⟩
  | work x mine h => exact same (ok.life.elsewhere (apart x mine) h.thread h.txn)
  | abort x m mine works core h =>
    have first := ok.life.elsewhere (apart x mine) works.thread works.txn
    have second := core.life.elsewhere
      (by rw [works.own.thread]; exact apart x mine) h.leaves.thread h.leaves.txn
    exact same ⟨second.1.trans first.1, fun y hy => (second.2 y (by rwa [first.1])).trans
      (first.2 y hy)⟩
  | commit x m b mine minor valid h after =>
    have works := minor.serves.works
    have first := ok.life.elsewhere (apart x mine) works.thread works.txn
    have second := minor.serves.core.life.elsewhere
      (by rw [works.own.thread]; exact apart x mine) h.leaves.thread h.leaves.txn
    have third := after.elsewhere t
    refine ⟨third.1.trans (second.1.trans first.1), fun y hy => ?_⟩
    rw [← first.2 y hy, ← second.2 y (by rwa [first.1])]
    exact third.2 y
  | promote x mine h =>
    refine same ⟨h.thread t (apart x mine), fun y hy => h.txn y ?_⟩
    rintro rfl
    exact apart y mine (ok.life.txn t y hy).2.1.symm
  | begin u x k mine h =>
    refine same ⟨h.thread t fun heq => ht (heq ▸ mine), fun y hy => h.txn y ?_⟩
    rintro rfl
    exact Nat.lt_irrefl _ (h.fresh ▸ active_lt (ok.life.txn t y hy).1)
  | idle u mine h =>
    refine same ⟨h.thread t ?_, fun y _ => h.sameTxn y⟩
    rintro rfl
    obtain mine | ⟨-, unknown⟩ := mine
    · exact ht mine
    · exact Nat.lt_irrefl _ (known.trans_le unknown)
  | prebuild r n mine h => exact same ⟨h.sameThread t, fun y _ => h.sameTxn y⟩
  | collect mine h => exact ⟨h.sameThread t, fun y _ => h.txn y⟩

theorem Stretch.rely (h : Stretch who' e e') (ok : e.Core)
    (apart : ∀ t, who.thread = some t → who'.thread ≠ some t ∧ t < e.threads.size) :
    Rely who e e' := by
  obtain ⟨a, b, before, deed, after⟩ := h.deed
  have other : ∀ t, who.thread = some t → b.thread t = a.thread t ∧
      ∀ y, (a.thread t).txn = some y → (a.txn y).Blanks (b.txn y) := fun t ht =>
    deed.elsewhere (ok.alike before) (apart t ht).1 (by rw [before.threads]; exact (apart t ht).2)
  refine ⟨h.locks, h.ages, fun t ht => ?_, fun t x ht hx => ?_⟩
  · rw [after.thread, (other t ht).1, before.thread]
  · rw [after.txn, ← before.txn]
    exact (other t ht).2 x (by rwa [before.thread])

theorem Rely.trans {e'' : Engine} (h : Rely who e e') (h' : Rely who e' e'') : Rely who e e'' where
  locks held := List.Subset.trans (h.locks held) (h'.locks (h.locks held held))
  ages := h.ages.trans h'.ages
  thread t ht := (h'.thread t ht).trans (h.thread t ht)
  txn t x ht hx := (h.txn t x ht hx).trans (h'.txn t x ht (by rwa [h.thread t ht]))

theorem Alike.rely (h : Alike e e') (locked : e'.locked = e.locked) : Rely who e e' where
  locks _ := by rw [locked]; exact fun _ hm => hm
  ages := h.ages
  thread t _ := h.thread t
  txn t x _ _ := by rw [h.txn]; exact .refl _

end Engine

open Engine

/-- What is kept of a call that has stopped in `e1`, in a later state `e`. -/
def Course.Lasts {α : Type} (who : Actor) (e : Engine) : Course Engine α → Prop
  | .waiting _ e1 _ => Rely who e1 e
  | .calling _ e1 _ => Ages e1 e
  | _ => False

structure Pending.Ok (p : Pending) (e : Engine) : Prop where
  known : ∀ t, p.actor.thread = some t → t < e.threads.size
  sound : ∃ e0, Sound p.actor
    (fun a out b => Stretch p.actor a b ∧ p.request.Post a out b) e0 p.course
  lasts : p.course.Lasts p.actor e

theorem Pending.Ok.step {who : Actor} {e' : Engine} (ok : p.Ok e) (core : e.Core)
    (h : Stretch who e e')
    (apart : p.Waits → ∀ t, p.actor.thread = some t → who.thread ≠ some t) : p.Ok e' where
  known t ht := (ok.known t ht).trans_le h.ages.threads_size
  sound := ok.sound
  lasts := by
    obtain ⟨q, actor, course⟩ := p
    have lasts := ok.lasts
    cases course with
    | done | raised => exact lasts.elim
    | waiting =>
      exact .trans lasts (h.rely core fun t ht => ⟨apart trivial t ht, ok.known t ht⟩)
    | calling => exact .trans lasts h.ages

namespace Machine

structure Ok (m : Machine) : Prop where
  inv : m.engine.Inv
  pending : ∀ p ∈ m.pending, p.Ok m.engine
  apart : m.pending.Pairwise Pending.Apart

variable {m : Machine} {others : List Pending} {who : Actor} {q : Request}
  {c : Course Engine q.Answer}

theorem advance_spec (core : e.Core) (known : ∀ t, who.thread = some t → t < e.threads.size)
    (sound : Sound who (fun a out b => Stretch who a b ∧ q.Post a out b) e c)
    (ok : ∀ p ∈ others, p.Ok e) (apart : others.Pairwise Pending.Apart)
    (free : ∀ p ∈ others, p.Waits → ∀ t, p.actor.thread = some t → who.thread ≠ some t) :
    Stretch who e (advance others who q c).1.engine ∧
      ((advance others who q c).1.engine.Inv → (advance others who q c).1.Ok) ∧
      ∀ ended, (advance others who q c).2 = some ended → ended.request = q ∧
        ended.request.Post e ended.outcome (advance others who q c).1.engine := by
  have rest : ∀ {e'}, Stretch who e e' → ∀ p ∈ others, p.Ok e' := fun stretch p hp =>
    (ok p hp).step core stretch (free p hp)
  have stops : ∀ {e'} {c' : Course Engine q.Answer}, Stretch who e e' → c'.Lasts who e' →
      Sound who (fun a out b => Stretch who a b ∧ q.Post a out b) e c' → e'.Inv →
      Ok ⟨e', ⟨q, who, c'⟩ :: others⟩ := fun {e' c'} stretch lasts sound inv =>
    { inv := inv
      pending := fun p hp => by
        obtain rfl | hp := List.mem_cons.1 hp
        · exact ⟨fun t ht => (known t ht).trans_le stretch.ages.threads_size, ⟨e, sound⟩, lasts⟩
        · exact rest stretch p hp
      apart := List.pairwise_cons.2 ⟨fun p hp _ waits t ht heq => free p hp waits t heq ht, apart⟩ }
  cases c with
  | done | raised =>
    refine ⟨sound.1, fun inv => ⟨inv, rest sound.1, apart⟩, ?_⟩
    rintro _ ⟨⟩
    exact ⟨rfl, sound.2⟩
  | waiting w e' =>
    exact ⟨sound.1, stops sound.1 ((Alike.refl e').rely rfl) sound,
      fun _ h => (Option.some_ne_none _ h.symm).elim⟩
  | calling f e' =>
    exact ⟨sound.1, stops sound.1 (Alike.refl e').ages sound,
      fun _ h => (Option.some_ne_none _ h.symm).elim⟩

theorem sound_woken {α : Type} {Q : Engine → Post α} {w : Wait} {e0 e1 : Engine}
    {resume : Engine → Course Engine α} (inv : e.Inv)
    (sound : Sound who Q e0 (.waiting w e1 resume))
    (lasts : Rely who e1 e) (ready : w.ready e = true) : Sound who Q e (woken w resume e) := by
  have comes := Wait.wake_spec ready
  unfold woken
  generalize w.wake e = p at comes
  obtain ⟨e', _ | w'⟩ := p
  · exact sound.2 e e' inv lasts comes
  · obtain ⟨lull, locked, grants⟩ := comes
    have amid : Amid who .nothing [] e e' := (Amid.rest inv).lull lull locked
    refine ⟨amid.stretch, fun a b inv' rely h => ?_⟩
    exact sound.2 a b inv' (lasts.trans ((lull.alike.rely locked).trans rely)) (grants a b h)

theorem Pending.apart_comm {q : Pending} (h : p.Apart q) : q.Apart p :=
  fun hq hp t ht heq => h hp hq t heq ht

theorem erased {i : Nat} (apart : m.pending.Pairwise Pending.Apart)
    (here : m.pending[i]? = some p) :
    (m.pending.eraseIdx i).Pairwise Pending.Apart ∧ (∀ q ∈ m.pending.eraseIdx i, q ∈ m.pending) ∧
      ∀ q ∈ m.pending.eraseIdx i, p.Apart q := by
  obtain ⟨hi, rfl⟩ := List.getElem?_eq_some_iff.1 here
  have perm := List.getElem_cons_eraseIdx_perm hi
  have all := (perm.symm.pairwise_iff fun h => Pending.apart_comm h).1 apart
  exact ⟨(List.pairwise_cons.1 all).2, fun q hq => perm.subset (.tail _ hq),
    (List.pairwise_cons.1 all).1⟩

/-- One step: the engine goes through a stretch of the one who moves, all stays in order, and a call
that ends keeps its promise. -/
structure Steps (m : Machine) (move : Move) : Prop where
  stretch : Stretch (m.mover move) m.engine (m.step move).1.engine
  ok : (m.step move).1.engine.Inv → (m.step move).1.Ok
  post : ∀ ended, (m.step move).2 = some ended →
    ended.request.Post m.engine ended.outcome (m.step move).1.engine

theorem steps_idle (ok : m.Ok) (same : m.step move = (m, none)) : m.Steps move where
  stretch := by rw [same]; exact .refl ok.inv
  ok _ := by rwa [same]
  post _ h := by rw [same] at h; cases h

theorem steps_advance (ok : m.Ok) (known : ∀ t, who.thread = some t → t < m.engine.threads.size)
    (sound : Sound who (fun a out b => Stretch who a b ∧ q.Post a out b) m.engine c)
    (sub : ∀ p ∈ others, p ∈ m.pending) (apart : others.Pairwise Pending.Apart)
    (free : ∀ p ∈ others, p.Waits → ∀ t, p.actor.thread = some t → who.thread ≠ some t)
    (mover : m.mover move = who) (run : m.step move = advance others who q c) : m.Steps move := by
  obtain ⟨stretch, kept, post⟩ :=
    advance_spec ok.inv.core known sound (fun p hp => ok.pending p (sub p hp)) apart free
  rw [← run] at stretch kept post
  subst mover
  exact ⟨stretch, kept, fun ended h => (post ended h).2⟩

theorem Ok.step_spec (ok : m.Ok) (allowed : m.Allows move) : m.Steps move := by
  cases move with
  | start q =>
    exact steps_advance ok allowed.2.1 (q.sound ok.inv allowed.1)
      (fun _ hp => hp) ok.apart allowed.2.2 rfl rfl
  | wake i =>
    cases here : m.pending[i]? with
    | none => exact steps_idle ok (by rw [step, here])
    | some p =>
      obtain ⟨q, who, course⟩ := p
      have pending := ok.pending _ (List.mem_of_getElem? here)
      obtain ⟨apart, sub, others⟩ := erased ok.apart here
      cases course with
      | done | raised => exact pending.lasts.elim
      | calling => exact steps_idle ok (by rw [step, here])
      | waiting w =>
        by_cases ready : w.ready m.engine = true
        · obtain ⟨e0, sound⟩ := pending.sound
          refine steps_advance ok pending.known
            (sound_woken ok.inv sound pending.lasts ready) sub apart
            (fun p hp waits t ht heq => others p hp trivial waits t heq ht) ?_ ?_
          · rw [mover, here]
            rfl
          · rw [step, here]
            exact if_pos ready
        · refine steps_idle ok ?_
          rw [step, here]
          exact if_neg ready
  | answer i r =>
    cases here : m.pending[i]? with
    | none => exact steps_idle ok (by rw [step, here])
    | some p =>
      obtain ⟨q, who, course⟩ := p
      have pending := ok.pending _ (List.mem_of_getElem? here)
      obtain ⟨apart, sub, -⟩ := erased ok.apart here
      have mine : m.mover (.answer i r) = who := by
        rw [mover, here]
        rfl
      cases course with
      | done | raised => exact pending.lasts.elim
      | waiting => exact steps_idle ok (by rw [step, here])
      | calling =>
        obtain ⟨e0, sound⟩ := pending.sound
        refine steps_advance ok pending.known
          (sound.2 r m.engine ok.inv pending.lasts) sub apart ?_ mine ?_
        · rw [← mine]
          exact fun p hp => allowed p (sub p hp)
        · rw [step, here]

end Machine

namespace Engine
variable {who : Actor} {e' : Engine} {x : TxnId}

theorem Settles.clock (h : Settles e e') : e'.clock = e.clock := by
  obtain alike | ⟨a, b, before, collects, after⟩ := h
  · exact alike.clock
  · rw [after.clock, collects.clock, before.clock]

theorem Commits.clock_cases (h : Commits x e e') : e'.clock = e.clock ∨ e'.clock = e.clock + 1 := by
  rw [h.clock]
  split
  · exact .inl rfl
  · exact .inr rfl

theorem Deed.clock (h : Deed who e e') : e'.clock = e.clock ∨
    e'.clock = e.clock + 1 ∧ ∃ x, e.Active x ∧ (e'.txn x).phase = .committed := by
  cases h with
  | nothing h | promote x mine h | begin t x k mine h | idle t mine h | prebuild r n mine h
  | collect mine h =>
    exact .inl h.clock
  | work x mine h => exact .inl h.steady.clock
  | abort x m mine works ok h => exact .inl (h.clock.trans works.steady.clock)
  | commit x m b mine minor valid h after =>
    have clock := h.clock_cases
    rw [← after.clock, minor.serves.works.steady.clock] at clock
    exact clock.imp_right fun next =>
      ⟨next, x, mine.1, by rw [((after.elsewhere 0).2 x).keeps.phase, h.leaves.own.1]⟩

theorem Stretch.clock (h : Stretch who e e') : e'.clock = e.clock ∨ e'.clock = e.clock + 1 := by
  obtain ⟨a, b, before, deed, after⟩ := h.deed
  rw [after.clock, ← before.clock]
  exact deed.clock.imp_right And.left

end Engine

/-- A run of `N` steps from a new engine. There are fewer steps than versions, and the layout sees
nothing but what it is shown. -/
structure Run (N : Nat) (ρ : Nat → Machine) (move : Nat → Move) : Prop where
  new : (ρ 0).engine.New
  honest : (ρ 0).engine.layout.Honest
  quiet : (ρ 0).pending = []
  allowed : ∀ n < N, (ρ n).Allows (move n)
  step : ∀ n < N, ρ (n + 1) = ((ρ n).step (move n)).1
  short : N + 1 < 2 ^ 63

theorem run_plays (moves : List Move) (new : e.New) (honest : e.layout.Honest)
    (allowed : ∀ n < moves.length, (Machine.plays ⟨e, []⟩ moves n).Allows (moves.getD n (.wake 0)))
    (short : moves.length + 1 < 2 ^ 63) :
    Run moves.length (Machine.plays ⟨e, []⟩ moves) (moves.getD · (.wake 0)) :=
  ⟨new, honest, rfl, allowed, fun _ _ => rfl, short⟩

namespace Run
variable {N n : Nat} {ρ : Nat → Machine} {move : Nat → Move} (run : Run N ρ move)
include run

theorem ok_clock (hn : n ≤ N) : (ρ n).Ok ∧ (ρ n).engine.clock.toNat ≤ n := by
  induction n with
  | zero =>
    refine ⟨⟨run.new.inv run.honest, ?_, ?_⟩, ?_⟩
    · rw [run.quiet]
      exact nofun
    · rw [run.quiet]
      exact .nil
    · rw [run.new.clock]
      exact Nat.le_refl 0
  | succ n ih =>
    obtain ⟨ok, late⟩ := ih (Nat.le_of_succ_le hn)
    have steps := ok.step_spec (run.allowed n hn)
    have short := run.short
    have later : (ρ (n + 1)).engine.clock.toNat ≤ n + 1 := by
      rw [run.step n hn]
      obtain same | next := steps.stretch.clock
      · rw [same]
        exact Nat.le_succ_of_le late
      · rw [next, UInt64.toNat_add]
        exact (Nat.mod_le _ _).trans (Nat.succ_le_succ late)
    refine ⟨?_, later⟩
    rw [run.step n hn] at later ⊢
    exact steps.ok (steps.stretch.inv (by omega))

theorem ok (hn : n ≤ N) : (ρ n).Ok := (run.ok_clock hn).1

theorem steps (hn : n < N) : (ρ n).Steps (move n) := (run.ok hn.le).step_spec (run.allowed n hn)

theorem core (hn : n ≤ N) : (ρ n).engine.Core := (run.ok hn).inv.core

theorem stretch (hn : n < N) : Stretch ((ρ n).mover (move n)) (ρ n).engine (ρ (n + 1)).engine := by
  rw [run.step n hn]
  exact (run.steps hn).stretch

theorem post (hn : n < N) {ended : Ended} (h : ((ρ n).step (move n)).2 = some ended) :
    ended.request.Post (ρ n).engine ended.outcome (ρ (n + 1)).engine := by
  rw [run.step n hn]
  exact (run.steps hn).post ended h

end Run
end TxHeap
