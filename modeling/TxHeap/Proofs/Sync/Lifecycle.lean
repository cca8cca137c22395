import TxHeap.Proofs.Call.Lifecycle
import TxHeap.Proofs.Sync.Ending

/-! The life of a transaction, act by act: it takes a free segment, may take the inevitable slot,
and lets both go when it ends. -/

namespace TxHeap
open Engine TxHeap.Action

variable {size : UInt64}

variable {α β : Type} {σ : Stance} {base : List Mutex} {e e' : Engine} {x : TxnId} {t : ThreadId}
  {r : Ref} {w : Int}
  {P : Stance → Post β}

structure Engine.Minding (σ : Stance) (x : TxnId) (e : Engine) : Prop where
  outside : σ.Outside [] e
  engaged : Engaged σ x e

namespace Engine.Minding
section
variable (h : Minding σ x e)
include h

theorem silent (acts : Acts σ e σ e') (silent : Silent e e') : Minding σ x e' :=
  ⟨h.outside.acts acts silent.locked, h.engaged.silent silent⟩

theorem acts (silent : Silent e e') : Acts σ e σ e' :=
  .single (.work _ h.engaged.mine (h.engaged.going h.outside.fits.up) silent.toStill silent.tidy)

variable {f : α → EngineCall β} {y : EngineM α}

theorem work (quiet : Quiet y)
    (ok : ∀ a e', y e = .ok a e' → Silent e e' → Minding σ x e' → Walks P σ e' (f a e'))
    (error : ∀ v e', Minding σ x e' → P σ (.error v) e') : Walks P σ e ((liftM y >>= f) e) := by
  refine walks_work h.engaged.mine (h.engaged.going h.outside.fits.up) quiet
    (fun a e' run silent acts => ?_)
    fun v e' _ silent acts => ?_
  · exact ok a e' run silent (h.silent acts silent)
  · exact error v e' (h.silent acts silent)

theorem does {a : α} (quiet : Quiet y) (run : y e = .ok a e')
    (next : Minding σ x e' → Walks P σ e' (f a e')) : Walks P σ e ((liftM y >>= f) e) := by
  have silent := quiet.ends e
  rw [Ends, run] at silent
  rw [lift_done run]
  exact .prepend (h.acts silent) (next (h.silent (h.acts silent) silent))

theorem look (looks : Looks Raise.Fatal y) (ok : ∀ a, y e = .ok a e → Walks P σ e (f a e))
    (error : ∀ v, Minding σ x e → P σ (.error v) e) :
    Walks P σ e ((liftM y >>= f) e) :=
  walks_look looks ok fun v _ _ => error v h

end
end Engine.Minding

theorem walks_conflictOn (h : Minding σ x e) (core : e.Core) (running : (e.txn x).phase = .running)
    (r : Ref) (kind : String) (raised : ∀ τ v e', Spent x τ e' → P τ (.error v) e') :
    Walks P σ e ((conflictOn x r kind : EngineCall β) e) := by
  refine walks_note (notes_countConflict x r kind) fun e1 silent alike acts => ?_
  have h1 := h.silent acts silent
  refine walks_abortWith h1.outside h1.engaged .conflict fun τ v e2 post =>
    raised τ v e2 (post.resolve_right fun stuck => ?_)
  exact stuck.2 (core.alike alike) (by rwa [alike.txn])

theorem Engine.Stale.phase (h : e.Stale x r) (core : e.Core) (hx : e.Active x) :
    (e.txn x).phase = .running :=
  running_of_active hx (h.running (core.txns x hx) (core.heap.header r h.1).2)

variable {f : Unit → EngineCall β}

theorem walks_checked (life : e.LifeOk) (h : σ.Outside [] e) (own : σ.Tracks e (e.txn x).thread)
    (ok : Minding σ x e → Walks P σ e (f () e)) (error : ∀ v, ¬ e.Active x → P σ (.error v) e) :
    Walks P σ e ((liftM (check x) >>= f) e) := by
  by_cases hx : e.Active x
  · rw [lift_done (check_ok life hx)]
    exact ok ⟨h, engaged_of_life life hx own⟩
  · obtain ⟨v, refused⟩ := check_refused hx
    rw [lift_bind_error refused]
    exact .error (error v hx)

def Heeded (x : TxnId) (τ : Stance) (out : Except Raise α) (b : Engine) : Prop :=
  match out with
  | .ok _ => Minding τ x b
  | .error _ => τ.Holding [] none

section Access
variable (core : e.Core) (h : σ.Outside [] e) (own : σ.Tracks e (e.txn x).thread)
include core h own

theorem walks_load (usable : e.Usable (e.txn x).thread r) :
    Walks (Heeded x) σ e (load x r w e) := by
  by_cases hx : e.Active x
  · have minding : Minding σ x e := ⟨h, engaged_of_life core.life hx own⟩
    obtain ⟨stale, conflict⟩ | finishes := load_cases core hx usable w
    · rw [conflict]
      exact walks_conflictOn minding core (stale.phase core hx) r _ fun τ v e' spent =>
        spent.1.holding
    · generalize load x r w e = c at finishes
      cases c with
      | done v e' =>
        have silent : Silent e e' := by
          by_cases mine : e.Owns x r
          · rw [finishes.own mine]
            exact .refl e
          · obtain ⟨-, -, -, -, -, rfl⟩ := finishes.seen mine
            exact (quiet_noteRead (E := Raise.Fatal) x r (e.version r)).ends e
        exact .done (minding.acts silent) (minding.silent (minding.acts silent) silent)
      | raised =>
        subst finishes
        exact .error h.holding
      | waiting | calling => exact finishes.elim
  · obtain ⟨v, refused⟩ := check_refused hx
    unfold load
    rw [lift_bind_error refused]
    exact .error h.holding

theorem walks_privateCopy {f : Nat → EngineCall Unit} (hx : e.Active x) (shared : e.Shared r)
    (next : ∀ n e', Minding σ x e' → Walks (Bare []) σ e' (f n e')) :
    Walks (Bare []) σ e ((privateCopy x r >>= f) e) := by
  have minding : Minding σ x e := ⟨h, engaged_of_life core.life hx own⟩
  have fails : ∀ (v : Raise) e', Minding σ x e' → Bare [] σ (.error v : Except Raise Unit) e' :=
    fun _ _ h => h.outside.holding
  unfold privateCopy
  rw [bind_assoc, look_bind]
  cases (e.txn x).copyOf? r with
  | some c => exact next c.size e minding
  | none =>
    obtain ⟨m, room⟩ := shared.1
    have bounds := room_bounds core.heap.good room
    simp only [bind_assoc]
    rw [lift_done (oldSpan_ok core.heap.good room), lift_done (getOld_ok (by omega)), look_bind]
    by_cases stale : (e.txn x).readVersion < e.version r
    · rw [if_pos ((isStale_iff core.heap shared _).2 stale), conflictOn_bind]
      exact walks_conflictOn minding core (Stale.phase ⟨shared, stale⟩ core hx) r _
        fun τ v e' spent => spent.1.holding
    · rw [if_neg ((isStale_iff core.heap shared _).not.2 stale)]
      simp only [bind_assoc]
      refine minding.look (looks_sizeIn _) (fun size _ => ?_) fun v => fails v e
      rw [look_bind]
      refine minding.work (.txn x fun tx => ?_) (fun _ e1 _ _ h1 => ?_) fails
      · exact ⟨(tx.noteRead_continues r _).1.thread, (tx.noteRead_continues r _).1.segment,
          (tx.noteRead_continues r _).1.phase⟩
      · rw [look_bind]
        exact h1.work (quiet_logDebug ..) (fun _ e2 _ _ h2 => next _ e2 h2) fails

theorem walks_store (usable : e.Usable (e.txn x).thread r) (v : UInt64) :
    Walks (Bare []) σ e (store x r w v e) := by
  have fails : ∀ (v : Raise) e', Minding σ x e' → Bare [] σ (.error v : Except Raise Unit) e' :=
    fun _ _ h => h.outside.holding
  refine walks_checked core.life h own (fun minding => ?_) fun v _ => h.holding
  split
  · exact .error h.holding
  next hnull =>
  split
  · refine minding.look (looks_youngSpan x r) (fun s _ => ?_) fun v => fails v e
    refine minding.look (looks_checkWord r w _) (fun i _ => ?_) fun v => fails v e
    rw [look_bind, ← bind_pure (liftM _ : EngineCall Unit)]
    exact minding.work (quiet_setYoung ..) (fun _ e' _ _ h' => .ok h'.outside) fails
  next hyoung =>
  dsimp only
  rw [look_bind]
  split
  · refine minding.look (looks_oldSpan r) (fun s _ => ?_) fun v => fails v e
    refine minding.look (looks_checkWord r w _) (fun i _ => ?_) fun v => fails v e
    rw [← bind_pure (liftM _ : EngineCall Unit)]
    exact minding.work (quiet_setOld ..) (fun _ e' _ _ h' => .ok h'.outside) fails
  · next hcreated =>
    have hx := minding.engaged.active
    have shared := shared_of_usable core.life hx usable hnull (Bool.not_eq_true _ ▸ hyoung)
      (by rw [Array.contains_iff_mem] at hcreated; exact hcreated)
    refine walks_privateCopy core h own hx shared fun n e1 h1 => ?_
    refine h1.look (looks_checkWord r w _) (fun i _ => ?_) fun v => fails v e1
    rw [← bind_pure (liftM _ : EngineCall Unit)]
    exact h1.work (quiet_setCopyWord ..) (fun _ e' _ _ h' => .ok h'.outside) fails

theorem walks_weakTarget (usable : e.Usable (e.txn x).thread r) :
    Walks (Bare []) σ e (weakTarget x r e) := by
  refine walks_checked core.life h own (fun minding => ?_) fun v _ => h.holding
  refine minding.look (looks_weakSlot x r) (fun w _ => ?_) fun v h => h.outside.holding
  refine .bind ((walks_load core h own usable).mono fun τ out e' post => ?_)
  cases out with
  | ok => exact .ok (Minding.outside post)
  | error => exact post

theorem walks_isWeak : Walks (Bare []) σ e (isWeak x r e) := by
  refine walks_checked core.life h own (fun minding => ?_) fun v _ => h.holding
  rw [look_bind]
  split
  · exact .ok h
  · refine walks_engine h nofun fun _ inside => ?_
    rw [look_bind]
    exact walks_unlock inside fun outside => .ok outside

end Access

section Allocation

def Allocated (x : TxnId) (τ : Stance) (out : Except Raise α) (e : Engine) : Prop :=
  match out with
  | .ok _ => Minding τ x e
  | .error v => Spent x τ e ∨ Stuck x v τ e

theorem walks_exhausted (h : Minding σ x e) (cause : Error)
    (raised : ∀ τ v e', Spent x τ e' ∨ Stuck x v τ e' → P τ (.error v) e') :
    Walks P σ e ((abortWith x cause : EngineCall β) e) :=
  walks_abortWith h.outside h.engaged cause fun τ v e' post => raised τ v e' (post.imp id And.left)

theorem walks_roundSize {n : UInt64} {f : UInt64 → EngineCall β} (h : Minding σ x e)
    (raised : ∀ τ v e', Spent x τ e' ∨ Stuck x v τ e' → P τ (.error v) e')
    (next : ∀ size, e.roundSize? n = some size → Walks P σ e (f size e)) :
    Walks P σ e ((roundSize x n >>= f) e) := by
  unfold roundSize
  rw [bind_assoc, look_bind]
  cases rounded : e.roundSize? n with
  | some size => exact next size rounded
  | none =>
    rw [abortWith_bind]
    exact walks_exhausted h _ raised

theorem Engine.Minding.enters {y : EngineCall β} (h : Minding σ x e)
    (next : ∀ τ b, Since σ e τ b → Serving τ [] x b →
      b.pausedFor (.thread (e.txn x).thread) = false →
      ((.engine ∉ e.locked → ∀ k, e.WeakOk k) → ∀ k, b.WeakOk k) → Walks P τ b (y b)) :
    Walks P σ e ((do
      lock .engine
      park (.thread (e.txn x).thread)
      y : EngineCall β) e) := by
  have alike := alike_acquire e .engine
  have taken : Since σ e (σ.take .engine) (e.acquire .engine) :=
    alike.since rfl (.inr rfl) rfl rfl rfl
  refine walks_engine h.outside nofun fun free inside => ?_
  refine walks_park inside (taken.tracks _ h.engaged.tracks) fun τ b since inside going weak => ?_
  have since := taken.trans since fun _ => id
  exact next τ b since ⟨inside, h.engaged.since since⟩ going fun known => weak fun k =>
    (known free k).alike alike

theorem Engine.Serving.leaves (h : Serving σ [] x e)
    (next : Minding (σ.drop .engine) x (e.giveUp .engine) →
      Walks P (σ.drop .engine) (e.giveUp .engine) (f () (e.giveUp .engine))) :
    Walks P σ e ((liftM (unlock .engine) >>= f) e) := by
  have given : Since σ e (σ.drop .engine) (e.giveUp .engine) :=
    (alike_giveUp e .engine).since rfl (.inr rfl) rfl rfl rfl
  exact walks_unlock h.inside fun outside => next ⟨outside, h.engaged.since given⟩

theorem walks_allocLarge (h : Minding σ x e) (size : UInt64) :
    Walks (Allocated x) σ e (allocLarge x size e) := by
  unfold allocLarge
  rw [look_bind]
  refine h.enters fun τ b since serving _ _ => ?_
  refine serving.work (quiet_mallocOld size) (fun r b1 _ serving1 => ?_) fun v b1 fatal serving1 =>
    .inr (serving1.stuck fatal)
  refine serving1.leaves fun minding => ?_
  split
  · exact walks_exhausted minding _ fun τ v e' post => post
  · exact minding.does (quiet_noteCreated x r) (updateTxn_run ..) fun minding => .ok minding

theorem Engine.Minor.bumps {m : Engine} (minor : Minor x e m) (after : Alike m e') (hx : e.Active x)
    (whole : Sizeable size) (most : size.toNat ≤ 8 * (e.segment (e.txn x).segment).nursery.size) :
    ∃ r e1, bump? (e'.txn x).segment size e' = .ok (some r) e1 := by
  have number : (e'.txn x).segment = (e.txn x).segment := by
    rw [after.txn, minor.serves.works.own.segment]
  have used : (e'.segment (e'.txn x).segment).used.toNat = 0 := by
    rw [number, (after.segment _).used, minor.used]
    rfl
  have kept : (e'.segment (e'.txn x).segment).nursery.size =
      (e.segment (e.txn x).segment).nursery.size := by
    rw [number, (after.segment _).nursery]
    exact minor.serves.works.own_segment.2
  have own := (minor.serves.core.alike after).txns x (after.active.2 (minor.serves.active hx))
  exact ⟨_, _, bump?_fits ((bump_fits own whole).not.2 (by omega))⟩

theorem walks_allocAfterMinor (h : Minding σ x e) (core : e.Core)
    (weak : .engine ∉ e.locked → ∀ k, e.WeakOk k)
    (whole : Sizeable size) (most : size.toNat ≤ 8 * (e.segment (e.txn x).segment).nursery.size) :
    Walks (Allocated x) σ e (allocAfterMinor x size e) := by
  unfold allocAfterMinor
  rw [look_bind]
  refine h.enters fun τ b since serving _ weakly => ?_
  have minor := collectMinor_spec (since.core core) serving.engaged.active (serving.inside.loose _)
    (weakly weak _)
  refine .bind (((walks_collectMinor serving).finishes minor).mono fun ρ out b1 post => ?_)
  obtain ⟨collected, spec, -⟩ := post
  cases out with
  | error => exact .inr collected
  | ok failure =>
    obtain ⟨rfl, silent, serving1⟩ := collected
    obtain ⟨minor, -, -⟩ := spec failure rfl
    refine serving1.leaves fun minding => ?_
    cases failure with
    | some => exact walks_exhausted minding _ fun τ v e' post => post
    | none =>
      have most' : size.toNat ≤ 8 * (b.segment (b.txn x).segment).nursery.size := by
        have kept := (since.txn _ x h.engaged.tracks h.engaged.txn).keeps.segment
        rwa [kept, since.ages.nursery]
      obtain ⟨r, b2, run⟩ := minor.bumps
        (alike_giveUp b1 .engine) serving.engaged.active whole most'
      dsimp only
      rw [look_bind]
      exact minding.does (quiet_bump? _ size) run fun minding => .ok minding

theorem walks_alloc (core : e.Core) (weak : .engine ∉ e.locked → ∀ k, e.WeakOk k)
    (h : σ.Outside [] e)
    (own : σ.Tracks e (e.txn x).thread) (n : UInt64) : Walks (Allocated x) σ e (alloc x n e) := by
  refine walks_checked core.life h own (fun minding => ?_) fun v past => .inl ⟨h, past⟩
  rw [look_bind]
  refine walks_poll h own fun τ b since outside weakly => ?_
  have minding : Minding τ x b := ⟨outside, minding.engaged.since since⟩
  have core := since.core core
  refine walks_roundSize minding (fun _ _ _ post => post) fun size rounded => ?_
  rw [look_bind, look_bind, look_bind]
  split
  · exact walks_allocLarge minding size
  · next small =>
    have whole := (roundSize?_sizeable core.heap rounded).1
    by_cases fits : (b.segment (b.txn x).segment).used + size > .ofNat
      (b.segment (b.txn x).segment).nursery.size * 8
    · rw [lift_done (bump?_full fits)]
      refine walks_allocAfterMinor minding core (weakly weak) whole ?_
      have most := UInt64.le_iff_toNat_le.1 (UInt64.not_lt.1 (not_or.1 small).2)
      have bound := (core.txns x minding.engaged.active).nursery.small
      rw [UInt64.toNat_mul, Word.toNat_ofNat_lt (by omega)] at most
      change _ ≤ _ * 8 % 2 ^ 64 at most
      omega
    · exact minding.does (quiet_bump? _ size) (bump?_fits fits) fun minding => .ok minding

theorem walks_allocWeak (core : e.Core) (weak : .engine ∉ e.locked → ∀ k, e.WeakOk k)
    (h : σ.Outside [] e) (own : σ.Tracks e (e.txn x).thread) (n : UInt64) {target : Ref}
    (usable : e.Usable (e.txn x).thread target) :
    Walks (fun τ out b => match out with
      | .ok _ => τ.Holding [] none
      | .error v => τ.Holding [] none ∨ Stuck x v τ b) σ e (allocWeak x n target e) := by
  refine walks_checked core.life h own (fun minding => ?_) fun v _ => .inl h.holding
  refine walks_roundSize minding (fun τ v e' post => post.imp (fun spent => spent.1.holding) id)
    fun size _ => ?_
  rw [look_bind]
  refine walks_push h _ target fun e1 pushed silent outside => ?_
  have stacked := restacked core rfl (fun th => th.stack.push target) fun registered q hq => by
    obtain hq | rfl := Array.mem_push.1 hq
    · exact core.stackOk _ registered q hq
    · exact usable
  rw [← pushed] at stacked
  refine .bind
    ((walks_alloc stacked.2.1 (fun free k => stacked.2.2 k (weak (silent.locked ▸ free) k)) outside
    (minding.engaged.silent silent).tracks size).mono fun τ out b post => ?_)
  cases out with
  | error => exact post.imp (fun spent => spent.1.holding) id
  | ok r =>
    have fails : ∀ (v : Raise) e', Minding τ x e' → τ.Holding [] none ∨ Stuck x v τ e' :=
      fun _ _ h => .inl h.outside.holding
    have minding : Minding τ x b := post
    refine Walks.bind ((walks_pop minding.outside _).mono fun ρ out b1 post => ?_)
    obtain ⟨rfl, silent, outside⟩ := post
    have minding : Minding ρ x b1 := ⟨outside, minding.engaged.silent silent⟩
    cases out with
    | error => exact .inl outside.holding
    | ok =>
      dsimp only
      rw [look_bind]
      have lists : ∀ b2, Minding ρ x b2 → Walks (fun τ out b => match out with
          | .ok _ => τ.Holding [] none
          | .error v => τ.Holding [] none ∨ Stuck x v τ b) ρ b2 ((do
            liftM (updateSegment (b1.txn x).segment fun s =>
              { s with weakrefs := s.weakrefs.push r })
            pure r : EngineCall Ref) b2) := fun b2 minding2 =>
        minding2.does (.segment _ fun _ => ⟨rfl, rfl⟩) (updateSegment_run ..) fun minding =>
          .ok minding.outside.holding
      split
      · refine minding.look (looks_youngSpan x r) (fun s _ => ?_) fun v => fails v b1
        exact minding.work (quiet_setYoung ..) (fun _ b2 _ _ minding2 => lists b2 minding2) fails
      · refine minding.look (looks_oldSpan r) (fun s _ => ?_) fun v => fails v b1
        exact minding.work (quiet_setOld ..) (fun _ b2 _ _ minding2 => lists b2 minding2) fails

end Allocation

variable {k : SegmentId}

section Begin

theorem acts_started (mine : σ.mine t) (known : t < e.threads.size)
    (unseated : (e.thread t).segment = none)
    (going : e.pausedFor (.thread t) = false) (found : e.pickSegment? t = some k) :
    Acts σ e { σ with seeking := false } (e.started t k) := by
  obtain ⟨inside, free⟩ := pickSegment?_free found
  have take : Act σ e { σ with seeking := false } (e.taken t k) :=
    .take t k mine known unseated inside free going
  let record : Txn :=
    { thread := t, segment := k, phase := .running, readVersion := e.clock
      stackAtBegin := (e.thread t).stack }
  let added : Engine := { e.taken t k with txns := e.txns.push record }
  have records : Still (e.taken t k) added ∧
      Tidy { σ with seeking := false } (e.taken t k) added := by
    refine ⟨{ Still.refl _ with }, le_rfl, fun _ _ => rfl,
      fun c f hf => .inl ⟨f, hf, rfl⟩,
        fun y hy _ => ⟨by rw [Array.size_push]; exact Nat.lt_succ_of_lt hy, ?_⟩⟩
    change y < e.txns.size at hy
    change ((e.txns.push record).getD y _).phase = (e.txns.getD y _).phase
    rw [Array.getD_eq_getD_getElem?, Array.getD_eq_getD_getElem?, Array.getElem?_push_lt hy,
      Array.getElem?_eq_getElem hy]
  have thread : Still added (e.started t k) ∧
      Tidy { σ with seeking := false } added (e.started t k) :=
    still_setThread t fun _ => rfl
  exact (Acts.single take).step
    (.work (.thread t) mine (.inl going) (records.1.trans thread.1) (records.2.trans thread.2))

theorem walks_stackOf {f : Array Ref → EngineCall β} (h : σ.Outside [] e)
    (next : Walks P σ e (f (e.thread t).stack e)) :
    Walks P σ e
    ((withLock (.stack t) (do return (← look fun e => (e.thread t).stack)) >>= f) e) := by
  refine .bind (walks_stack h fun _ => walks_ending (.ok ⟨.head _, ?_⟩))
  rwa [Stance.drop_take, giveUp_acquire]

def Begun (t : ThreadId) (τ : Stance) (out : Except Raise TxnId) (b : Engine) : Prop :=
  match out with
  | .ok x => Minding τ x b ∧ (b.txn x).thread = t ∧ b.Core
  | .error v =>
    v = .violation .engineClosed ∧ τ.Holding [.engine] none ∨
      v ≠ .violation .engineClosed ∧ τ.Outside [] b

theorem walks_freeSegment (h : σ.Inside base none e) (apart : .bracket ∉ base) (own : σ.Tracks e t)
    (going : e.pausedFor (.thread t) = false) (unseated : (e.thread t).segment = none)
    (next : ∀ τ b k, Since σ e τ b → τ.held = .engine :: base → τ.pausing = none → τ.Fits b →
      (∀ u, .stack u ∉ b.locked) → b.pausedFor (.thread t) = false → b.pickSegment? t = some k →
      Walks P τ b (f () b)) :
    Walks P σ e ((await (.thread t) .freeSegment >>= f) e) := by
  refine walks_await h apart own going ⟨h.pausing, t, rfl, unseated⟩ (fun holds => ?_) ?_
  · obtain ⟨k, found⟩ := Option.isSome_iff_exists.1 holds
    exact next σ e k (.refl σ e) h.held h.pausing h.fits h.loose going found
  · intro τ b since held pausing _ fits loose going holds
    obtain ⟨k, found⟩ := Option.isSome_iff_exists.1 holds
    exact next τ b k since held pausing fits loose going found

theorem Engine.registered_lt (h : (e.thread t).registered = true) : t < e.threads.size := by
  refine Nat.lt_of_not_le fun out => ?_
  rw [thread, getD_out out] at h
  cases h

theorem Engine.LifeOk.unseated (ok : e.LifeOk) (idle : (e.thread t).txn = none) :
    (e.thread t).segment = none := by
  cases held : (e.thread t).segment with
  | none => rfl
  | some j =>
    have holds := (ok.holds t j held).1
    rw [idle] at holds
    cases holds

theorem walks_begin (core : e.Core) (h : σ.Outside [] e) (own : σ.Tracks e t) :
    Walks (Begun t) σ e (begin t e) := by
  unfold begin
  rw [look_bind]
  split
  · exact .error (.inr ⟨by rintro ⟨⟩, h⟩)
  next idle =>
  dsimp only
  rw [look_bind]
  split
  · exact .error (.inr ⟨by rintro ⟨⟩, h⟩)
  next registered =>
  replace idle : (e.thread t).txn = none := Option.not_isSome_iff_eq_none.1 idle
  replace registered : (e.thread t).registered = true := by simpa using registered
  have unseated := core.life.unseated idle
  refine walks_stackOf h (walks_engine h nofun fun _ inside => ?_)
  have taken : Since σ e (σ.take .engine) (e.acquire .engine) :=
    (alike_acquire e .engine).since rfl (.inr rfl) rfl rfl rfl
  refine walks_look looks_checkOpen (fun _ _ => ?_) fun v _ closed =>
    .inl ⟨checkOpen_error closed, inside.holding⟩
  refine walks_park inside (taken.tracks t own) fun τ b parked inside free _ => ?_
  have since := taken.trans parked fun _ => id
  have same := since.thread t own
  simp only [takeSegment, bind_assoc]
  rw [look_bind, same, unseated]
  simp only [bind_assoc]
  refine walks_freeSegment inside (by simp) (since.tracks t own) free (by rw [same, unseated]) ?_
  intro ρ c k waited held pausing fits loose going found
  have since := since.trans waited (by rw [h.idle]; rintro _ ⟨⟩)
  have same := since.thread t own
  have begins := begins_started (by rw [same, idle]) (by rw [same, registered]) found
  rw [look_bind, found, Option.getD_some, lift_done (updateSegment_run ..),
    lift_done (updateThread_run ..), ← same]
  let ended : Stance := { ρ with seeking := false }
  have acts :=
    acts_started (since.tracks t own).mine (registered_lt (by rw [same, registered]))
      (by rw [same, unseated]) going found
  have inside : ended.Inside [] none (c.started t k) := ⟨held, rfl, pausing, acts.fits fits, loose⟩
  refine .prepend acts ?_
  change Walks _ ended (c.started t k) ((do
    liftM (unlock .engine)
    liftM (logInfo .transactionStart k [("thread", .int t), ("rv", .uint c.clock)])
    pure c.txns.size : EngineCall TxnId) (c.started t k))
  refine walks_unlock inside fun outside => ?_
  refine walks_note (notes_logInfo ..) fun d silent alike logs => .ok ?_
  have after := (alike_giveUp _ _).trans alike
  have record : (d.txn c.txns.size).thread = t ∧ (d.txn c.txns.size).segment = k ∧
      (d.txn c.txns.size).phase = .running := by
    rw [after.txn, begins.own]
    exact ⟨rfl, rfl, rfl⟩
  refine ⟨⟨outside.acts logs silent.locked, ?_, ?_, ?_, ?_⟩, record.1,
    (begins.core (since.core core)).alike after⟩
  · rw [record.1]
    exact ((since.tracks t own).acts acts).congr rfl rfl logs.tidy.threads_size
  · rw [record.1, after.thread]
    exact begins.own_thread.1
  · rw [record.1, record.2.1, after.thread]
    exact begins.own_thread.2.1
  · rw [Active, record.2.2]
    rfl

end Begin

section Inevitable

theorem acts_promoted (h : Serving σ base x e) (none : e.inevitable = none) (reason : String) :
    Acts σ e σ (e.promoted x reason) := by
  let record : Engine := e.setTxn x fun tx =>
    { tx with readVersion := e.clock, phase := .inevitable, reason }
  have going := h.engaged.going h.inside.fits.up
  have first : Still e record ∧ Tidy σ e record := still_setTxn h.engaged.active _
  have work : Acts σ e σ record := .single (.work _ h.engaged.mine going first.1 first.2)
  have going1 : record.Going (.thread (e.txn x).thread) :=
    .inr ⟨_, h.engaged.segment, h.inside.fits.up _ _ h.engaged.tracks.mine h.engaged.segment⟩
  have bind := work.step (.bind x _ h.engaged.mine going1 none)
  have last : Still (record.bound x) (e.promoted x reason) ∧
      Tidy σ (record.bound x) (e.promoted x reason) :=
    still_setThread (e.txn x).thread fun _ => rfl
  exact bind.step (.work _ h.engaged.mine going1 last.1 last.2)

theorem Engine.Serving.waits (h : Serving σ base x e) (apart : .bracket ∉ base)
    (running : (e.txn x).phase = .running)
    (going : e.pausedFor (.thread (e.txn x).thread) = false)
    (next : ∀ τ b, Since σ e τ b → Serving τ base x b → b.inevitable = none →
      Walks P τ b (f () b)) :
    Walks P σ e ((await (.thread (e.txn x).thread) .noInevitable >>= f) e) := by
  have fits : Goal.noInevitable.Fits σ (.thread (e.txn x).thread) e :=
    ⟨h.inside.pausing, _, x, rfl, h.engaged.txn, running⟩
  refine walks_await h.inside apart h.engaged.tracks going fits (fun holds => ?_) ?_
  · exact next σ e (.refl σ e) h (Option.isNone_iff_eq_none.1 holds)
  · intro τ b since held pausing seeking fits loose _ holds
    exact next τ b since ⟨⟨held, seeking, pausing, fits, loose⟩, h.engaged.since since⟩
      (Option.isNone_iff_eq_none.1 holds)

theorem walks_becomeInevitable (core : e.Core) (h : σ.Outside [] e)
    (own : σ.Tracks e (e.txn x).thread) (reason : String) :
    Walks (fun τ _ b => τ.Outside [] b) σ e (becomeInevitable x reason e) := by
  refine walks_checked core.life h own (fun minding => ?_) fun v _ => h
  rw [look_bind]
  split
  · exact .ok h
  next other =>
  have running := running_of_active minding.engaged.active (by simpa using other)
  rw [look_bind]
  refine minding.enters fun τ b since serving going _ => ?_
  have kept := (since.txn _ x own minding.engaged.txn).keeps
  rw [← kept.thread] at going ⊢
  refine serving.waits (by simp) (kept.phase.trans running) going fun ρ c waited serving none => ?_
  have since := since.trans waited (by rw [h.idle]; rintro _ ⟨⟩)
  have core := since.core core
  have running := (since.txn _ x own minding.engaged.txn).keeps.phase.trans running
  obtain ⟨stale, validated, fresh⟩ := staleRead?_run core.heap fun r v hr =>
    ((core.txns x serving.engaged.active).reads r v hr).1
  rw [look_bind, lift_done validated]
  cases stale with
  | some r =>
    refine walks_note (notes_countConflict x r _) fun d silent alike acts => ?_
    have serving : Serving ρ [] x d :=
      ⟨serving.inside.acts acts silent.locked, serving.engaged.silent silent⟩
    refine serving.rollsBack .conflict (fun v b _ _ never => ?_) (fun τ v b spent => spent.1)
      fun τ b outside _ => .error outside
    exact absurd (by rwa [alike.txn]) (never (core.alike alike))
  | none =>
    have acts := acts_promoted serving none reason
    have thread :=
      kept.thread.trans (since.txn _ x own minding.engaged.txn).keeps.thread.symm
    rw [thread]
    refine .prepend acts ?_
    change Walks _ ρ (c.promoted x reason) ((do
      liftM (unlock .engine)
      liftM (logInfo .becomeInevitable (← look fun e => (e.txn x).segment)
        [("reason", .text reason), ("rv", .uint c.clock)]) : EngineCall Unit) (c.promoted x reason))
    refine walks_unlock (serving.inside.acts acts rfl) fun outside => ?_
    rw [look_bind]
    exact walks_lastNote (notes_logInfo ..) fun d silent acts' => outside.acts acts' silent.locked

end Inevitable

section Commit

def Settled (x : TxnId) (τ : Stance) (out : Except Raise α) (e : Engine) : Prop :=
  match out with
  | .ok _ => Spent x τ e
  | .error v => τ.Holding [] none ∧ ¬ e.Active x ∨ Stuck x v τ e

theorem walks_refuse (h : Serving σ [] x e) (cause : Error) :
    Walks (Settled x) σ e (refuse x cause e) :=
  h.rollsBack cause (fun _ _ fatal serving _ => .inr (serving.stuck fatal))
    (fun _ _ _ spent => .inl ⟨spent.1.holding, spent.2⟩)
    fun _ _ outside past => .ok ⟨outside, past.not_active⟩

theorem Engine.Serving.unbound (h : Serving σ base x e) :
    Acts σ e σ e.unbound ∧ Serving σ base x e.unbound := by
  have acts : Acts σ e σ e.unbound :=
    .single (.unbind _ h.engaged.mine (h.engaged.going h.inside.fits.up))
  exact ⟨acts, h.inside.acts acts rfl, h.engaged.tracks.congr rfl rfl le_rfl, h.engaged.txn,
    h.engaged.segment,
    h.engaged.active⟩

def Published (σ : Stance) (x : TxnId) (τ : Stance) (out : Except Raise α) (e : Engine) : Prop :=
  τ = σ ∧ match out with
    | .ok _ => σ.Inside [] none e ∧ e.Ended x .committed
    | .error v => v.Fatal ∧ Serving σ [] x e

theorem walks_settleCommit (h : Serving σ [] x e) :
    Walks (Published σ x) σ e ((liftM (settleCommit x) : EngineCall Committed) e) := by
  have fails : ∀ (v : Raise) e', v.Fatal → Serving σ [] x e' →
      Published σ x σ (.error v : Except Raise Committed) e' := fun _ _ fatal h => ⟨rfl, fatal, h⟩
  unfold settleCommit
  rw [lift_get, lift_get, lift_then]
  refine h.work (quiet_publishAll x) (fun version e1 silent1 h1 => ?_) fails
  rw [lift_get, lift_then]
  refine h1.work (.modify fun _ => { Silent.refl _ with }) (fun _ e2 silent2 h2 => ?_) fails
  rw [lift_then]
  refine h2.work (.segment _ fun _ => ⟨rfl, rfl⟩) (fun _ e3 silent3 h3 => ?_) fails
  rw [lift_get]
  have tail : ∀ e4, Serving σ [] x e4 → ∀ inevitable : Bool, Walks (Published σ x) σ e4 ((liftM (do
        updateCounters fun c => { c with commits := c.commits + 1 }
        let callbacks := ((← get).thread (e.txn x).thread).onCommit.entries.map (·.2)
        clearTables (e.txn x).thread
        let fields : List (String × Event.Value) :=
          [("version", .uint version), ("reads", .int ((← get).txn x).reads.length),
            ("writes", .int ((← get).txn x).writes.size),
              ("created", .int ((← get).txn x).created.size),
            ("inevitable", .bool inevitable)]
        finish x .committed
        return { segment := (e.txn x).segment, fields, callbacks, majorDue := (← get).majorDue } :
          EngineM Committed) :
          EngineCall Committed) e4) := by
    intro e4 h4 inevitable
    rw [lift_then]
    refine h4.work (.counters _) (fun _ e5 silent5 h5 => ?_) fails
    rw [lift_get, lift_then]
    refine h5.work (quiet_clearTables _) (fun _ e6 silent6 h6 => ?_) fails
    rw [lift_get, lift_get, lift_get, lift_then, lift_done (finish_run rfl h6.engaged.segment)]
    have finish := acts_finish h6.inside.fits h6.engaged .committed
    have inside := h6.inside.acts finish (by simp [finished])
    exact .done finish ⟨rfl, inside, ended_finished h6.engaged rfl _ _⟩
  dsimp only
  split
  · obtain ⟨acts, h4⟩ := h3.unbound
    rw [lift_then, lift_modify, lift_then]
    exact Walks.prepend acts (h4.work (.counters _) (fun _ e5 _ h5 => tail e5 h5 _) fails)
  · exact tail e3 h3 _

theorem walks_succeed (h : Serving σ [] x e) :
    Walks (Settled x) σ e (succeed x (e.txn x).thread e) := by
  refine .bind ((walks_settleCommit h).keeps.mono fun τ out e1 post => ?_)
  obtain ⟨⟨rfl, post⟩, -, tracks⟩ := post
  cases out with
  | error => exact .inr (Serving.stuck post.2 post.1)
  | ok =>
    obtain ⟨inside, past⟩ := post
    refine walks_unlock inside fun outside => ?_
    refine walks_note (notes_logInfo ..) fun e2 silent alike acts => ?_
    have outside := outside.acts acts silent.locked
    have tracks : (τ.drop .engine).Tracks e2 (e.txn x).thread :=
      (tracks _ h.engaged.tracks).congr rfl rfl acts.tidy.threads_size
    have past := (alike_giveUp e1 .engine).ages.trans alike.ages |>.keeps past
    refine walks_callAll outside past _
      (fun ρ v a outside past => .inl ⟨outside.holding, past.not_active⟩) ?_
    intro ρ a outside keeps _ past
    split
    · refine .bind (((walks_collectIfDue outside (keeps _ tracks)).past past).mono
        fun τ out b post => ?_)
      cases out with
      | error => exact .inl ⟨post.1.holding, post.2.not_active⟩
      | ok => exact .ok ⟨post.1, post.2.not_active⟩
    · exact .ok ⟨outside, past.not_active⟩

theorem walks_commitAlone (h : Serving σ [] x e) :
    Walks (Settled x) σ e (commitAlone x (e.txn x).thread e) := by
  refine .bind ((walks_collectMinor h).mono fun τ out e1 post => ?_)
  cases out with
  | error => exact .inr post
  | ok failure =>
    obtain ⟨rfl, silent, h1⟩ := post
    cases failure with
    | some cause => exact walks_refuse h1 cause
    | none =>
      refine walks_look (looks_validate? x) (fun stale _ => ?_) fun v fatal _ =>
        .inr (h1.stuck fatal)
      cases stale with
      | some r =>
        exact h1.work (quiet_countConflict x r _) (fun _ e2 _ h2 => walks_refuse h2 _)
          fun v e2 fatal h2 => .inr (h2.stuck fatal)
      | none =>
        rw [← (silent.txn x).1]
        exact walks_succeed h1

section
variable (core : e.Core) (h : σ.Outside [] e) (own : σ.Tracks e (e.txn x).thread)
include core h own

theorem walks_commit : Walks (Settled x) σ e (commit x e) := by
  refine walks_checked core.life h own (fun minding => ?_) fun v past => .inl ⟨h.holding, past⟩
  rw [look_bind]
  refine minding.enters fun τ b since serving going _ => ?_
  have kept := (since.txn _ x own minding.engaged.txn).keeps
  rw [← kept.thread] at going ⊢
  rw [look_bind]
  split
  · next other =>
    have running := running_of_active serving.engaged.active (by simpa using other)
    refine serving.waits nofun running going fun ρ c waited serving' _ => ?_
    rw [← (waited.txn _ x serving.engaged.tracks serving.engaged.txn).keeps.thread]
    exact walks_commitAlone serving'
  · exact walks_commitAlone serving

theorem walks_abort : Walks (fun τ out b => match out with
      | .ok _ => Spent x τ b
      | .error _ =>
        τ.Outside [] b ∧ (b.Active x → (e.txn x).phase = .inevitable)) σ e (abort x e) := by
  refine walks_checked core.life h own (fun minding => ?_) fun v past =>
    ⟨h, fun active => absurd active past⟩
  rw [look_bind]
  split
  · next inevitable => exact .error ⟨h, fun _ => by simpa using inevitable⟩
  next other =>
  have running := running_of_active minding.engaged.active (by simpa using other)
  refine (walks_rollBack h minding.engaged .abortRequested).mono fun τ out b post => ?_
  cases out with
  | ok => exact post.1
  | error =>
    obtain ⟨outside, past⟩ := post.resolve_right fun stuck => stuck.2 core running
    exact ⟨outside, fun active => absurd active past⟩

theorem walks_endFailed : Walks (Settled x) σ e (endFailed x e) := by
  unfold endFailed
  rw [look_bind]
  split
  · rw [look_bind]
    split
    · exact walks_commit core h own
    · next other =>
      refine .bind ((walks_abort core h own).mono fun τ out b post => ?_)
      cases out with
      | ok => exact .ok post
      | error => exact .inl ⟨post.1.holding, fun active => other (by simpa using post.2 active)⟩
  · next other =>
    refine .ok ⟨h, fun active => other ?_⟩
    rw [heldBy, core.life.thread x active]
    simp

end
end Commit

section Tables

theorem walks_retable (core : e.Core) (h : σ.Outside [] e) (own : σ.Tracks e t) {y : EngineM Unit}
    (quiet : Quiet y) (idle : (e.thread t).txn = none → y e = .ok () e) :
    Walks (Bare []) σ e ((liftM y : EngineCall Unit) e) := by
  cases held : (e.thread t).txn with
  | none =>
    rw [lift_ok (idle held)]
    exact .ok h
  | some x =>
    obtain ⟨active, thread, -⟩ := core.life.txn t x held
    have minding : Minding σ x e := ⟨h, engaged_of_life core.life active (by rwa [thread])⟩
    rw [← bind_pure (liftM y : EngineCall Unit)]
    exact minding.work quiet (fun _ _ _ _ minding => .ok minding.outside) fun _ _ minding =>
      minding.outside.holding

theorem walks_noteCallback (core : e.Core) (h : σ.Outside [] e) (own : σ.Tracks e t) (last : Phase)
    (key : Key) (callback : Option Callback) :
    Walks (Bare []) σ e ((liftM (noteCallback last t key callback) : EngineCall Unit) e) := by
  refine walks_retable core h own (quiet_noteCallback last t key callback) fun idle => ?_
  unfold noteCallback
  rw [get_bind, idle]
  rfl

end Tables
end TxHeap
