import TxHeap.Proofs.Engine.Feat

/-! Calls among other calls. Between two points at which a call waits or calls back it runs a
stretch, which does one thing to the engine at most. A call is sound if each of its stretches does
so, whatever the others may do meanwhile. -/

namespace TxHeap
variable {e e' : Engine} {who : Actor} {x : TxnId}

/-- Who makes a call: a thread, if it is one, and the transaction the call is part of. -/
structure Actor where
  thread : Option ThreadId
  txn : Option TxnId

def Actor.Acts (who : Actor) (t : ThreadId) : Prop := who.thread = some t

namespace Engine

def actor (e : Engine) (x : TxnId) : Actor := ⟨some (e.txn x).thread, some x⟩

def Runs (e : Engine) (who : Actor) (x : TxnId) : Prop := e.Active x ∧ who = e.actor x

theorem Runs.thread (h : e.Runs who x) : who.thread = some (e.txn x).thread := by
  rw [h.2, actor]

theorem Runs.txn (h : e.Runs who x) : who.txn = some x := by
  rw [h.2, actor]

/-- The transaction `x` may commit: its reads are fresh, and weak references are listed where they
belong. -/
structure Valid (e : Engine) (x : TxnId) : Prop where
  fresh : ∀ r v, (r, v) ∈ (e.txn x).reads → v = e.version r
  weak : ∀ k, e.WeakOk k

def Settles (e e' : Engine) : Prop := Alike e e' ∨ ∃ a b, Alike e a ∧ Collects a b ∧ Alike b e'

/-- What a stretch of a call does. A commit may find that the old heap is due to be collected. -/
inductive Deed (who : Actor) (e e' : Engine) : Prop
  | nothing (h : Alike e e')
  | work (x : TxnId) (mine : e.Runs who x) (h : Works x e e')
  | abort (x : TxnId) (m : Engine) (mine : e.Runs who x) (works : Works x e m) (ok : m.Core)
      (h : Aborts x m e')
  | commit (x : TxnId) (m b : Engine) (mine : e.Runs who x) (minor : Minor x e m)
      (valid : m.Valid x) (h : Commits x m b) (after : Settles b e')
  | promote (x : TxnId) (mine : e.Runs who x) (h : Promotes x e e')
  | begin (t : ThreadId) (x : TxnId) (k : SegmentId) (mine : who.thread = some t)
      (h : Begins t x k e e')
  | idle (t : ThreadId) (mine : who.thread = some t ∨ who.thread = none ∧ e.threads.size ≤ t)
      (h : Idles t e e')
  | prebuild (r : Ref) (n : Nat) (mine : who = ⟨none, none⟩) (h : Prebuilds r n e e')
  | collect (mine : ∀ x, who.txn = some x → (e.txn x).phase = .committed) (h : Collects e e')

/-- Threads and transactions stay known, and transactions as they ended. Nurseries keep their sizes,
settings stay. -/
structure Ages (e e' : Engine) : Prop where
  threads_size : e.threads.size ≤ e'.threads.size
  txns_size : e.txns.size ≤ e'.txns.size
  ended : ∀ y, y < e.txns.size → ¬ e.Active y → (e'.txn y).phase = (e.txn y).phase
  nursery : ∀ k, (e'.segment k).nursery.size = (e.segment k).nursery.size
  settings : e'.settings = e.settings

def Ended (e : Engine) (x : TxnId) (phase : Phase) : Prop :=
  x < e.txns.size ∧ (e.txn x).phase = phase ∧ phase.isActive = false

section Ages
variable {e'' : Engine} {phase : Phase}

theorem Ended.not_active (h : e.Ended x phase) : ¬ e.Active x := by
  rw [Active, h.2.1, h.2.2]
  exact Bool.false_ne_true

theorem Ages.keeps (h : Ages e e') (ended : e.Ended x phase) : e'.Ended x phase :=
  ⟨ended.1.trans_le h.txns_size, (h.ended x ended.1 ended.not_active).trans ended.2.1, ended.2.2⟩

theorem Ages.trans (h : Ages e e') (h' : Ages e' e'') : Ages e e'' where
  threads_size := h.threads_size.trans h'.threads_size
  txns_size := h.txns_size.trans h'.txns_size
  ended y hy past := by
    have same := h.ended y hy past
    rw [← same]
    refine h'.ended y (hy.trans_le h.txns_size) ?_
    rwa [Active, same]
  nursery k := (h'.nursery k).trans (h.nursery k)
  settings := h'.settings.trans h.settings

theorem Alike.ages (h : Alike e e') : Ages e e' where
  threads_size := by rw [h.threads]
  txns_size := by rw [h.txns]
  ended y _ _ := by rw [h.txn]
  nursery k := by rw [(h.segment k).nursery]
  settings := h.settings

theorem Works.ages (h : Works x e e') : Ages e e' where
  threads_size := by rw [h.steady.threads_size]
  txns_size := by rw [h.steady.txns_size]
  ended y _ _ := (h.phase y).1
  nursery k := by
    by_cases hk : k = (e.txn x).segment
    · rw [hk]
      exact h.own_segment.2
    · rw [(h.segment k hk).nursery]
  settings := h.steady.settings

theorem Leaves.ages (h : Leaves x phase e e') (hx : e.Active x) : Ages e e' where
  threads_size := by rw [h.threads_size]
  txns_size := by rw [h.txns_size]
  ended y _ past := by rw [h.txn y fun heq => past (heq ▸ hx)]
  nursery k := by
    by_cases hk : k = (e.txn x).segment
    · rw [hk]
      exact h.own_nursery.1
    · rw [(h.segment k hk).nursery]
  settings := h.settings

theorem Begins.ages {t : ThreadId} {k : SegmentId} (h : Begins t x k e e') : Ages e e' where
  threads_size := by rw [h.threads_size]
  txns_size := by rw [h.txns_size]; exact Nat.le_succ _
  ended y hy _ := by rw [h.txn y fun heq => Nat.lt_irrefl y (by rwa [heq, h.fresh] at hy ⊢)]
  nursery j := by
    by_cases hj : j = k
    · rw [hj, h.own_nursery]
    · rw [(h.segment j hj).nursery]
  settings := h.settings

theorem Collects.ages (h : Collects e e') : Ages e e' :=
  ⟨by rw [h.threads], by rw [h.txns_size], fun y _ _ => (h.txn y).keeps.phase,
    fun k => (h.segment k).size, h.settings⟩

theorem Settles.ages (h : Settles e e') : Ages e e' := by
  obtain alike | ⟨a, b, before, collects, after⟩ := h
  · exact alike.ages
  · exact before.ages.trans (collects.ages.trans after.ages)

theorem Deed.ages (h : Deed who e e') : Ages e e' := by
  cases h with
  | nothing h | work x mine h | begin t x k mine h | collect mine h => exact h.ages
  | abort x m mine works ok h => exact works.ages.trans (h.leaves.ages h.active)
  | commit x m b mine minor valid h after =>
    exact (minor.serves.works.ages.trans (h.leaves.ages h.active)).trans after.ages
  | promote x mine h =>
    exact ⟨by rw [h.threads_size], by rw [h.txns_size],
      fun y _ past => by rw [h.txn y fun heq => past (heq ▸ h.active)],
      fun k => by rw [(h.segment k).nursery], h.settings⟩
  | idle t mine h =>
    exact ⟨h.threads_size, by rw [h.txns], fun y _ _ => by rw [h.sameTxn],
      fun k => by rw [(h.segment k).nursery], h.settings⟩
  | prebuild r n mine h =>
    exact ⟨by rw [h.threads], by rw [h.txns], fun y _ _ => by rw [h.sameTxn],
      fun k => by rw [(h.segment k).nursery], h.settings⟩

end Ages

/-- A stretch of a call. Unless it keeps the engine's mutex it is made of feats; mutexes held beside
that are never given up. -/
structure Stretch (who : Actor) (e e' : Engine) : Prop where
  deed : ∃ a b, Alike e a ∧ Deed who a b ∧ Alike b e'
  feats : .engine ∉ e'.locked → Feats who.Acts e e'
  locks : .engine ∈ e.locked → e.locked ⊆ e'.locked
  inv : e'.clock.toNat + 1 < 2 ^ 63 → e'.Inv

theorem Stretch.ages (h : Stretch who e e') : Ages e e' := by
  obtain ⟨a, b, alike, deed, alike'⟩ := h.deed
  exact alike.ages.trans (deed.ages.trans alike'.ages)

theorem Stretch.refl (inv : e.Inv) : Stretch who e e where
  deed := ⟨e, e, .refl e, .nothing (.refl e), .refl e⟩
  feats _ := .start
  locks _ := fun _ hm => hm
  inv _ := inv

theorem Stretch.of_deed {e0 a b : Engine} (inv : e0.Inv) (alike : Alike e0 a) (deed : Deed who a b)
    (core : b.Core) (weak : .engine ∉ e0.locked → ∀ k, b.WeakOk k) (alike' : Alike b e)
    (locked : e.locked = e0.locked) (feats : .engine ∉ e0.locked → Feats who.Acts e0 e) :
    Stretch who e0 e where
  deed := ⟨a, b, alike, deed, alike'⟩
  feats free := feats (locked ▸ free)
  locks _ := by rw [locked]; exact fun _ hm => hm
  inv ticks := ⟨core.alike alike', ticks, fun free k => (weak (locked ▸ free) k).alike alike',
    by rw [locked]; exact inv.locks⟩

structure Rely (who : Actor) (e e' : Engine) : Prop where
  locks : .engine ∈ e.locked → e.locked ⊆ e'.locked
  ages : Ages e e'
  thread : ∀ t, who.thread = some t → e'.thread t = e.thread t
  txn : ∀ t x, who.thread = some t → (e.thread t).txn = some x → (e.txn x).Blanks (e'.txn x)

structure Enters (e e' : Engine) : Prop where
  free : .engine ∉ e.locked
  lull : Lull e e'
  locked : e'.locked = .engine :: e.locked

theorem Enters.alike (h : e.Enters e') : Alike e e' := h.lull.alike

end Engine

/-- The goal has been reached in `e`, where its segment `k` runs again if it rested. -/
def Goal.Met (g : Goal) (who : Caller) (k : Option SegmentId) (e : Engine) : Prop :=
  match g, who with
  | .othersStopped, who => ∃ m : Engine, m.othersStopped who = true ∧
    (e.segments = m.segments ∨ e.segments = (m.setStanding k .running).segments)
  | .freeSegment, .thread t => (e.pickSegment? t).isSome = true
  | .noInevitable, _ => e.inevitable = none
  | _, _ => True

def Wait.Grants (w : Wait) (e e' : Engine) : Prop :=
  match w with
  | .mutex m => m ∉ e.locked ∧ e' = e.acquire m
  | .backoff => e' = e
  | .pause _ => e.Enters e'
  | .goal g z => e.Enters e' ∧ g.Met z.who z.segment e'
  | .pauseInGoal g z => e.Enters e' ∧ g.Met z.who z.segment e'

open Engine

section
variable {α β : Type}

/-- Each stretch of the course is sound, from the one that began in the given state, and the course
ends within `Q`, which is about the last. -/
def Sound (who : Actor) (Q : Engine → Post α) : Engine → Course Engine α → Prop
  | e, .done a e' => Q e (.ok a) e'
  | e, .raised r e' => Q e (.error r) e'
  | e, .waiting w e' resume => Stretch who e e' ∧
    ∀ e1 e2, e1.Inv → Rely who e' e1 → w.Grants e1 e2 → Sound who Q e1 (resume e2)
  | e, .calling _ e' resume =>
    Stretch who e e' ∧ ∀ r e1, e1.Inv → Ages e' e1 → Sound who Q e1 (resume r e1)

abbrev Tame (who : Actor) (e : Engine) (c : Course Engine α) : Prop :=
  Sound who (fun e _ e' => Stretch who e e') e c

namespace Sound
variable {Q Q' : Engine → Post α} {P : Engine → Post β} {c : Course Engine α}

theorem mono (h : Sound who Q e c) (hQ : ∀ e out e', Q e out e' → Q' e out e') :
    Sound who Q' e c := by
  induction c generalizing e with
  | done | raised => exact hQ _ _ _ h
  | waiting w e' resume ih =>
    exact ⟨h.1, fun e1 e2 inv rely grants => ih e2 (h.2 e1 e2 inv rely grants)⟩
  | calling call e' resume ih => exact ⟨h.1, fun r e1 inv ages => ih r e1 (h.2 r e1 inv ages)⟩

theorem bindOutcome {f : Except Raise α → Engine → Course Engine β}
    (h : Sound who (fun e out e' => Sound who P e (f out e')) e c) :
    Sound who P e (c.bindOutcome f) := by
  induction c generalizing e with
  | done | raised => exact h
  | waiting w e' resume ih =>
    exact ⟨h.1, fun e1 e2 inv rely grants => ih e2 (h.2 e1 e2 inv rely grants)⟩
  | calling call e' resume ih => exact ⟨h.1, fun r e1 inv ages => ih r e1 (h.2 r e1 inv ages)⟩

protected theorem bind {f : α → Engine → Course Engine β}
    (h : Sound who (fun e out e' => match out with
      | .ok a => Sound who P e (f a e')
      | .error r => P e (.error r) e') e c) : Sound who P e (c.bind f) := by
  rw [Course.bind_eq_bindOutcome]
  refine bindOutcome (h.mono fun e out e' next => ?_)
  cases out <;> exact next

theorem of_finishes {R : α → Engine → Prop} {E : Raise → Engine → Prop} (h : c.Finishes R E)
    (hR : ∀ a e', R a e' → Q e (.ok a) e') (hE : ∀ r e', E r e' → Q e (.error r) e') :
    Sound who Q e c := by
  cases c with
  | done a e' => exact hR a e' h
  | raised r e' => exact hE r e' h
  | waiting | calling => exact h.elim

end Sound
end

variable {e' e1 : Engine} {g : Goal} {c : Caller} {w : Wait}

/-- What a stretch is about: nothing yet, work of a transaction, or what comes after a commit. -/
inductive Doing
  | nothing
  | work (x : TxnId)
  | settling (x : TxnId)

namespace Engine
variable {e e0 : Engine} {who : Actor} {o : Doing} {x : TxnId} {held : List Mutex}

theorem rest_spec (e : Engine) (c : Caller) (k : Option SegmentId) (d : Condition) :
    Lull e (e.rest c k d).1 ∧ (e.rest c k d).1.locked = e.locked.erase .engine ∧
    (e.rest c k d).2.who = c ∧
      (e.rest c k d).2.segment = k := by
  refine ⟨?_, ?_, rfl, rfl⟩
  · cases k with
    | none => exact ⟨{ Alike.refl _ with }, rfl⟩
    | some k =>
      refine (lull_setStanding e (some k) .atSafePoint).trans ⟨?_, rfl⟩
      exact { Alike.refl _ with }
  · cases k with
    | none | some => rfl

theorem setStanding_locked (e : Engine) (k : Option SegmentId) (s : Standing) :
    (e.setStanding k s).locked = e.locked := by
  cases k with
  | none | some => rfl

theorem pickSegment?_alike (h : Alike e e') (t : ThreadId) :
    e'.pickSegment? t = e.pickSegment? t := by
  have owners : e'.segments.map (·.owner) = e.segments.map (·.owner) := by
    refine Array.ext (by simp [h.segments_size]) fun i hi hi' => ?_
    simp only [Array.size_map] at hi hi'
    have same := (h.segment i).owner
    simp only [segment, Array.getD_eq_getD_getElem?, Array.getElem?_eq_getElem hi,
      Array.getElem?_eq_getElem hi',
      Option.getD_some] at same
    simpa using same
  have first : ∀ a : Engine, a.segments.findIdx? (·.owner.isNone) =
      (a.segments.map (·.owner)).findIdx? (·.isNone) := by
    intro a
    rw [Array.findIdx?_map]
    rfl
  have free : ∀ (a : Engine) (k : Nat),
      (a.segments[k]?).any (·.owner.isNone) = ((a.segments.map (·.owner))[k]?).any (·.isNone) := by
    intro a k
    rw [Array.getElem?_map]
    cases a.segments[k]? with
    | none | some => rfl
  simp only [pickSegment?, first, free, owners, h.thread]

def HasCommitted (who : Actor) (x : TxnId) (e e' : Engine) : Prop :=
  ∃ a m b, Alike e a ∧ a.Runs who x ∧ Minor x a m ∧ m.Valid x ∧ Commits x m b ∧ Alike b e'

/-- What a stretch has done so far. One that settles may have been a commit until now. -/
def Sofar (who : Actor) (o : Doing) (e0 e : Engine) : Prop :=
  match o with
  | .nothing => Lull e0 e
  | .work x => e0.Runs who x ∧ Works x e0 e
  | .settling x => Lull e0 e ∨ HasCommitted who x e0 e

theorem Sofar.lull (h : Sofar who o e0 e) (same : Lull e e') : Sofar who o e0 e' := by
  cases o with
  | nothing => exact .trans h same
  | work => exact ⟨h.1, h.2.trans same.alike.works⟩
  | settling =>
    obtain lull | ⟨a, m, b, before, mine, minor, valid, commits, after⟩ := h
    · exact .inl (lull.trans same)
    · exact .inr ⟨a, m, b, before, mine, minor, valid, commits, after.trans same.alike⟩

theorem Sofar.deed (h : Sofar who o e0 e) : ∃ a b, Alike e0 a ∧ Deed who a b ∧ Alike b e := by
  cases o with
  | nothing => exact ⟨e0, e, .refl e0, .nothing (Lull.alike h), .refl e⟩
  | work x => exact ⟨e0, e, .refl e0, .work x h.1 h.2, .refl e⟩
  | settling x =>
    obtain lull | ⟨a, m, b, before, mine, minor, valid, commits, after⟩ := h
    · exact ⟨e0, e, .refl e0, .nothing lull.alike, .refl e⟩
    · exact ⟨a, e, before, .commit x m b mine minor valid commits (.inl after), .refl e⟩

/-- A stretch that began in `e0` has come to `e` with the mutexes `held`. -/
structure Amid (who : Actor) (o : Doing) (held : List Mutex) (e0 e : Engine) : Prop where
  inv : e0.Inv
  sofar : Sofar who o e0 e
  feats : .engine ∉ e0.locked → Feats who.Acts e0 e
  core : e.Core
  weak : .engine ∉ e0.locked → ∀ k, e.WeakOk k
  locked : e.locked = held ++ e0.locked

namespace Amid

theorem start (inv : e0.Inv) (mine : ∀ y, o = .work y → e0.Runs who y) : Amid who o [] e0 e0 where
  inv := inv
  sofar := by
    cases o with
    | nothing => exact .refl e0
    | work x => exact ⟨mine x rfl, .refl x e0⟩
    | settling => exact .inl (.refl e0)
  feats _ := .start
  core := inv.core
  weak := inv.weak
  locked := rfl

theorem work (inv : e0.Inv) {x : TxnId} (mine : e0.Runs who x) : Amid who (.work x) [] e0 e0 :=
  .start inv fun _ hy => Doing.work.inj hy ▸ mine

theorem rest (inv : e0.Inv) : Amid who .nothing [] e0 e0 := .start inv (by rintro _ ⟨⟩)

theorem step (h : Amid who o held e0 e) (feat : Feat e e') (free : .engine ∉ e0.locked) :
    Feats who.Acts e0 e' :=
  .step (h.feats free) h.core (h.weak free) feat

theorem lull (h : Amid who o held e0 e) (same : Lull e e') {held' : List Mutex}
    (locked : e'.locked = held' ++ e0.locked) : Amid who o held' e0 e' where
  inv := h.inv
  sofar := h.sofar.lull same
  feats := h.step (.lull same)
  core := h.core.alike same.alike
  weak free k := (h.weak free k).alike same.alike
  locked := locked

theorem serves (h : Amid who (.work x) held e0 e) (serves : Serves x e e') (feat : Feat e e')
    (weak : .engine ∉ e0.locked → e'.WeakOk (e.txn x).segment) : Amid who (.work x) held e0 e' where
  inv := h.inv
  sofar := ⟨h.sofar.1, h.sofar.2.trans serves.works⟩
  feats := h.step feat
  core := serves.core
  weak free k := by
    by_cases hk : k = (e.txn x).segment
    · rw [hk]
      exact weak free
    · exact serves.works.weakOk h.core.life ((h.sofar.2.active x).2 h.sofar.1.1) hk (h.weak free k)
  locked := serves.locked.trans h.locked

end Amid

theorem Amid.ends {a b : Engine} (h : Amid who o held e0 a) (alike : Alike e0 a)
    (deed : Deed who a b) (feat : Feat a b)
    (core : b.Core) (weak : .engine ∉ e0.locked → ∀ k, b.WeakOk k) (lull : Lull b e)
    (locked : e.locked = e0.locked) : Stretch who e0 e :=
  .of_deed h.inv alike deed core weak lull.alike locked fun free => (h.step feat free).step core
    (weak free) (.lull lull)

theorem Sofar.stuck (h : Sofar who o e0 e) (core : e.Core) (locked : e.locked = held ++ e0.locked)
    (engine : .engine ∈ e.locked) : Stretch who e0 e where
  deed := h.deed
  feats free := absurd engine free
  locks _ := by rw [locked]; exact List.subset_append_right held e0.locked
  inv ticks := ⟨core, ticks, fun free => absurd engine free, fun _ _ => engine⟩

theorem Amid.stretch (h : Amid who o [] e0 e) : Stretch who e0 e where
  deed := h.sofar.deed
  feats free := h.feats (by rw [h.locked] at free; exact free)
  locks _ := by rw [h.locked]; exact fun _ hm => hm
  inv ticks := ⟨h.core, ticks, fun free => h.weak (by rw [h.locked] at free; exact free),
    by rw [h.locked]; exact h.inv.locks⟩

/-- The thread that acts is as it was, and so is its transaction but for dead targets. -/
structure Later (who : Actor) (e e' : Engine) : Prop where
  thread : ∀ t, who.thread = some t → e'.thread t = e.thread t
  txn : ∀ t x, who.thread = some t → (e.thread t).txn = some x → (e.txn x).Blanks (e'.txn x)
  ages : Ages e e'

theorem Later.refl (who : Actor) (e : Engine) : Later who e e :=
  ⟨fun _ _ => rfl, fun _ _ _ _ => .refl _, (Alike.refl e).ages⟩

theorem Alike.later (h : Alike e e') : Later who e e' :=
  ⟨fun t _ => h.thread t, fun _ x _ _ => by rw [h.txn]; exact .refl _, h.ages⟩

theorem Later.trans {e'' : Engine} (h : Later who e e') (h' : Later who e' e'') :
    Later who e e'' where
  thread t ht := (h'.thread t ht).trans (h.thread t ht)
  txn t x ht hx := (h.txn t x ht hx).trans (h'.txn t x ht (by rwa [h.thread t ht]))
  ages := h.ages.trans h'.ages

theorem Later.runs (h : Later who e e') (ok : e.LifeOk) (hx : e.Runs who x) : e'.Runs who x := by
  have blanks := h.txn _ x hx.thread (ok.thread x hx.1)
  exact ⟨by rw [Active, blanks.keeps.phase]; exact hx.1,
    by rw [actor, blanks.keeps.thread]; exact hx.2⟩

theorem Amid.runs (h : Amid who (.work x) held e0 e) : e.Runs who x :=
  ⟨(h.sofar.2.active x).2 h.sofar.1.1, by rw [actor, h.sofar.2.own.thread]; exact h.sofar.1.2⟩

theorem Amid.resume (h : Amid who o held e0 e) {e2 : Engine} (inv : e1.Inv) (later : Later who e e1)
    (enters : e1.Enters e2) : Amid who o [.engine] e1 e2 where
  inv := inv
  sofar := by
    cases o with
    | nothing => exact enters.lull
    | work => exact ⟨later.runs h.core.life h.runs, enters.alike.works⟩
    | settling => exact .inl enters.lull
  feats free := .step .start inv.core (inv.weak free) (.lull enters.lull)
  core := inv.core.alike enters.alike
  weak free k := (inv.weak free k).alike enters.alike
  locked := enters.locked

end Engine

open Engine TxHeap.Action

variable {α β : Type} {who : Actor} {o : Doing} {x : TxnId} {e0 e : Engine}
  {Q : Engine → Post β}

theorem Goal.met_of_holds {k : Option SegmentId} (h : g.holds c e = true) : g.Met c k e := by
  cases g with
  | othersStopped => exact ⟨e, by cases c <;> exact h, .inl rfl⟩
  | freeSegment =>
    cases c with
    | thread => exact h
    | system | outside => trivial
  | noInevitable => cases c <;> exact Option.isNone_iff_eq_none.1 h

theorem Goal.met_of_settled {k : Option SegmentId} (h : g.holds c e = true) (same : Alike e e')
    (segments : e'.segments = (e.setStanding k .running).segments) : g.Met c k e' := by
  cases g with
  | othersStopped => exact ⟨e, by cases c <;> exact h, .inr segments⟩
  | freeSegment =>
    cases c with
    | thread t =>
      change (e'.pickSegment? t).isSome = true
      rwa [pickSegment?_alike same]
    | system | outside => trivial
  | noInevitable =>
    have none : e.inevitable = none := by cases c <;> exact Option.isNone_iff_eq_none.1 h
    cases c <;> exact same.inevitable.trans none

theorem sound_lock {m : Mutex} {f : Unit → EngineCall β} (stretch : m ∈ e.locked → Stretch who e0 e)
    (stuck : m ∈ e.locked → .engine ∈ e.locked)
    (next : m ∉ e.locked → Sound who Q e0 (f () (e.acquire m))) :
    Sound who Q e0 ((lock m >>= f) e) := by
  by_cases taken : m ∈ e.locked
  · rw [bind_run, lock_taken taken]
    refine ⟨stretch taken, fun e1 e2 _ rely grants => ?_⟩
    exact absurd (rely.locks (stuck taken) taken) grants.1
  · rw [bind_done (lock_free taken)]
    exact next taken

namespace Engine.Amid
variable {f : Unit → EngineCall β}

theorem sound_engine (h : Amid who o [] e0 e)
    (next : .engine ∉ e0.locked → Amid who o [.engine] e0 (e.acquire .engine) →
      Sound who Q e0 (f () (e.acquire .engine))) : Sound who Q e0 ((lock .engine >>= f) e) := by
  refine sound_lock (fun _ => h.stretch) id fun free => ?_
  have locked : (e.acquire .engine).locked = [.engine] ++ e0.locked := by simp [acquire, h.locked]
  exact next (by rw [h.locked] at free; exact free) (h.lull (lull_acquire e .engine) locked)

theorem sound_stack (h : Amid who o [] e0 e) {t : ThreadId}
    (next : .stack t ∉ e.locked → Sound who Q e0 (f () (e.acquire (.stack t)))) :
    Sound who Q e0 ((lock (.stack t) >>= f) e) := by
  refine sound_lock (fun _ => h.stretch) (fun taken => ?_) next
  rw [h.locked] at taken ⊢
  exact h.inv.locks t taken

section
variable (h : Amid who o [.engine] e0 e)
include h

theorem stack_free (free : .engine ∉ e0.locked) (t : ThreadId) : .stack t ∉ e.locked := by
  rw [h.locked]
  intro taken
  obtain heq | taken := List.mem_cons.1 taken
  · cases heq
  · exact free (h.inv.locks t taken)

theorem unlock : Amid who o [] e0 (e.giveUp .engine) :=
  h.lull (lull_giveUp e .engine) (by simp [giveUp, h.locked])

theorem sound_rest {f : Unit → Engine → Course Engine β}
    (lull : Lull e e') (locked : e'.locked = e.locked.erase .engine)
    (next : ∀ e1 e2, Later who e e2 → Amid who o [.engine] e1 e2 → .engine ∉ e1.locked →
      w.Grants e1 e2 →
      Sound who Q e1 (f () e2)) (grants : ∀ e1 e2, w.Grants e1 e2 → e1.Enters e2) :
    Sound who Q e0 (.waiting w e' fun e2 => f () e2) := by
  have rested : Amid who o [] e0 e' := h.lull lull (by rw [locked, h.locked]; simp)
  refine ⟨rested.stretch, fun e1 e2 inv rely hw => ?_⟩
  have enters := grants e1 e2 hw
  have later : Later who e' e1 := ⟨rely.thread, rely.txn, rely.ages⟩
  exact next e1 e2 (lull.alike.later.trans (later.trans enters.alike.later))
    (rested.resume inv later enters) enters.free hw

theorem sound_park (free : .engine ∉ e0.locked) (c : Caller)
    (next : ∀ e1 e2, Later who e e2 → Amid who o [.engine] e1 e2 → .engine ∉ e1.locked →
      Sound who Q e1 (f () e2)) : Sound who Q e0 ((park c >>= f) e) := by
  rw [bind_run, park]
  split
  · obtain ⟨lull, locked, -⟩ :=
      rest_spec (e.note .waitSyncPause (e.segmentOf c) [("mode", .text e.pauseMode.toText)]) c
        (e.segmentOf c) .released
    exact h.sound_rest ((lull_note e _ _ _).trans lull) locked
      (fun e1 e2 later amid free _ => next e1 e2 later amid free) fun _ _ enters => enters
  · exact next e0 e (.refl who e) h free

theorem sound_await (free : .engine ∉ e0.locked) (c : Caller) (g : Goal)
    (next : ∀ e1 e2, Later who e e2 → Amid who o [.engine] e1 e2 → .engine ∉ e1.locked →
      g.Met c (e.segmentOf c) e2 →
      Sound who Q e1 (f () e2)) : Sound who Q e0 ((await c g >>= f) e) := by
  rw [bind_run, await]
  split
  · next holds =>
    exact next e0 e (.refl who e) h free (Goal.met_of_holds holds)
  · obtain ⟨lull, locked, -⟩ :=
      rest_spec (e.note g.kind (e.segmentOf c) []) c (e.segmentOf c) g.condition
    refine h.sound_rest ((lull_note e _ _ _).trans lull) locked
      (fun e1 e2 later amid free met => next e1 e2 later amid free ?_) fun _ _ grants => grants.1
    exact met.2

end
end Engine.Amid

namespace Wait

def Comes (w : Wait) (e : Engine) (p : Engine × Option Wait) : Prop :=
  match p.2 with
  | none => w.Grants e p.1
  | some w' => Lull e p.1 ∧ p.1.locked = e.locked ∧ ∀ a b, w'.Grants a b → w.Grants a b

theorem stayPaused_spec (free : .engine ∉ e.locked) (z : Sleeper) :
    match stayPaused z (e.acquire .engine) with
    | (e', none) => e.Enters e'
    | (e', some z') =>
      Lull e e' ∧ e'.locked = e.locked ∧ z'.who = z.who ∧ z'.segment = z.segment := by
  by_cases paused : (e.acquire .engine).pausedFor z.who = true
  · rw [stayPaused, if_pos paused]
    obtain ⟨lull, locked, same⟩ := rest_spec (e.acquire .engine) z.who z.segment .released
    exact ⟨(lull_acquire e .engine).trans lull, locked.trans (by simp [acquire]), same⟩
  · rw [stayPaused, if_neg paused]
    refine ⟨free, (lull_acquire e .engine).trans ?_, ?_⟩
    · exact (lull_setStanding _ _ _).trans (lull_note _ _ _ _)
    · exact setStanding_locked _ _ _

theorem settle_spec (enters : e.Enters e1) (g : Goal) (z : Sleeper)
    (same : ∀ a b, a.Enters b ∧ g.Met z.who z.segment b → w.Grants a b) :
    w.Comes e (settle g z e1) := by
  rw [settle]
  split
  · next holds =>
    have lull : Lull e1 ((e1.setStanding z.segment .running).noteDone g.kind z.segment) :=
      (lull_setStanding _ _ _).trans (lull_note _ _ _ _)
    refine same _ _ ⟨⟨enters.free, enters.lull.trans lull, ?_⟩,
      Goal.met_of_settled holds lull.alike rfl⟩
    exact (setStanding_locked _ _ _).trans enters.locked
  · obtain ⟨lull, locked, hwho, hsegment⟩ := rest_spec e1 z.who z.segment g.condition
    refine ⟨enters.lull.trans lull, locked.trans (by simp [enters.locked]),
      fun a b grants => same a b ?_⟩
    exact ⟨grants.1, hsegment ▸ hwho ▸ grants.2⟩

theorem wake_spec (ready : w.ready e = true) : w.Comes e (w.wake e) := by
  have free : ∀ ticket, Wait.ready.awake ticket e = true → .engine ∉ e.locked := by
    intro ticket h
    simp only [Wait.ready.awake, Bool.and_eq_true, Bool.not_eq_true', Engine.isLocked] at h
    simpa using h.2
  cases w with
  | mutex =>
    simp only [Wait.ready, Bool.not_eq_true', Engine.isLocked] at ready
    exact ⟨by simpa using ready, rfl⟩
  | backoff => exact rfl
  | pause z =>
    have spec := stayPaused_spec (free _ ready) z
    simp only [wake]
    generalize stayPaused z (e.acquire .engine) = p at spec
    obtain ⟨e', _ | z'⟩ := p
    · exact spec
    · exact ⟨spec.1, spec.2.1, fun _ _ grants => grants⟩
  | goal g z =>
    have enters : e.Enters (e.acquire .engine) := ⟨free _ ready, lull_acquire e .engine, rfl⟩
    simp only [wake]
    split
    · obtain ⟨lull, locked, hwho, hsegment⟩ :=
        rest_spec ((e.acquire .engine).note .waitSyncPause z.segment
        [("mode", .text (e.acquire .engine).pauseMode.toText)]) z.who z.segment .released
      refine ⟨enters.lull.trans ((lull_note _ _ _ _).trans lull), ?_, fun a b grants => ?_⟩
      · exact locked.trans (by simp [acquire, note])
      · exact ⟨grants.1, hsegment ▸ hwho ▸ grants.2⟩
    · exact settle_spec enters g z fun _ _ h => h
  | pauseInGoal g z =>
    have spec := stayPaused_spec (free _ ready) z
    simp only [wake]
    generalize stayPaused z (e.acquire .engine) = p at spec
    obtain ⟨e', _ | z'⟩ := p
    · exact settle_spec spec g z fun _ _ h => h
    · refine ⟨spec.1, spec.2.1, fun a b grants => ?_⟩
      obtain ⟨hwho, hsegment⟩ := spec.2.2
      exact ⟨grants.1, hsegment ▸ hwho ▸ grants.2⟩

end Wait
end TxHeap
