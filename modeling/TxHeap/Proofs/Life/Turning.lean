import TxHeap.Proofs.Life.Outline
import TxHeap.Proofs.Sync.Sleeping

/-! Calls in outline. Whenever a call stops, it has made only changes that it has licence for; if it
has ended a transaction, what it calls back from there on is what was due, in order. -/

namespace TxHeap
open Engine TxHeap.Action

variable {z : CallPart} {e : Engine} {who : Caller} {g : Goal} {E : Raise → Prop}

/-- A call that came to wait for `w` in `e` goes on in `b` when the others have left `a`. -/
structure Roused (control : Option Nat) (threads : List ThreadId) (w : Wait)
    (e a b : Engine) : Prop where
  inv : a.Inv
  sound : a.outline.Sound
  abides : Abides (.start control threads e) e a
  resumes : w.Resumes a b
  /-- Who has asked for a pause has it. -/
  granted : ∀ who, w.pausing = some who → b.Stopped who e.pauseMode

/-- A part of a call, from where it went on: whether it has ended a transaction before that, and the
threads it acts for. -/
structure CallPart where
  spent : Bool
  threads : List ThreadId
  start : Outline

namespace CallPart

def Acting (z : CallPart) (t : ThreadId) : Prop := t ∈ z.threads ∨ z.start.threads ≤ t

def joined (z : CallPart) (e : Engine) : List ThreadId :=
  z.threads ++ List.range' z.start.threads (e.threads.size - z.start.threads)

def next (z : CallPart) (ended : Option Ending) (e a : Engine) : CallPart :=
  ⟨z.spent || ended.isSome, z.joined e, a.outline⟩

theorem spent_next {ended : Option Ending} {a : Engine} (h : z.spent = true ∨ ended ≠ none) :
    (z.next ended e a).spent = true := by
  rwa [next, Bool.or_eq_true, Option.isSome_iff_ne_none]

theorem Acting.joined {t : ThreadId} (h : z.Acting t) (known : t < e.threads.size) :
    t ∈ z.joined e := by
  rw [CallPart.joined, List.mem_append, List.mem_range'_1]
  refine h.imp id fun fresh => ⟨fresh, ?_⟩
  rwa [Nat.add_sub_cancel' (fresh.trans_lt known).le]

end CallPart

/-- A place in a part of a call, and the transaction that has ended so far in that part. -/
structure Point extends CallPart where
  ended : Option Ending := none
  here : Engine

/-- The part of the call so far has kept to the licence. A stack is locked only by one who has the
engine's mutex. -/
structure Licensed (L : Licence) (p : Point) : Prop where
  turns : Turns L p.spent p.start p.ended p.here.outline
  sound : p.start.Sound
  locks : ∀ t, .stack t ∈ p.here.locked → .engine ∈ p.here.locked

variable {α β : Type}

/-- Whenever the course stops, the call has kept to its licence. It ends within `Q`. -/
def Turning (L : Licence) (Q : CallPart → Post α) : CallPart → Course Engine α → Prop
  | z, .done a e' =>
    (∃ ended, Turns L z.spent z.start ended e'.outline ∧ ∀ d ∈ ended, d.due = []) ∧ Q z (.ok a) e'
  | z, .raised v e' =>
    (∃ ended, Turns L z.spent z.start ended e'.outline ∧ ∀ d ∈ ended, d.due = []) ∧
      Q z (.error v) e'
  | z, .waiting w e' resume => ∃ ended, Turns L z.spent z.start ended e'.outline ∧
    (∀ d ∈ ended, L.settled e'.outline ∧ d.due = [] ∧ ∀ s, (resume s).Calls []) ∧
    ∀ a b, Roused L.control (z.joined e') w e' a b → Turning L Q (z.next ended e' a) (resume b)
  | z, .calling f e' resume => ∃ ended, Turns L z.spent z.start ended e'.outline ∧
    (ended = none → z.spent = true ∧ e'.outline = z.start) ∧
    (∀ d ∈ ended, L.settled e'.outline ∧ ∃ rest, d.due = f :: rest ∧
      ∀ s, (resume (.ok ()) s).Calls rest) ∧
    (∀ v s, resume (.error v) s = .raised v s) ∧
    ∀ a, a.Inv → a.outline.Sound → Ages e' a → L.back a →
      Turning L Q (z.next ended e' a) (resume (.ok ()) a)

theorem Turning.mono {L : Licence} {Q Q' : CallPart → Post α} {c : Course Engine α}
    (h : Turning L Q z c) (hQ : ∀ z out e, Q z out e → Q' z out e) : Turning L Q' z c := by
  induction c generalizing z with
  | done | raised => exact ⟨h.1, hQ _ _ _ h.2⟩
  | waiting w e' resume ih =>
    obtain ⟨ended, turns, mute, next⟩ := h
    exact ⟨ended, turns, mute, fun a b roused => ih b (next a b roused)⟩
  | calling f e' resume ih =>
    obtain ⟨ended, turns, spent, due, error, next⟩ := h
    exact ⟨ended, turns, spent, due, error, fun a inv sound ages back =>
      ih _ a (next a inv sound ages back)⟩

namespace Engine

structure Inner (e : Engine) : Prop where
  engine : .engine ∈ e.locked
  loose : ∀ t, .stack t ∉ e.locked

structure Whole (e : Engine) : Prop where
  core : e.Core
  weak : ∀ k, e.WeakOk k

/-- All is in order, weak references included if nobody has the engine's mutex. -/
structure Orderly (e : Engine) : Prop where
  core : e.Core
  weak : .engine ∉ e.locked → ∀ k, e.WeakOk k

theorem Inv.orderly (h : e.Inv) : e.Orderly := ⟨h.core, h.weak⟩

variable {e' : Engine}

theorem Orderly.alike (h : e.Orderly) (same : Alike e e')
    (free : .engine ∉ e'.locked → .engine ∉ e.locked) : e'.Orderly :=
  ⟨h.core.alike same, fun free' k => (h.weak (free free') k).alike same⟩

theorem Orderly.acquire (h : e.Orderly) (m : Mutex) : (e.acquire m).Orderly :=
  h.alike (alike_acquire ..) fun free taken => free (.tail _ taken)

theorem Inner.congr (h : e.Inner) (locked : e'.locked = e.locked) : e'.Inner :=
  ⟨locked ▸ h.engine, locked ▸ h.loose⟩

end Engine

namespace Licence
variable (L : Licence) (foreign : List (Nat × Foreign))

/-- The call may stop with this entry of its own when it has ended a transaction. -/
def SettlesAt : Prop := ∀ o : Outline,
  (∀ c, L.control = some c → o.foreign.lookup c = foreign.lookup c) → L.settled o

variable {L foreign}

theorem SettlesAt.congr {foreign' : List (Nat × Foreign)} (h : L.SettlesAt foreign)
    (same : ∀ c, L.control = some c → foreign'.lookup c = foreign.lookup c) :
    L.SettlesAt foreign' :=
  fun o ho => h o fun c hc => (ho c hc).trans (same c hc)

end Licence

variable {L : Licence} {p q : Point} {x : TxnId} {t : ThreadId} {m : Mutex}

namespace Point

def go (p : Point) (e : Engine) : Point := { p with here := e }

@[simp] theorem here_go (p : Point) (e : Engine) : (p.go e).here = e := rfl

def Clear (L : Licence) (p : Point) : Prop := ∀ d ∈ p.ended, d.due = [] ∧ L.SettlesAt p.here.foreign

/-- The call may stop here with `f` to come, which calls nothing back if a transaction has ended. -/
def Calm (L : Licence) (p : Point) (f : EngineCall β) : Prop :=
  p.Clear L ∧ (p.ended ≠ none → Action.Mute f)

theorem Clear.of_none (none : p.ended = none) : p.Clear L := by
  rw [Clear, none]
  rintro _ ⟨⟩

theorem Calm.of_none {f : EngineCall β} (none : p.ended = none) : p.Calm L f :=
  ⟨.of_none none, fun some => absurd none some⟩

theorem Clear.congr (h : p.Clear L) (ended : q.ended = p.ended ∨ q.ended = none)
    (foreign : ∀ c, L.control = some c → q.here.foreign.lookup c = p.here.foreign.lookup c) :
    q.Clear L := by
  obtain same | none := ended
  · rw [Clear, same]
    exact fun d hd => ⟨(h d hd).1, (h d hd).2.congr foreign⟩
  · exact .of_none none

theorem Calm.stop {f : EngineCall β} (h : p.Calm L f) (same : e.outline = p.here.outline) :
    ∀ d ∈ p.ended, L.settled e.outline ∧ d.due = [] ∧ ∀ s, (f s).Calls [] := by
  intro d hd
  obtain ⟨due, settles⟩ := h.1 d hd
  refine ⟨settles _ fun c _ => congrArg (List.lookup c) (congrArg Outline.foreign same), due,
    (h.2 ?_).calls⟩
  rw [hd]
  exact Option.some_ne_none d

structure Tracks (p : Point) (t : ThreadId) : Prop where
  acting : p.Acting t
  known : t < p.here.threads.size

structure Tends (p : Point) (x : TxnId) : Prop where
  acting : p.Acting (p.here.txn x).thread
  held : (p.here.thread (p.here.txn x).thread).txn = some x

end Point

/-- What is known of its threads when a call goes on after a callback. -/
structure Later (p q : Point) : Prop where
  spent : p.spent = true → q.spent = true
  tracks : ∀ t, p.Tracks t → q.Tracks t
  ages : p.here.outline.Ages q.here.outline

/-- The call has waited at most: its threads and its foreign entry are as it left them. -/
structure Onward (L : Licence) (p q : Point) : Prop extends Later p q where
  ended : q.ended = p.ended ∨ q.ended = none
  unspent : p.ended = none → q.spent = p.spent
  thread : ∀ t, p.Tracks t → q.here.thread t = p.here.thread t
  txn : ∀ t x, p.Tracks t → (p.here.thread t).txn = some x → (p.here.txn x).Blanks (q.here.txn x)
  foreign : ∀ c, L.control = some c → q.here.foreign.lookup c = p.here.foreign.lookup c

namespace Licensed
section
variable (h : Licensed L p)
include h

theorem outline : p.here.outline.Sound := h.turns.sound h.sound

theorem keep (same : e.outline = p.here.outline)
    (locks : ∀ t, .stack t ∈ e.locked → .engine ∈ e.locked) : Licensed L (p.go e) :=
  ⟨by rw [Point.go, same]; exact h.turns, h.sound, locks⟩

theorem poised (same : Poised p.here e) : Licensed L (p.go e) :=
  h.keep same.outline (by rw [same.locked]; exact h.locks)

theorem turn (turn : Turn L p.spent p.here.outline e.outline)
    (locks : ∀ t, .stack t ∈ e.locked → .engine ∈ e.locked) : Licensed L (p.go e) :=
  ⟨h.turns.turn turn, h.sound, locks⟩

theorem acquire (free : .engine ∉ p.here.locked) :
    Licensed L (p.go (p.here.acquire .engine)) ∧ (p.here.acquire .engine).Inner := by
  have inner : (p.here.acquire .engine).Inner := by
    refine ⟨.head _, fun t taken => ?_⟩
    obtain same | taken := List.mem_cons.1 taken
    · cases same
    · exact free (h.locks t taken)
  exact ⟨h.keep rfl fun _ _ => inner.engine, inner⟩

theorem giveUp (inner : p.here.Inner) : Licensed L (p.go (p.here.giveUp .engine)) :=
  h.keep rfl fun t taken => absurd (List.mem_of_mem_erase taken) (inner.loose t)

theorem tends (tracks : p.Tracks t) (held : (p.here.thread t).txn = some x) :
    p.Tends x ∧ (p.here.txn x).thread = t := by
  obtain rfl := (h.outline.held t x held).2.1
  exact ⟨⟨tracks.acting, held⟩, rfl⟩

theorem tracks (tends : p.Tends x) : p.Tracks (p.here.txn x).thread :=
  ⟨tends.acting, h.outline.lt
    (by rw [show (p.here.outline.thread _).txn = some x from tends.held]; nofun)⟩

theorem active (tends : p.Tends x) : p.here.Active x := (h.outline.held _ x tends.held).2.2.1

end
end Licensed

theorem Point.Tends.keep (h : p.Tends x) (same : e.outline = p.here.outline) :
    (p.go e).Tends x := by
  have txn := txn_of_outline same x
  have held := held_of_outline same (p.here.txn x).thread
  exact ⟨by rw [here_go, txn.1]; exact h.acting, by rw [here_go, txn.1, held]; exact h.held⟩

theorem Point.Tracks.keep (h : p.Tracks t) (same : e.outline = p.here.outline) :
    (p.go e).Tracks t :=
  ⟨h.acting, by rw [here_go, threads_size_of_outline same]; exact h.known⟩

namespace Onward

theorem none (h : Onward L p q) (first : p.ended = .none) : q.ended = .none :=
  h.ended.elim (fun same => same.trans first) id

theorem clear (h : Onward L p q) (clear : p.Clear L) : q.Clear L := clear.congr h.ended h.foreign

theorem keep (alike : Alike p.here e) (foreign : e.foreign = p.here.foreign) :
    Onward L p (p.go e) where
  spent := id
  tracks t ht := ⟨ht.acting, by rw [Point.here_go, alike.threads]; exact ht.known⟩
  ages := alike.ages.outline
  ended := .inl rfl
  unspent _ := rfl
  thread t _ := alike.thread t
  txn t x _ _ := by rw [Point.here_go, alike.txn]; exact .refl _
  foreign c _ := by rw [Point.here_go, foreign]

theorem acquire {m : Mutex} : Onward L p (p.go (p.here.acquire m)) := .keep (alike_acquire ..) rfl

theorem refl (L : Licence) (p : Point) : Onward L p p := keep (.refl p.here) rfl

theorem trans {r : Point} (h : Onward L p q) (h' : Onward L q r) : Onward L p r where
  spent spent := h'.spent (h.spent spent)
  tracks t ht := h'.tracks t (h.tracks t ht)
  ages := h.ages.trans h'.ages
  ended := by
    obtain same | none := h'.ended
    · rw [same]
      exact h.ended
    · exact .inr none
  unspent first := (h'.unspent (h.none first)).trans (h.unspent first)
  thread t ht := (h'.thread t (h.tracks t ht)).trans (h.thread t ht)
  txn t x ht hx := (h.txn t x ht hx).trans (h'.txn t x (h.tracks t ht) (by rwa [h.thread t ht]))
  foreign c hc := (h'.foreign c hc).trans (h.foreign c hc)

theorem blanks (h : Onward L p q) (lic : Licensed L p) (tends : p.Tends x) :
    (p.here.txn x).Blanks (q.here.txn x) :=
  h.txn _ x (lic.tracks tends) tends.held

theorem tends (h : Onward L p q) (lic : Licensed L p) (tends : p.Tends x) : q.Tends x := by
  have tracks := lic.tracks tends
  have same := (h.blanks lic tends).keeps.thread
  refine ⟨?_, ?_⟩
  · rw [same]
    exact (h.tracks _ tracks).acting
  · rw [same, h.thread _ tracks]
    exact tends.held

end Onward

section Combinators
variable {P : CallPart → Post β}

theorem Turning.ok {Q : CallPart → Post α} (lic : Licensed L p) (clear : p.Clear L) {a : α}
    (post : Q p.toCallPart (.ok a) p.here) : Turning L Q p.toCallPart (.done a p.here) :=
  ⟨⟨p.ended, lic.turns, fun d hd => (clear d hd).1⟩, post⟩

theorem Turning.error {Q : CallPart → Post α} (lic : Licensed L p) (clear : p.Clear L) {v : Raise}
    (same : e.outline = p.here.outline) (post : Q p.toCallPart (.error v) e) :
    Turning L Q p.toCallPart (.raised v e) :=
  ⟨⟨p.ended, same ▸ lic.turns, fun d hd => (clear d hd).1⟩, post⟩

variable {f : Unit → EngineCall β}

theorem turning_lock (lic : Licensed L p) (calm : p.Calm L (f ()))
    (stuck : m ∈ p.here.locked → .engine ∈ p.here.locked)
    (next : m ∉ p.here.locked → Turning L P p.toCallPart (f () (p.here.acquire m))) :
    Turning L P p.toCallPart ((lock m >>= f) p.here) := by
  by_cases taken : m ∈ p.here.locked
  · rw [bind_run, lock_taken taken]
    refine ⟨p.ended, lic.turns, calm.stop rfl, fun a b roused => ?_⟩
    exact absurd (roused.abides.locks (stuck taken) taken) roused.resumes.1
  · rw [bind_done (lock_free taken)]
    exact next taken

theorem turning_engine (lic : Licensed L p) (calm : p.Calm L (f ()))
    (next : .engine ∉ p.here.locked → Licensed L (p.go (p.here.acquire .engine)) →
      (p.here.acquire .engine).Inner →
      Turning L P p.toCallPart (f () (p.here.acquire .engine))) :
    Turning L P p.toCallPart ((lock .engine >>= f) p.here) :=
  turning_lock lic calm id fun free => next free (lic.acquire free).1 (lic.acquire free).2

theorem Engine.outline_rest (e : Engine) (who : Caller) (k : Option SegmentId) (c : Condition) :
    (e.rest who k c).1.outline = e.outline := by
  cases k <;> rfl

section
variable (lic : Licensed L p)
include lic

theorem turning_sleep {w : Wait} {z : Sleeper} {c : Condition} {e1 : Engine}
    (calm : p.Calm L (f ())) (alike : Alike p.here e1)
    (same : Poised p.here e1) (mode : e1.pauseMode = p.here.pauseMode) (hz : w.sleeper? = some z)
    (next : ∀ q, Licensed L q → Onward L p q → q.here.Inner → q.here.Whole → q.here.pausedFor
      z.who = false → (∀ who, w.pausing = some who → q.here.Stopped who p.here.pauseMode) →
      Turning L P q.toCallPart (f () q.here)) :
    Turning L P p.toCallPart (.waiting w (e1.rest z.who z.segment c).1 fun b => f () b) := by
  obtain ⟨lull, -, -⟩ := rest_spec e1 z.who z.segment c
  have mode' := (rest_pauseMode e1 z.who z.segment c).trans mode
  have outline := (outline_rest e1 z.who z.segment c).trans same.outline
  generalize (e1.rest z.who z.segment c).1 = e' at lull outline mode' ⊢
  have alike' := alike.trans lull.alike
  have foreign : e'.foreign = p.here.foreign := congrArg Outline.foreign outline
  refine ⟨p.ended, by rw [outline]; exact lic.turns, calm.stop outline, fun a b roused => ?_⟩
  obtain ⟨free, going, rouses⟩ := roused.resumes.rouses hz
  have after := (alike_acquire a .engine).trans rouses.alike
  have own : ∀ t, p.Tracks t → t ∈ p.joined e' :=
    fun t ht => ht.acting.joined (by rw [alike'.threads]; exact ht.known)
  have grown : p.here.threads.size ≤ b.threads.size := by
    rw [after.threads, ← alike'.threads]
    exact roused.abides.ages.threads_size
  refine next ⟨p.next p.ended e' a, none, b⟩ ⟨?_, roused.sound, fun _ _ => ?_⟩
    ⟨⟨fun spent => CallPart.spent_next (.inl spent), fun t ht => ⟨.inl (own t ht), ?_⟩, ?_⟩,
    .inr rfl, ?_,
    fun t ht => ?_, fun t x ht hx => ?_, fun c hc => ?_⟩ ⟨?_, fun t taken => ?_⟩
    ⟨roused.inv.core.alike after, fun k => (roused.inv.weak free k).alike after⟩ ?_ ?_
  · have back := (rouses.alike.outline rouses.foreign rouses.pauser rouses.closed).trans rfl
    rw [back]
    exact .start
  · rw [rouses.locked]
    exact .head _
  · exact ht.known.trans_le grown
  · exact (alike'.ages.trans (roused.abides.ages.trans after.ages)).outline
  · intro none
    rw [CallPart.next, none]
    exact Bool.or_false _
  · rw [after.thread, roused.abides.thread t (own t ht), alike'.thread]
  · rw [after.txn, ← alike'.txn]
    exact roused.abides.txn t x (own t ht) (by rwa [alike'.thread])
  · rw [rouses.foreign]
    exact (roused.abides.foreign c hc).trans (by rw [foreign])
  · rw [rouses.locked]
    exact .head _
  · rw [rouses.locked] at taken
    obtain heq | taken := List.mem_cons.1 taken
    · cases heq
    · exact free (roused.inv.locks t taken)
  · rwa [rouses.pausedFor]
  · rw [← mode']
    exact roused.granted

theorem turning_park (inner : p.here.Inner) (calm : p.Calm L (f ()))
    (next : ∀ q, Licensed L q → Onward L p q → q.here.Inner → (p.here.Whole → q.here.Whole) →
      q.here.pausedFor who = false →
      Turning L P q.toCallPart (f () q.here)) :
      Turning L P p.toCallPart ((park who >>= f) p.here) := by
  rw [bind_run, park]
  split
  · exact turning_sleep (z := (rest _ who (p.here.segmentOf who) .released).2) lic calm
      (alike_note ..) ⟨rfl, rfl⟩
      rfl rfl fun q lic onward inner whole free _ => next q lic onward inner (fun _ => whole) free
  · next free => exact next p lic (.refl L p) inner id (Bool.not_eq_true _ ▸ free)

theorem turning_await (calm : p.Calm L (f ()))
    (now : g.holds who p.here = true → Turning L P p.toCallPart (f () p.here))
    (next : ∀ q, Licensed L q → Onward L p q → q.here.Inner → q.here.Whole →
      (g = .othersStopped → q.here.Stopped who p.here.pauseMode) →
      Turning L P q.toCallPart (f () q.here)) :
    Turning L P p.toCallPart ((await who g >>= f) p.here) := by
  rw [bind_run, await]
  split
  · next holds => exact now holds
  · refine turning_sleep (z := (rest _ who (p.here.segmentOf who) g.condition).2) lic calm
      (alike_note ..) ⟨rfl, rfl⟩
      rfl rfl fun q lic onward inner whole _ stopped => next q lic onward inner whole ?_
    rintro rfl
    exact stopped who rfl

theorem turning_awaited (inner : p.here.Inner) (calm : p.Calm L (f ()))
    (next : ∀ q, Licensed L q → Onward L p q → q.here.Inner → (p.here.Whole → q.here.Whole) →
      Turning L P q.toCallPart (f () q.here)) :
    Turning L P p.toCallPart ((await who g >>= f) p.here) :=
  turning_await lic calm (fun _ => next p lic (.refl L p) inner id)
    fun q lic onward inner whole _ => next q lic onward inner fun _ => whole

theorem turning_bracket (calm : p.Calm L (f ()))
    (next : ∀ q, Licensed L q → Onward L p q → (p.here.Orderly → q.here.Orderly) →
      Turning L P q.toCallPart (f () q.here)) :
    Turning L P p.toCallPart ((lock .bracket >>= f) p.here) := by
  have locks : ∀ {e : Engine}, (∀ t, .stack t ∈ e.locked → .engine ∈ e.locked) →
      ∀ t, .stack t ∈ (e.acquire .bracket).locked → .engine ∈ (e.acquire .bracket).locked := by
    intro e locks t taken
    obtain heq | taken := List.mem_cons.1 taken
    · cases heq
    · exact .tail _ (locks t taken)
  by_cases taken : .bracket ∈ p.here.locked
  · rw [bind_run, lock_taken taken]
    refine ⟨p.ended, lic.turns, calm.stop rfl, fun a b roused => ?_⟩
    obtain ⟨-, rfl⟩ := roused.resumes
    have own : ∀ t, p.Tracks t → t ∈ p.joined p.here := fun t ht => ht.acting.joined ht.known
    refine next ⟨p.next p.ended p.here a, none, a.acquire .bracket⟩
      ⟨.start, roused.sound, locks roused.inv.locks⟩
      ⟨⟨fun spent => CallPart.spent_next (.inl spent), fun t ht => ⟨.inl (own t ht), ?_⟩,
        (roused.abides.ages.trans (alike_acquire a .bracket).ages).outline⟩, .inr rfl,
        fun none => ?_,
        fun t ht => roused.abides.thread t (own t ht),
          fun t x ht hx => roused.abides.txn t x (own t ht) hx, roused.abides.foreign⟩
      fun _ => roused.inv.orderly.acquire .bracket
    · exact ht.known.trans_le roused.abides.ages.threads_size
    · rw [CallPart.next, none]
      exact Bool.or_false _
  · rw [bind_done (lock_free taken)]
    exact next (p.go (p.here.acquire .bracket)) (lic.keep rfl (locks lic.locks))
      (.keep (alike_acquire ..) rfl) (·.acquire .bracket)

theorem turning_work {y : EngineM α} {f : α → EngineCall β} (clear : p.Clear L)
    (work : Preserves E Poised y)
    (ok : ∀ a e, y p.here = .ok a e → Poised p.here e → Turning L P p.toCallPart (f a e))
    (error : ∀ v e, E v → Poised p.here e → P p.toCallPart (.error v) e) :
    Turning L P p.toCallPart ((liftM y >>= f) p.here) := by
  have ends := work.ends p.here
  unfold Ends at ends
  split at ends
  · next a e run =>
    rw [lift_done run]
    exact ok a e run ends
  · next v e run =>
    rw [lift_bind_error run]
    exact .error lic clear ends.2.outline (error v e ends.1 ends.2)

theorem turning_smooth {y : EngineCall α} {f : α → EngineCall β} (inner : p.here.Inner)
    (clear : p.Clear L) (smooth : Smooth E y)
    (ok : ∀ a e, y p.here = .done a e → Poised p.here e → Turning L P p.toCallPart (f a e))
    (error : ∀ v e, E v → e.outline = p.here.outline → P p.toCallPart (.error v) e) :
    Turning L P p.toCallPart ((y >>= f) p.here) := by
  have ends := (smooth.ends p.here inner.loose).known
  rw [bind_run]
  cases run : y p.here with
  | done a e =>
    rw [run] at ends
    exact ok a e run ends.1.toPoised
  | raised v e =>
    rw [run] at ends
    obtain ⟨⟨blamed, same, -⟩, -⟩ := ends
    exact .error lic clear same (error v e blamed same)
  | waiting | calling =>
    rw [run] at ends
    exact ends.elim

theorem turning_callAll {d : Ending} (ended : p.ended = some d) (mute : Action.Mute (f ()))
    (settles : L.SettlesAt p.here.foreign)
    (next : ∀ q, Licensed L q → Later p q → q.Clear L → (q = p ∨ L.back q.here ∧ q.spent = true) →
      Turning L P q.toCallPart (f () q.here)) :
      Turning L P p.toCallPart ((callAll d.due >>= f) p.here) := by
  have error : ∀ (rest : List Callback) v s,
      ((.error v : Except Raise Unit) |> fun r => (match r with
      | .ok () => .done () s
      | .error r =>
        .raised r s : Course Engine Unit).bind fun _ s => (callAll rest >>= f) s) = .raised v s :=
    fun _ _ _ => rfl
  -- The callbacks after the first are called in parts of their own, each of which begins where one
  -- has returned.
  have others : ∀ (rest : List Callback) (q : Point), Licensed L q → Later p q → q.ended = none →
      q.spent = true ∧ q.here.outline = q.start → L.back q.here →
      Turning L P q.toCallPart ((callAll rest >>= f) q.here) := by
    intro rest
    induction rest with
    | nil =>
      intro q lic later none spent back
      exact next q lic later (.of_none none) (.inr ⟨back, spent.1⟩)
    | cons c rest ih =>
      intro q lic later none spent back
      refine ⟨q.ended, lic.turns, fun _ => spent, by rw [none]; rintro _ ⟨⟩, error rest,
        fun a inv sound ages back => ?_⟩
      have spent' : (q.next q.ended q.here a).spent = true := CallPart.spent_next (.inl spent.1)
      refine ih ⟨q.next q.ended q.here a, .none, a⟩ ⟨.start, sound, inv.locks⟩
        ⟨fun _ => spent', fun t ht => ⟨.inl ?_, ?_⟩, later.ages.trans ages.outline⟩ rfl
          ⟨spent', rfl⟩ back
      · exact (later.tracks t ht).acting.joined (later.tracks t ht).known
      · exact (later.tracks t ht).known.trans_le ages.threads_size
  obtain ⟨x, phase, due⟩ := d
  cases due with
  | nil =>
    exact next p lic ⟨id, fun _ => id, .refl _⟩
      (by rw [Point.Clear, ended]; rintro _ ⟨⟩; exact ⟨rfl, settles⟩) (.inl rfl)
  | cons c rest =>
    refine ⟨p.ended, lic.turns, by rw [ended]; rintro ⟨⟩, ?_, error rest,
      fun a inv sound ages back => ?_⟩
    · rw [ended]
      rintro _ ⟨⟩
      exact ⟨settles _ fun _ _ => rfl, rest, rfl, calls_callAll mute rest⟩
    · have spent' : (p.next p.ended p.here a).spent = true :=
        CallPart.spent_next (.inr (by rw [ended]; exact Option.some_ne_none _))
      refine others rest ⟨p.next p.ended p.here a, .none, a⟩ ⟨.start, sound, inv.locks⟩
        ⟨fun _ => spent', fun t ht => ⟨.inl ?_, ?_⟩, ages.outline⟩ rfl ⟨spent', rfl⟩ back
      · exact ht.acting.joined ht.known
      · exact ht.known.trans_le ages.threads_size

end
end Combinators
end TxHeap
