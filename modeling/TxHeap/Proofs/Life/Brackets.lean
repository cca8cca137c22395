import TxHeap.Proofs.Life.Beginnings
import TxHeap.Proofs.Sync.Bracket

/-! Brackets in outline. A foreign caller that enters has a thread with an inevitable transaction;
one that leaves ends that only if it was begun when it entered. -/

namespace TxHeap
open Engine TxHeap.Action

/-- The open brackets of a foreign caller, from the innermost: whether a transaction was begun with
each. -/
def Engine.frames (e : Engine) (c : Nat) : List Bool :=
  ((e.foreign.lookup c).map (·.frames)).getD []

def Outline.Runs (o : Outline) (t : ThreadId) (x : TxnId) : Prop :=
  (o.thread t).txn = some x ∧ (o.txn x).2 = .inevitable

def Licence.opening (c : Nat) (e : Engine) (back : Engine → Prop) : Licence where
  control := some c
  tables _ := False
  ends t := ∃ f, e.foreign.lookup c = some f ∧ f.thread = t ∧ (e.thread t).txn ≠ none
  asks who := ∃ f, e.foreign.lookup c = some f ∧ who = .thread f.thread
  collects t := by
    rintro ⟨f, found, rfl, -⟩
    exact ⟨f, found, rfl⟩
  retires _ := False
  closes := False
  drops := False
  settled o := o.foreign.lookup c = e.foreign.lookup c
  back
  enters o f := (o.foreign.lookup c = none ∧ ∃ t, f = some ⟨t, []⟩) ∨
    ∃ t, o.foreign.lookup c = some ⟨t, e.frames c⟩ ∧
      f = some ⟨t, (e.thread t).txn.isNone :: e.frames c⟩ ∧
      ((e.thread t).txn = none → ∃ x, o.Runs t x ∧ e.txns.size ≤ x)

def Licence.closing (c : Nat) (token : Token) (e : Engine) (back : Engine → Prop) : Licence where
  control := some c
  tables _ := False
  ends t := ∃ rest, e.foreign.lookup c = some ⟨t, true :: rest⟩
  asks who := ∃ f, e.foreign.lookup c = some f ∧ who = .thread f.thread
  collects t := by
    rintro ⟨rest, found⟩
    exact ⟨_, found, rfl⟩
  retires t := ∃ f, e.foreign.lookup c = some f ∧ f.thread = t
  closes := False
  drops := token = .outermost
  settled o := ∃ t started rest, e.foreign.lookup c = some ⟨t, started :: rest⟩ ∧
    (o.foreign.lookup c = some ⟨t, rest⟩ ∨ rest = [] ∧ o.foreign.lookup c = none)
  back
  enters o f := f = none ∨
    ∃ t started rest, o.foreign.lookup c = some ⟨t, started :: rest⟩ ∧ f = some ⟨t, rest⟩

variable {L : Licence} {p q : Point} {x : TxnId} {t : ThreadId} {c : Nat} {frames : List Bool}
  {token : Token}
  {P : CallPart → Post β}

section Entries

theorem turn_entry (frames : List Bool) (control : L.control = some c) (unspent : p.spent = false)
    (known : t < p.here.threads.size)
    (apart : ∀ d g, d ≠ c → p.here.foreign.lookup d = some g → g.thread ≠ t)
    (may : L.enters p.here.outline (some ⟨t, frames⟩)) :
    Turn L p.spent p.here.outline
    (outline { p.here with foreign := setForeign c ⟨t, frames⟩ p.here.foreign }) := by
  refine .entry c _ control (fun d hd => by rw [lookup_setForeign, if_neg hd]; rfl) (fun f hf => ?_)
    (fun spent => ?_)
    (by rwa [lookup_setForeign, if_pos rfl])
  · rw [lookup_setForeign, if_pos rfl] at hf
    cases hf
    exact ⟨known, apart⟩
  · rw [unspent] at spent
    cases spent

theorem Licensed.apart (lic : Licensed L p) (entry : p.here.foreign.lookup c = some ⟨t, frames⟩) :
    ∀ d g, d ≠ c → p.here.foreign.lookup d = some g → g.thread ≠ t :=
  fun d g other found same => other (lic.outline.apart d c g _ found entry same)

theorem turn_forget (control : L.control = some c) (drops : L.drops)
    (may : L.enters p.here.outline none) :
    Turn L p.spent p.here.outline
    (outline { p.here with foreign := p.here.foreign.filter (·.1 != c) }) := by
  refine .entry c _ control (fun d hd => by rw [lookup_forget, if_neg hd]; rfl) (fun f hf => ?_)
    (fun _ => ⟨drops, ?_⟩) ?_
  · rw [lookup_forget, if_pos rfl] at hf
    cases hf
  · rw [lookup_forget, if_pos rfl]
  · rwa [lookup_forget, if_pos rfl]

end Entries

section Opening

section
variable (lic : Licensed L p) (first : p.ended = none) (unspent : p.spent = false)
  (control : L.control = some c) (tracks : p.Tracks t)
include lic first unspent control tracks

variable {P : CallPart → Except Raise (ThreadId × Token) → Engine → Prop}

theorem turning_frame (held : (p.here.thread t).txn = some x)
    (entry : p.here.foreign.lookup c = some ⟨t, frames⟩)
    (may : (p.here.txn x).reads ≠ [] → L.ends t ∧ L.SettlesAt p.here.foreign) (started : Bool)
    (enters : ∀ o : Outline, o.foreign.lookup c = some ⟨t, frames⟩ → o.Runs t x →
      L.enters o (some ⟨t, started :: frames⟩))
    (stale : ∀ (z : CallPart) v (e : Engine), (p.here.txn x).reads ≠ [] → v.Plain →
      (z.spent = false → e.foreign.lookup c = p.here.foreign.lookup c) → P z (.error v) e)
    (done : ∀ q : Point, q.spent = false → q.here.foreign.lookup c = some ⟨t, started :: frames⟩ →
      (q.here.thread t).txn = some x →
      (q.here.txn x).phase = .inevitable → P q.toCallPart (.ok (t, token)) q.here) :
    Turning L P p.toCallPart
    ((becomeInevitable x "callback" >>= fun _ => noteBracket c t token started) p.here) := by
  obtain ⟨tends, rfl⟩ := lic.tends tracks held
  refine turning_becomeInevitable lic first unspent tends.acting may "callback"
    (fun other => absurd held other)
    (fun z v e read plain same => stale z v e read plain fun unspent => same unspent c control)
      fun q lic' promoted => ?_
  have entry' := (promoted.foreign c control).trans entry
  have unspent' := promoted.unspent.trans unspent
  rw [noteBracket, look_bind, entry', lift_done (updateForeign_run ..)]
  have turn :=
    turn_entry (started :: frames) control unspent' (promoted.tracks _ tracks).known
      (lic'.apart entry')
      (enters _ entry' ⟨promoted.held, promoted.inevitable⟩)
  refine .ok (lic'.turn turn lic'.locks) (.of_none promoted.first) ?_
  refine done (q.go _) unspent' ?_ promoted.held promoted.inevitable
  exact (lookup_setForeign ..).trans (if_pos rfl)

theorem turning_join (entry : p.here.foreign.lookup c = some ⟨t, frames⟩)
    (may : (p.here.thread t).txn ≠ none → L.ends t ∧ L.SettlesAt p.here.foreign)
    (enters : ∀ (o : Outline) x, o.foreign.lookup c = some ⟨t, frames⟩ → o.Runs t x →
      ((p.here.thread t).txn = none → p.here.txns.size ≤ x) →
      L.enters o (some ⟨t, (p.here.thread t).txn.isNone :: frames⟩))
    (fails : ∀ (z : CallPart) v (e : Engine), v.Plain →
      (z.spent = false → e.foreign.lookup c = p.here.foreign.lookup c) →
      (v = .violation .engineClosed ∧ e.closed = true ∨
        (p.here.thread t).life ≠ { registered := true }) → P z (.error v) e)
    (done : ∀ (q : Point) x, q.spent = false →
      q.here.foreign.lookup c = some ⟨t, (p.here.thread t).txn.isNone :: frames⟩ →
      (q.here.thread t).txn = some x → (q.here.txn x).phase = .inevitable →
      ((p.here.thread t).txn = some x ∨ (p.here.thread t).txn = none ∧ p.here.txns.size ≤ x) →
        P q.toCallPart (.ok (t, token)) q.here) :
    Turning L P p.toCallPart (openBracket c t token p.here) := by
  rw [openBracket, look_bind]
  cases held : (p.here.thread t).txn with
  | none =>
    rw [held] at done enters
    simp only [Option.isNone_none, if_true]
    refine turning_begin lic first tracks (fun busy => absurd held busy) (fun strange => ?_)
      (fun e closed same => ?_) fun q x lic' begun => ?_
    · refine fails _ _ _ id (fun _ => rfl) (.inr fun life => ?_)
      exact Bool.noConfusion (strange.symm.trans (congrArg Life.registered life))
    · exact fails _ _ _ id (fun _ => congrArg (List.lookup c) (congrArg Outline.foreign same))
        (.inl ⟨rfl, (congrArg Outline.closed same).trans closed⟩)
    · rw [look_bind, begun.held]
      refine turning_frame lic' begun.first (begun.unspent.trans unspent) control
        (begun.tracks t tracks) begun.held
        ((begun.foreign c control).trans entry) (fun read => absurd begun.unread read) true
        (fun o entry runs => enters o x entry runs fun _ => begun.new)
          (fun _ _ _ read => absurd begun.unread read) fun r unspent' entry' held' inevitable => ?_
      exact done r x unspent' entry' held' inevitable (.inr ⟨rfl, begun.new⟩)
  | some x =>
    rw [held] at done enters
    rw [Option.isNone_some, if_neg Bool.false_ne_true]
    dsimp only
    rw [look_bind, held]
    refine turning_frame lic first unspent control tracks held entry
      (fun _ => may (by rw [held]; exact Option.some_ne_none x)) false
      (fun o entry runs => enters o x entry runs (by rintro ⟨⟩)) (fun z v e _ plain same =>
        fails z v e plain same (.inr fun life => ?_)) fun r unspent' entry' held' inevitable => ?_
    · have none := congrArg Life.txn life
      rw [show (p.here.thread t).life.txn = some x from held] at none
      cases none
    · exact done r x unspent' entry' held' inevitable (.inl rfl)

end

/-- A bracket has been opened for the thread `t`, in which an inevitable transaction runs. -/
structure Opened (c : Nat) (e : Engine) (t : ThreadId) (token : Token) (e' : Engine) : Prop where
  token : token = if (e.foreign.lookup c).isNone then .outermost else .nested
  thread : ∀ f, e.foreign.lookup c = some f → f.thread = t
  new : e.foreign.lookup c = none → e.threads.size ≤ t
  entry : e'.foreign.lookup c = some ⟨t, (e.thread t).txn.isNone :: e.frames c⟩
  txn : ∃ x, (e'.thread t).txn = some x ∧ (e'.txn x).phase = .inevitable ∧
    ((e.thread t).txn = some x ∨ (e.thread t).txn = none ∧ e.txns.size ≤ x)

/-- What opening a bracket comes to. A failure leaves the brackets as they are; without an entry,
only a closed engine makes it fail. -/
def Opens (c : Nat) (e : Engine) (z : CallPart) (out : Except Raise (ThreadId × Token))
    (e' : Engine) : Prop :=
  match out with
  | .ok (t, token) => z.spent = false ∧ Opened c e t token e'
  | .error v => v.Plain ∧ (z.spent = false → e'.frames c = e.frames c) ∧
    (v = .violation .engineClosed ∧ e'.closed = true ∨
      ∃ f, e.foreign.lookup c = some f ∧ (z.spent = false → e'.foreign.lookup c = some f))

variable {back : Engine → Prop} {e : Engine}

theorem Licensed.unbracket (lic : Licensed L p) : Licensed L (p.go (p.here.giveUp .bracket)) :=
  lic.keep rfl fun t taken => (List.mem_erase_of_ne (by decide)).2
    (lic.locks t (List.mem_of_mem_erase taken))

theorem turning_enter (lic : Licensed (.opening c e back) p) (first : p.ended = none)
    (unspent : p.spent = false) (here : p.here = e)
    (tracks : ∀ f, e.foreign.lookup c = some f → p.Tracks f.thread) :
    Turning (.opening c e back) (Opens c e) p.toCallPart (enter c e) := by
  subst here
  refine turning_bracket lic (.of_none first) fun q lic1 onward _ => ?_
  have same := onward.foreign c rfl
  have unspent1 := (onward.unspent first).trans unspent
  rw [look_bind, same]
  cases found : p.here.foreign.lookup c with
  | some f =>
    obtain ⟨t, frames⟩ := f
    have own := tracks _ found
    have entry := same.trans found
    have thread := onward.thread t own
    dsimp only
    rw [pure_bind, unlock_bind]
    refine turning_join lic1.unbracket (onward.none first) unspent1 rfl
      ((onward.tracks t own).keep rfl) entry (fun busy => ?_)
      (fun o x noted runs new => ?_) (fun z v e plain kept _ => ?_)
        fun r x unspent' entry' held inevitable old => ?_
    · exact ⟨⟨_, found, rfl, thread ▸ busy⟩, fun o ho => (ho c rfl).trans same⟩
    · have unchanged : p.here.frames c = frames := by rw [Engine.frames, found]; rfl
      refine .inr ⟨t, by rwa [unchanged], by rw [unchanged, ← thread]; rfl,
        fun idle => ⟨x, runs, ?_⟩⟩
      exact onward.ages.txns.trans (new (thread ▸ idle))
    · refine ⟨plain, fun unspent => ?_, .inr ⟨_, found, fun unspent => (kept unspent).trans entry⟩⟩
      rw [Engine.frames, kept unspent, Engine.frames, ← same]
      rfl
    · refine ⟨unspent', by rw [found]; rfl, fun f hf => ?_, by rw [found]; rintro ⟨⟩, ?_, x, held,
        inevitable, ?_⟩
      · rw [found] at hf
        exact congrArg Foreign.thread (Option.some.inj hf).symm
      · rw [entry', Engine.frames, found, ← thread]
        rfl
      · rw [← thread]
        exact old.imp id (.imp id (onward.ages.txns.trans))
  | none =>
    have entry := same.trans found
    have unframed : p.here.frames c = [] := by rw [frames, found]; rfl
    dsimp only
    refine turning_register lic1 (onward.none first) (fun e closed same' => ?_)
      fun r t lic2 enrolled => ?_
    · have kept : e.foreign.lookup c = none :=
        (congrArg (List.lookup c) (congrArg Outline.foreign same')).trans entry
      refine ⟨id, fun _ => ?_, .inl ⟨rfl, (congrArg Outline.closed same').trans closed⟩⟩
      rw [unframed, frames, kept]
      rfl
    · have unspent2 := enrolled.unspent.trans unspent1
      have turn : Turn (.opening c p.here back) r.spent r.here.outline _ :=
        turn_entry [] rfl unspent2 enrolled.own.known (fun d g _ found => enrolled.apart d g found)
          (.inl ⟨(enrolled.foreign c rfl).trans entry, t, rfl⟩)
      have lic3 := lic2.turn turn lic2.locks
      have new := onward.ages.threads.trans enrolled.new
      have fresh : (p.here.thread t).txn = none := congrArg Life.txn (lic.outline.fresh t new)
      have life := congrArg Life.txn enrolled.life
      rw [lift_done (updateForeign_run ..), pure_bind, unlock_bind]
      refine turning_join lic3.unbracket enrolled.first unspent2 rfl
        ⟨enrolled.own.acting, enrolled.own.known⟩
        ((lookup_setForeign ..).trans (if_pos rfl)) (fun busy => absurd life busy)
        (fun o x noted runs new => ?_) (fun z v e plain kept why => ?_)
        fun s x unspent' entry' held inevitable old => ?_
      · refine .inr ⟨t, by rwa [unframed], ?_, fun _ => ⟨x, runs, ?_⟩⟩
        · rw [unframed, fresh]
          exact congrArg (fun held : Option TxnId => some (⟨t, [held.isNone]⟩ : Foreign)) life
        · exact (onward.ages.txns.trans enrolled.ages.txns).trans (new life)
      · refine ⟨plain, fun unspent => ?_, .inl (why.resolve_right fun other => other enrolled.life)⟩
        rw [frames, kept unspent, unframed]
        exact congrArg (fun f : Option Foreign => (f.map (·.frames)).getD [])
          ((lookup_setForeign ..).trans (if_pos rfl))
      · refine ⟨unspent', by rw [found]; rfl, fun f hf => ?_, fun _ => new, ?_, x, held, inevitable,
          .inr ⟨fresh, ?_⟩⟩
        · rw [found] at hf
          cases hf
        · refine entry'.trans ?_
          rw [unframed, fresh]
          exact congrArg (fun held : Option TxnId => some (⟨t, [held.isNone]⟩ : Foreign)) life
        · refine (onward.ages.txns.trans enrolled.ages.txns).trans
            (old.resolve_left fun some => ?_).2
          exact Option.some_ne_none x (some.symm.trans life)

end Opening

section Closing

theorem turning_retire {P : CallPart → Post Unit} (lic : Licensed L p) (clear : p.Clear L)
    (control : L.control = some c) (tracks : p.Tracks t)
    (may : token = .outermost → L.drops ∧ L.retires t ∧
      ∀ foreign : List (Nat × Foreign), foreign.lookup c = none → L.SettlesAt foreign)
    (enters : ∀ o, L.enters o none) (nested : token ≠ .outermost → P p.toCallPart (.ok ()) p.here)
    (inside : ∀ x, token = .outermost → (p.here.thread t).txn = some x →
      P p.toCallPart (.error (.violation .bracketLeftInside)) p.here)
    (done : ∀ q, token = .outermost → (p.here.thread t).txn = none → Later p q →
      q.here.foreign.lookup c = none →
      (q.here.thread t).life = {} → P q.toCallPart (.ok ()) q.here) :
    Turning L P p.toCallPart (retire c t token p.here) := by
  unfold retire
  by_cases outermost : token = .outermost
  · obtain ⟨drops, retires, settles⟩ := may outermost
    rw [if_pos (by simp [outermost]), look_bind]
    cases held : (p.here.thread t).txn with
    | some x =>
      rw [if_pos Option.isSome_some]
      exact .error lic clear rfl (inside x outermost held)
    | none =>
      rw [if_neg (Option.not_isSome_iff_eq_none.2 rfl)]
      refine turning_bracket lic ⟨clear, fun _ => ?_⟩ fun q lic1 onward _ => ?_
      · exact (Mute.modify _).bind fun _ => (Mute.lift _).bind fun _ => mute_unregister t
      have idle : (q.here.thread t).txn = none := by rw [onward.thread t tracks, held]
      rw [Action.modify_bind, unlock_bind]
      obtain ⟨e, he⟩ : ∃ e : Engine, e =
          { q.here with foreign := q.here.foreign.filter (·.1 != c) } := ⟨_, rfl⟩
      have turn := he ▸ turn_forget control drops (enters _)
      have gone : e.foreign.lookup c = none := by
        rw [he, lookup_forget, if_pos rfl]
      have lic2 := lic1.turn turn (he ▸ lic1.locks)
      have later : Later q (q.go (e.giveUp .bracket)) := by
        refine ⟨id, fun u hu => ⟨hu.acting, hu.known.trans_le (turn.ages lic1.outline).threads⟩,
          turn.ages lic1.outline⟩
      rw [← he]
      refine turning_unregister (p := q.go (e.giveUp .bracket)) lic2.unbracket ?_
        (later.tracks t (onward.tracks t tracks)) retires
        (fun busy => absurd ?_ busy) fun r later' kept life => ?_
      · exact fun d hd => ⟨(onward.clear clear d hd).1, settles _ gone⟩
      · rwa [Point.here_go, show (e.giveUp .bracket).thread t = q.here.thread t from he ▸ rfl]
      · exact done r outermost held (onward.toLater.trans (later.trans later'))
          ((kept c control).trans gone) life
  · rw [if_neg (by simp [outermost])]
    exact .ok lic clear (nested outermost)

/-- What closing a bracket comes to. The brackets are as they should be unless something was called
back in between. -/
inductive Closes (c : Nat) (token : Token) (back : Engine → Prop) (e : Engine) (z : CallPart)
    (e' : Engine) : Except Raise Unit → Prop
  | unopened (none : e.frames c = []) (same : e'.foreign.lookup c = e.foreign.lookup c) :
      Closes c token back e z e' (.error (.violation (.bracketNotEntered c)))
  | mismatched {t : ThreadId} {started : Bool} {rest : List Bool}
      (entry : e.foreign.lookup c = some ⟨t, started :: rest⟩)
      (wrong : token = .outermost ↔ rest ≠ []) (popped : e'.foreign.lookup c = some ⟨t, rest⟩) :
      Closes c token back e z e' (.error (.violation (.tokenMismatch token rest.length)))
  /-- The transaction cannot be committed, and runs on. -/
  | obstructed {t : ThreadId} {rest : List Bool} {x : TxnId} {v : Raise}
      (entry : e.foreign.lookup c = some ⟨t, true :: rest⟩) (right : token = .outermost ↔ rest = [])
      (held : (e.thread t).txn = some x) (why : e.Obstructed x v)
      (popped : e'.foreign.lookup c = some ⟨t, rest⟩) (kept : (e'.thread t).txn = some x) :
        Closes c token back e z e' (.error v)
  /-- The transaction is rolled back, as one that is not inevitable may be. -/
  | refused {t : ThreadId} {rest : List Bool} {x : TxnId} {cause : Error}
      (entry : e.foreign.lookup c = some ⟨t, true :: rest⟩) (right : token = .outermost ↔ rest = [])
      (held : (e.thread t).txn = some x) (evitable : (e.txn x).phase ≠ .inevitable)
      (popped : z.spent = false → e'.foreign.lookup c = some ⟨t, rest⟩)
      (aborted : (e'.txn x).phase = .aborted) :
      Closes c token back e z e' (.error (.violation (.bracketCommit cause)))
  /-- The collection that follows a commit fails. -/
  | hindered {t : ThreadId} {rest : List Bool} {x : TxnId} {v : Raise}
      (entry : e.foreign.lookup c = some ⟨t, true :: rest⟩) (right : token = .outermost ↔ rest = [])
      (held : (e.thread t).txn = some x) (why : Hindered (.thread t) v e')
      (popped : z.spent = false → e'.foreign.lookup c = some ⟨t, rest⟩) :
        Closes c token back e z e' (.error v)
  /-- A transaction runs that the bracket has not begun, or that a callback has. -/
  | inside {t : ThreadId} {started : Bool} {x : TxnId}
      (entry : e.foreign.lookup c = some ⟨t, [started]⟩) (outermost : token = .outermost)
      (popped : z.spent = false → e'.foreign.lookup c = some ⟨t, []⟩)
      (busy : (e'.thread t).txn = some x)
      (found : started = false ∧ (e.thread t).txn = some x ∨
        started = true ∧ ∃ a, back a ∧ (a.thread t).txn = some x) :
      Closes c token back e z e' (.error (.violation .bracketLeftInside))
  | nested {t : ThreadId} {started : Bool} {rest : List Bool}
      (entry : e.foreign.lookup c = some ⟨t, started :: rest⟩)
      (inner : token ≠ .outermost ∧ rest ≠ [])
      (popped : z.spent = false → e'.foreign.lookup c = some ⟨t, rest⟩)
      (committed : started = true → ∀ x, (e.thread t).txn = some x → (e'.txn x).phase = .committed)
      (kept : started = false → (e'.thread t).txn = (e.thread t).txn) :
        Closes c token back e z e' (.ok ())
  | outermost {t : ThreadId} {started : Bool} (entry : e.foreign.lookup c = some ⟨t, [started]⟩)
      (outermost : token = .outermost)
      (gone : e'.foreign.lookup c = none) (free : (e'.thread t).life = {})
      (committed : started = true → ∀ x, (e.thread t).txn = some x → (e'.txn x).phase = .committed)
      (idle : started = false → (e.thread t).txn = none) : Closes c token back e z e' (.ok ())

variable {back : Engine → Prop} {e : Engine} {started : Bool} {rest : List Bool}

theorem mute_retire (c : Nat) (t : ThreadId) (token : Token) : Action.Mute (retire c t token) := by
  have last : Mute (do
      lock .bracket
      modify fun e => { e with foreign := e.foreign.filter (·.1 != c) }
      unlock .bracket
      unregister t : EngineCall Unit) :=
    (mute_lock _).bind fun _ => (Mute.modify _).bind fun _ => (Mute.lift _).bind fun _ =>
      mute_unregister t
  exact .ite (.look fun _ => .ite ((Mute.lift _).bind fun _ => last) last) (.pure _)

section
variable (lic : Licensed (.closing c token e back) p) (first : p.ended = none)
  (unspent : p.spent = false)
include lic first unspent

theorem turning_settle (orderly : p.here.Orderly) (tracks : p.Tracks t)
    (found : e.foreign.lookup c = some ⟨t, started :: rest⟩)
    (right : token = .outermost ↔ rest = []) (popped : p.here.foreign.lookup c = some ⟨t, rest⟩)
    (same : (p.here.thread t).txn = (e.thread t).txn)
    (keeps : ∀ x, (e.thread t).txn = some x → (e.txn x).Continues (p.here.txn x)) :
    Turning (.closing c token e back) (fun z out e' => Closes c token back e z e' out) p.toCallPart
    (closeBracket c t token started p.here) := by
  have settles : ∀ foreign : List (Nat × Foreign),
      (foreign.lookup c = some ⟨t, rest⟩ ∨ rest = [] ∧ foreign.lookup c = none) →
      (Licence.closing c token e back).SettlesAt foreign := by
    intro foreign entry o ho
    rw [← ho c rfl] at entry
    exact ⟨t, started, rest, found, entry⟩
  have may : token = .outermost → (Licence.closing c token e back).drops ∧
      (Licence.closing c token e back).retires t ∧
      ∀ foreign : List (Nat × Foreign), foreign.lookup c = none →
        (Licence.closing c token e back).SettlesAt foreign :=
    fun outermost => ⟨outermost, ⟨_, found, rfl⟩,
      fun foreign gone => settles foreign (.inr ⟨right.1 outermost, gone⟩)⟩
  have last : ∀ q, Licensed (.closing c token e back) q →
      q.Clear (.closing c token e back) → Later p q →
      (q.spent = false → q.here.foreign.lookup c = some ⟨t, rest⟩) →
      (started = true → ∀ x, (e.thread t).txn = some x → (q.here.txn x).phase = .committed) →
      (started = false → (q.here.thread t).txn = (e.thread t).txn) →
      (started = true → ∀ x, (q.here.thread t).txn = some x →
        ∃ a, back a ∧ (a.thread t).txn = some x) →
      Turning (.closing c token e back) (fun z out e' => Closes c token back e z e' out)
        q.toCallPart (retire c t token q.here) := by
    intro q lic' clear later popped' committed idle busy
    refine turning_retire lic' clear rfl (later.tracks t tracks) may (fun _ => .inl rfl)
      (fun inner => ?_) (fun x outermost held => ?_)
      fun r outermost held later' gone life => ?_
    · exact .nested found ⟨inner, fun none => inner (right.2 none)⟩ popped' committed idle
    · obtain rfl := right.1 outermost
      refine .inside found outermost popped' held ?_
      cases started with
      | false => exact .inl ⟨rfl, (idle rfl).symm.trans held⟩
      | true => exact .inr ⟨rfl, busy rfl x held⟩
    · obtain rfl := right.1 outermost
      refine .outermost found outermost gone life (fun began x hx => ?_) fun none =>
        (idle none).symm.trans held
      have known := (lic.outline.held t x (same.trans hx)).1.trans_le later.ages.txns
      have past := committed began x hx
      exact (later'.ages.past x known
        (by rw [show (q.here.outline.txn x).2 = _ from past]; rfl)).trans past
  cases started with
  | false =>
    exact last p lic (.of_none first) ⟨id, fun _ => id, .refl _⟩ (fun _ => popped) (by rintro ⟨⟩)
      (fun _ => same) (by rintro ⟨⟩)
  | true =>
    rw [closeBracket, if_pos rfl, look_bind]
    cases held : (p.here.thread t).txn with
    | none =>
      refine last p lic (.of_none first) ⟨id, fun _ => id, .refl _⟩ (fun _ => popped)
        (fun _ x hx => ?_) (by rintro ⟨⟩) fun _ x hx => ?_
      · rw [← same, held] at hx
        cases hx
      · rw [held] at hx
        cases hx
    | some x =>
      obtain ⟨tends, own⟩ := lic.tends tracks held
      have held' := same.symm.trans held
      have keeps := keeps x held'
      have committed : ∀ y, (e.thread t).txn = some y → y = x :=
        fun y hy => Option.some.inj (hy.symm.trans held')
      refine turning_commit (settles _ (.inl popped)) (fun answer => ?_)
        (fun q answer lic' joined clear resolved => ?_) lic first unspent orderly
        tends.acting ⟨rest, by rwa [own]⟩ (fun other => absurd tends.held other)
          (fun q v e' onward why same' => ?_)
        fun q v joined why => ?_
      · cases answer with
        | none => exact mute_retire c t token
        | some => exact (Mute.lift _).bind fun _ => mute_retire c t token
      · rw [own] at joined
        cases answer with
        | some =>
          refine .error lic' clear rfl
            (.refused found right held' ?_ (fun unspent => ?_) resolved.1)
          · rw [← keeps.phase]
            exact resolved.2
          · exact (joined.kept unspent c rfl).trans popped
        | none =>
          refine last q lic' clear joined.toLater
            (fun unspent => (joined.kept unspent c rfl).trans popped) (fun _ y hy => ?_)
            (by rintro ⟨⟩) fun _ y hy => ?_
          · rwa [committed y hy]
          · obtain ⟨a, ⟨idle, -⟩ | ⟨relied, -⟩, life, -⟩ := joined.since
            · exact absurd ((congrArg Life.txn life).symm.trans hy)
                (by rw [show (a.thread t).life.txn = none from idle]; rintro ⟨⟩)
            · exact ⟨a, relied, (congrArg Life.txn life).symm.trans hy⟩
      · have kept := keeps.trans (onward.blanks lic tends).keeps
        refine .obstructed found right held' ?_ ?_ ?_
        · refine why.imp id fun why => ⟨by rw [← kept.phase]; exact why.1, ?_⟩
          obtain ⟨cause, exhausted, rfl⟩ := why.2
          exact ⟨cause, exhausted, by rw [Refusal, Refusal, kept.reason]⟩
        · exact (congrArg (List.lookup c) (congrArg Outline.foreign same')).trans
            ((onward.foreign c rfl).trans popped)
        · rwa [held_of_outline same', onward.thread t tracks]
      · rw [own] at joined why
        exact .hindered found right held' why fun unspent =>
          (joined.kept unspent c rfl).trans popped

theorem turning_leave (orderly : e.Orderly) (here : p.here = e)
    (tracks : ∀ f, e.foreign.lookup c = some f → p.Tracks f.thread) :
    Turning (.closing c token e back) (fun z out e' => Closes c token back e z e' out) p.toCallPart
    (leave c token e) := by
  subst here
  refine turning_bracket lic (.of_none first) fun q lic1 onward orderly' => ?_
  have same := onward.foreign c rfl
  have unspent1 := (onward.unspent first).trans unspent
  have first1 := onward.none first
  rw [look_bind, same, unlock_bind]
  cases found : p.here.foreign.lookup c with
  | none =>
    refine .error lic1.unbracket (.of_none first1) rfl (.unopened ?_ same)
    rw [frames, found]
    rfl
  | some f =>
    obtain ⟨t, _ | ⟨started, rest⟩⟩ := f
    · refine .error lic1.unbracket (.of_none first1) rfl (.unopened ?_ same)
      rw [frames, found]
      rfl
    · have own := tracks _ found
      have entry := same.trans found
      have own1 := onward.tracks t own
      dsimp only
      rw [lift_done (updateForeign_run ..)]
      obtain ⟨e1, he⟩ : ∃ e : Engine, e = { q.here.giveUp .bracket with
          foreign := setForeign c ⟨t, rest⟩ (q.here.giveUp .bracket).foreign } :=
        ⟨_, rfl⟩
      have turn : Turn (.closing c token p.here back) q.spent q.here.outline e1.outline := by
        rw [he]
        exact turn_entry _ rfl unspent1 own1.known (lic1.apart entry)
          (.inr ⟨t, started, rest, entry, rfl⟩)
      have alike : Alike q.here e1 := by
        rw [he]
        exact (alike_giveUp q.here .bracket).trans (lull_foreign ..).alike
      have popped : e1.foreign.lookup c = some ⟨t, rest⟩ := by
        rw [he, lookup_setForeign, if_pos rfl]
      have lic2 := lic1.turn turn (he ▸ lic1.unbracket.locks)
      rw [← he]
      split
      · next wrong =>
        refine .error lic2 (.of_none first1) rfl (.mismatched found ?_ popped)
        cases token <;> cases rest <;> simp_all
      · next right =>
        refine turning_settle lic2 first1 unspent1 ?_ ⟨own1.acting, ?_⟩ found ?_ popped ?_
          fun x hx => ?_
        · refine (orderly' orderly).alike alike fun free taken => free ?_
          rw [he]
          exact (List.mem_erase_of_ne (by decide)).2 taken
        · rw [Point.here_go, alike.threads]
          exact own1.known
        · cases token <;> cases rest <;> simp_all
        · rw [Point.here_go, alike.thread, onward.thread t own]
        · rw [Point.here_go, alike.txn]
          exact (onward.txn t x own hx).keeps

end
end Closing
end TxHeap
