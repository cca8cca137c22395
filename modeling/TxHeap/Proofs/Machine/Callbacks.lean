import TxHeap.Proofs.Life.Turns
import TxHeap.Proofs.Machine.Turning

/-! When a transaction ends, what has been registered for that end and not been taken back is
called, each once and in order, and nothing else is called ever. -/

namespace TxHeap
open Engine TxHeap.Action

variable {phase : Phase} {key : Key} {callback : Option Callback} {out : Except Raise Unit}
  {e : Engine}
  {t : ThreadId} {x : TxnId} {ended : Option Ending} {k : Nat} {op : Operation}

def Life.table (l : Life) (phase : Phase) : CallbackTable Key Callback :=
  if phase = .committed then l.onCommit else l.onAbort

theorem Life.table_congr {l : Life} {phase' : Phase}
    (same : phase' = .committed ↔ phase = .committed) :
    l.table phase' = l.table phase := by
  rw [table, table, if_congr same rfl rfl]

theorem Life.due_eq (l : Life) (phase : Phase) :
    l.due phase = (l.table phase).entries.map (·.2) := rfl

theorem Thread.txn_setTable (th : Thread) (phase : Phase) (table : CallbackTable Key Callback) :
    (th.setTable phase table).txn = th.txn := by
  unfold setTable
  split <;> rfl

theorem Thread.table_setTable (th : Thread) (phase phase' : Phase)
    (table : CallbackTable Key Callback) :
    (th.setTable phase table).life.table phase' =
      if phase' = .committed ↔ phase = .committed then table else th.life.table phase' := by
  unfold setTable Life.table
  by_cases h : phase = .committed <;> by_cases h' : phase' = .committed <;> simp [h, h', life]

/-- What a call comes to that registers, or takes back, what is to be called for ends in this phase.
-/
inductive Registering (phase : Phase) (t : ThreadId) (key : Key) (callback : Option Callback)
    (e : Engine) :
    Post Unit
  | idle (none : ∀ x, (e.thread t).txn = some x → phase ≠ .committed ∧
      (e.txn x).phase = .inevitable) :
      Registering phase t key callback e (.ok ()) e
  | duplicate {x : TxnId} (held : (e.thread t).txn = some x)
      (may : phase ≠ .committed → (e.txn x).phase = .running)
      (known : ((e.thread t).life.table phase).amend key callback = none) :
      Registering phase t key callback e (.error (.violation (.duplicateKey key))) e
  | amended {x : TxnId} {table : CallbackTable Key Callback} (held : (e.thread t).txn = some x)
      (may : phase ≠ .committed → (e.txn x).phase = .running)
      (new : ((e.thread t).life.table phase).amend key callback = some table) :
      Registering phase t key callback e (.ok ()) (e.setThread t fun th => th.setTable phase table)

section Registering
variable (key : Key) (callback : Option Callback)

theorem noteCallback_registers (sound : e.outline.Sound) (last : Phase) : ∃ out e',
    (liftM (noteCallback last t key callback) : EngineCall Unit) e = .exit out e' ∧
    Registering last t key callback e out e' := by
  by_cases busy : ∃ x, (e.thread t).txn = some x ∧ (e.txn x).phase.takes last = true
  · obtain ⟨x, held, takes⟩ := busy
    have may : last ≠ .committed → (e.txn x).phase = .running :=
      fun aborts => by simpa [Phase.takes, aborts] using takes
    have run : noteCallback last t key callback e = _ := noteCallback_run held takes
    cases amended : ((e.thread t).table last).amend key callback with
    | none =>
      rw [amended] at run
      exact ⟨.error _, e, lift_error run, .duplicate held may amended⟩
    | some =>
      rw [amended] at run
      exact ⟨.ok (), _, lift_ok run, .amended held may amended⟩
  · have refused : ∀ x, (e.thread t).txn = some x → (e.txn x).phase.takes last = false :=
      fun x held =>
      Bool.eq_false_iff.2 fun takes => busy ⟨x, held, takes⟩
    refine ⟨.ok (), e, lift_ok (noteCallback_idle refused), .idle fun x held => ?_⟩
    have active : (e.txn x).phase.isActive = true := (sound.held t x held).2.2.1
    have refused := refused x held
    rw [Phase.takes] at refused
    split at refused
    · rw [active] at refused
      cases refused
    · next aborts =>
      refine ⟨aborts, ?_⟩
      cases phase : (e.txn x).phase with
      | inevitable => rfl
      | running => simp [phase] at refused
      | _ =>
        rw [phase] at active
        cases active

theorem Registering.same {e' : Engine} (h : Registering phase t key callback e out e') :
    e'.txns = e.txns ∧ ∀ t, (e'.thread t).txn = (e.thread t).txn := by
  cases h with
  | idle | duplicate => exact ⟨rfl, fun _ => rfl⟩
  | amended =>
    refine ⟨rfl, fun u => ?_⟩
    rw [thread_setThread]
    split
    · next own => rw [Thread.txn_setTable, own.1]
    · rfl

end Registering

def Engine.Over (e : Engine) (x : TxnId) : Prop := x < e.txns.size ∧ ¬ e.Active x

instance (e : Engine) (x : TxnId) : Decidable (e.Over x) := inferInstanceAs (Decidable (_ ∧ _))

/-- What is registered with this choice, or taken back, for ends in this phase. -/
def Choice.registers (phase : Phase) : Choice → Option (ThreadId × Key × Option Callback)
  | start (.ask (.onCommit t key callback)) =>
    if phase = .committed then some (t, key, callback) else none
  | start (.ask (.onAbort t key callback)) =>
    if phase = .committed then none else some (t, key, callback)
  | _ => none

def Choice.fails : Choice → Bool
  | answer _ (.error _) => true
  | _ => false

namespace System
variable (a : Nat → System) (choice : Nat → Choice)

/-- What has been registered for the end of `x` in this phase and not been taken back, in order;
nothing for the abort of one that cannot abort. -/
def registered (phase : Phase) (x : TxnId) : Nat → List (Key × Callback)
  | 0 => []
  | n + 1 =>
    if phase ≠ .committed ∧ ((a (n + 1)).engine.txn x).phase = .inevitable then []
    else match (choice n).registers phase with
      | some (t, key, callback) =>
        if ((a n).engine.thread t).txn = some x then
          (amend key callback (registered phase x n)).getD (registered phase x n)
        else registered phase x n
      | none => registered phase x n

def EndsAt (n : Nat) (x : TxnId) : Prop := ¬ (a n).engine.Over x ∧ (a (n + 1)).engine.Over x

instance (n : Nat) (x : TxnId) : Decidable (EndsAt a n x) := inferInstanceAs (Decidable (_ ∧ _))

def due (n : Nat) (x : TxnId) : List Callback :=
  (registered a choice ((a (n + 1)).engine.txn x).phase x n).map (·.2)

def called (n : Nat) : List Callback :=
  match (a n).mover? (choice n) with
  | some (_, p) => p.course.called
  | none => []

def callbacks (m : Nat) : Nat → List Callback
  | 0 => []
  | n + 1 => callbacks m n ++ if origin a choice n = m then called a choice n else []

def Failed (m n : Nat) : Prop := ∃ j < n, origin a choice j = m ∧ (choice j).fails = true

instance (m n : Nat) : Decidable (Failed a choice m n) := Nat.decidableExistsLT _

structure Registers (n : Nat) : Prop where
  table : ∀ phase t x, ((a n).engine.thread t).txn = some x →
    (((a n).engine.thread t).life.table phase).Ok ∧
      (((a n).engine.thread t).life.table phase).entries = registered a choice phase x n
  new : ∀ phase x, (a n).engine.txns.size ≤ x → registered a choice phase x n = []

variable {a choice} {n : Nat}

section Registering

theorem registered_quiet (quiet : ∀ phase, (choice n).registers phase = none) (phase : Phase)
    (x : TxnId) :
    registered a choice phase x (n + 1) =
      if phase ≠ .committed ∧ ((a (n + 1)).engine.txn x).phase = .inevitable then []
      else registered a choice phase x n := by
  rw [registered, quiet]

theorem table_of_inevitable (sound : e.outline.Sound) (held : (e.thread t).txn = some x)
    (cannot : phase ≠ .committed ∧ (e.txn x).phase = .inevitable) :
    (e.thread t).life.table phase = .empty := by
  have none := sound.inevitable x cannot.2
  rw [(sound.held t x held).2.1] at none
  rwa [Life.table, if_neg cannot.1]

theorem Registers.quiet (h : Registers a choice n) {L : Licence} {spent : Bool}
    (turns : Turns L spent (a n).engine.outline ended (a (n + 1)).engine.outline)
    (sound : (a n).engine.outline.Sound)
    (apart : ∀ t, ¬ L.tables t) (quiet : ∀ phase, (choice n).registers phase = none) :
    Registers a choice (n + 1) := by
  have now := turns.sound sound
  refine ⟨fun phase t x held => ?_, fun phase x new => ?_⟩
  · obtain carries | commences := turns.carries apart sound held
    · have before := h.table phase t x carries.held
      rw [registered_quiet quiet]
      split
      · next cannot =>
        rw [table_of_inevitable now held cannot]
        exact ⟨CallbackTable.ok_empty, rfl⟩
      · next may =>
        have same : ((a (n + 1)).engine.thread t).life.table phase =
            ((a n).engine.thread t).life.table phase := by
          unfold Life.table
          split
          · exact carries.onCommit
          · next aborts =>
              exact carries.onAbort.resolve_right fun inevitable => may ⟨aborts, inevitable⟩
        rwa [same]
    · have empty : ((a (n + 1)).engine.thread t).life.table phase = .empty := by
        unfold Life.table
        split
        · exact commences.onCommit
        · exact commences.onAbort
      rw [empty, registered_quiet quiet, h.new phase x commences.new, ite_self]
      exact ⟨CallbackTable.ok_empty, rfl⟩
  · rw [registered_quiet quiet, h.new phase x ((turns.ages sound).txns.trans new), ite_self]

theorem Registers.note (h : Registers a choice n) (sound : (a n).engine.outline.Sound)
    (now : (a (n + 1)).engine.outline.Sound)
    (registering : Registering phase t key callback (a n).engine out (a (n + 1)).engine)
    (choose : ∀ phase', (choice n).registers phase' =
      if phase' = .committed ↔ phase = .committed then some (t, key, callback) else none) :
    Registers a choice (n + 1) := by
  obtain ⟨txns, held⟩ := registering.same
  have txn : ∀ x, (a (n + 1)).engine.txn x = (a n).engine.txn x := fun x => by rw [txn, txns, txn]
  refine ⟨fun phase' u x hx => ?_, fun phase' x new => ?_⟩
  · have own : ((a n).engine.thread t).txn = some x ↔ t = u := by
      rw [← held]
      refine ⟨fun ht => ?_, fun same => same ▸ hx⟩
      exact (now.held t x ht).2.1.symm.trans (now.held u x hx).2.1
    rw [registered]
    split
    · next cannot =>
      rw [table_of_inevitable now hx cannot]
      exact ⟨CallbackTable.ok_empty, rfl⟩
    next may =>
    obtain ⟨ok, entries⟩ := h.table phase' u x ((held u).symm.trans hx)
    have changed : ((a (n + 1)).engine.thread u).life.table phase' =
        if (phase' = .committed ↔ phase = .committed) ∧ t = u then
          ((((a n).engine.thread u).life.table phase').amend key callback).getD
            (((a n).engine.thread u).life.table phase')
        else ((a n).engine.thread u).life.table phase' := by
      rw [txn] at may
      have runs : ((a n).engine.outline.thread u).txn = some x := (held u).symm.trans hx
      have known := sound.lt (by rw [runs]; exact Option.some_ne_none x)
      generalize (a (n + 1)).engine = e' at registering ⊢
      cases registering with
      | idle none =>
        refine (if_neg fun both => ?_).symm
        obtain ⟨aborts, inevitable⟩ := none x (own.2 both.2)
        exact may ⟨fun commits => aborts (both.1.1 commits), inevitable⟩
      | duplicate held may old =>
        split
        · next both =>
          obtain ⟨kind, rfl⟩ := both
          rw [Life.table_congr kind, old]
          rfl
        · rfl
      | @amended y table held may new =>
        rw [thread_setThread]
        by_cases same : t = u
        · subst same
          rw [if_pos ⟨rfl, known⟩, Thread.table_setTable]
          by_cases kind : phase' = .committed ↔ phase = .committed
          · rw [if_pos kind, if_pos ⟨kind, rfl⟩, Life.table_congr kind, new]
            rfl
          · rw [if_neg kind, if_neg fun both => kind both.1]
        · rw [if_neg fun own => same own.1, if_neg fun both => same both.2]
    rw [changed, choose]
    by_cases kind : phase' = .committed ↔ phase = .committed
    · rw [if_pos kind]
      dsimp only
      by_cases ht : t = u
      · obtain ⟨amended, okay⟩ := ok.amend key callback
        rw [if_pos ⟨kind, ht⟩, if_pos (own.2 ht), ← entries, ← amended]
        cases new : (((a n).engine.thread u).life.table phase').amend key callback with
        | none => exact ⟨ok, rfl⟩
        | some table => exact ⟨okay table new, rfl⟩
      · rw [if_neg fun both => ht both.2, if_neg fun mine => ht (own.1 mine)]
        exact ⟨ok, entries⟩
    · rw [if_neg kind, if_neg fun both => kind both.1]
      exact ⟨ok, entries⟩
  · have unheld : ((a n).engine.thread t).txn ≠ some x := by
      rw [← held]
      exact fun mine => absurd (now.held t x mine).1 (Nat.not_lt_of_le new)
    rw [txns] at new
    rw [registered, choose, h.new phase' x new]
    split
    · rfl
    · split
      · next chosen =>
        split at chosen
        · obtain ⟨rfl, -⟩ := Prod.mk.inj (Option.some.inj chosen)
          rw [if_neg unheld]
        · cases chosen
      · rfl

end Registering

section Calling
variable {L : Licence} {spent : Bool} {d : Ending}

theorem over_iff : e.Over x ↔ x < e.outline.txns ∧ (e.outline.txn x).2.isActive = false := by
  rw [Over, Active, Bool.not_eq_true]
  rfl

theorem endsAt_iff (turns : Turns L spent (a n).engine.outline ended (a (n + 1)).engine.outline)
    (sound : (a n).engine.outline.Sound)
    (apart : ∀ t, ¬ L.tables t) : EndsAt a n x ↔ ∃ d, ended = some d ∧ d.txn = x := by
  constructor
  · rintro ⟨before, after⟩
    obtain ⟨known, past⟩ := over_iff.1 after
    exact (turns.over known past).resolve_left fun past => before (over_iff.2 past)
  · rintro ⟨d, rfl, rfl⟩
    have concludes := turns.concludes apart sound
    refine ⟨fun ended => ?_,
      over_iff.2 ⟨concludes.known, by rw [concludes.phase]; exact concludes.how.past⟩⟩
    obtain ⟨known, past⟩ := over_iff.1 ended
    obtain ⟨active, -⟩ | ⟨new, -⟩ := concludes.before
    · rw [active] at past
      cases past
    · exact Nat.not_lt_of_le new known

theorem due_eq (turns : Turns L spent (a n).engine.outline (some d) (a (n + 1)).engine.outline)
    (sound : (a n).engine.outline.Sound)
    (apart : ∀ t, ¬ L.tables t) (h : Registers a choice n) : d.due = due a choice n d.txn := by
  have concludes := turns.concludes apart sound
  have phase : ((a (n + 1)).engine.txn d.txn).phase = d.phase := concludes.phase
  rw [due, phase]
  obtain ⟨active, -, same⟩ | ⟨new, none⟩ := concludes.before
  · rw [same, Life.due_eq]
    exact congrArg (List.map (·.2)) (h.table d.phase _ d.txn (sound.active d.txn active)).2
  · rw [none, h.new d.phase d.txn new]
    rfl

end Calling

variable (a choice)

/-- The call that began with step `m` has ended `x` with step `k`, and no other transaction before
moment `n`. -/
structure EndedOnce (n m k : Nat) (x : TxnId) : Prop where
  before : k < n
  own : origin a choice k = m
  ends : EndsAt a k x
  only : ∀ j < n, origin a choice j = m → ∀ y, EndsAt a j y → j = k ∧ y = x

/-- What is known at moment `n` of what the call has called that began with step `m`, and has to
call yet. -/
structure Accounts (n m : Nat) (spent : Bool) (owes : List Callback → Prop) : Prop where
  early : spent = false → callbacks a choice m n = [] ∧ ∀ j < n, origin a choice j = m →
    ∀ y, ¬ EndsAt a j y
  late : spent = true → ∃ k x rest, EndedOnce a choice n m k x ∧
    callbacks a choice m n ++ rest = due a choice k x ∧ owes rest

variable {a choice} {m : Nat} {spent : Bool} {owes owes' : List Callback → Prop}

theorem callbacks_other (other : m ≠ origin a choice n) :
    callbacks a choice m (n + 1) = callbacks a choice m n := by
  rw [callbacks, if_neg other.symm, List.append_nil]

theorem callbacks_own : callbacks a choice (origin a choice n) (n + 1) =
    callbacks a choice (origin a choice n) n ++ called a choice n := by
  rw [callbacks, if_pos rfl]

theorem callbacks_new (new : ∀ j < n, origin a choice j ≠ m) : callbacks a choice m n = [] := by
  induction n with
  | zero => rfl
  | succ n ih =>
    rw [callbacks_other (new n (Nat.lt_succ_self n)).symm,
      ih fun j hj => new j (Nat.lt_succ_of_lt hj)]

theorem EndedOnce.later (h : EndedOnce a choice n m k x)
    (none : origin a choice n = m → ∀ y, ¬ EndsAt a n y) :
    EndedOnce a choice (n + 1) m k x where
  before := Nat.lt_succ_of_lt h.before
  own := h.own
  ends := h.ends
  only j hj own y ends := by
    obtain hj | rfl := Nat.lt_succ_iff_lt_or_eq.1 hj
    · exact h.only j hj own y ends
    · exact absurd ends (none own y)

namespace Accounts

theorem imp (h : Accounts a choice n m spent owes) (f : ∀ rest, owes rest → owes' rest) :
    Accounts a choice n m spent owes' where
  early := h.early
  late late := by
    obtain ⟨k, x, rest, once, called, owed⟩ := h.late late
    exact ⟨k, x, rest, once, called, f rest owed⟩

theorem start (n : Nat) : Accounts a choice n n false owes where
  early _ := by
    have new : ∀ j < n, origin a choice j ≠ n :=
      fun j hj => Nat.ne_of_lt ((origin_le j).trans_lt hj)
    exact ⟨callbacks_new new, fun j hj own => absurd own (new j hj)⟩
  late := by rintro ⟨⟩

theorem other (h : Accounts a choice n m spent owes) (other : m ≠ origin a choice n) :
    Accounts a choice (n + 1) m spent owes where
  early early := by
    rw [callbacks_other other]
    refine ⟨(h.early early).1, fun j hj own => ?_⟩
    obtain hj | rfl := Nat.lt_succ_iff_lt_or_eq.1 hj
    · exact (h.early early).2 j hj own
    · exact absurd own.symm other
  late late := by
    obtain ⟨k, x, rest, once, called, owed⟩ := h.late late
    exact ⟨k, x, rest, once.later fun own => absurd own.symm other,
      by rwa [callbacks_other other], owed⟩

theorem silent (h : Accounts a choice n m spent owes) (now : called a choice n = [])
    (none : ∀ y, ¬ EndsAt a n y) :
    Accounts a choice (n + 1) m spent owes := by
  have same : callbacks a choice m (n + 1) = callbacks a choice m n := by
    rw [callbacks, now, ite_self, List.append_nil]
  refine ⟨fun early => ?_, fun late => ?_⟩
  · rw [same]
    refine ⟨(h.early early).1, fun j hj own => ?_⟩
    obtain hj | rfl := Nat.lt_succ_iff_lt_or_eq.1 hj
    · exact (h.early early).2 j hj own
    · exact none
  · obtain ⟨k, x, rest, once, called, owed⟩ := h.late late
    exact ⟨k, x, rest, once.later fun _ => none, by rwa [same], owed⟩

theorem own {out : List Callback} (h : Accounts a choice n (origin a choice n) spent owes)
    (ends : ∀ x, EndsAt a n x ↔ ∃ d, ended = some d ∧ d.txn = x)
    (unspent : ∀ d ∈ ended, spent = false) (now : called a choice n = out)
    (early : ended = none → out ≠ [] → spent = true)
    (first : ∀ d ∈ ended, ∃ rest, due a choice n d.txn = out ++ rest ∧ owes' rest)
    (rest : spent = true → ∀ rest, owes rest → ∃ rest', rest = out ++ rest' ∧ owes' rest') :
    Accounts a choice (n + 1) (origin a choice n) (spent || ended.isSome) owes' := by
  have none : ended = none → ∀ y, ¬ EndsAt a n y := by
    rintro rfl y ends'
    obtain ⟨d, ⟨⟩, -⟩ := (ends y).1 ends'
  refine ⟨fun unspent' => ?_, fun spent' => ?_⟩
  · obtain ⟨unspent', still⟩ := Bool.or_eq_false_iff.1 unspent'
    replace still : ended = .none :=
      Option.not_isSome_iff_eq_none.1 (by rw [still]; exact Bool.false_ne_true)
    obtain ⟨nothing, before⟩ := h.early unspent'
    have silent := not_not.1 fun some => by
      rw [unspent'] at early
      cases early still some
    rw [callbacks_own, nothing, now, silent]
    refine ⟨rfl, fun j hj own => ?_⟩
    obtain hj | rfl := Nat.lt_succ_iff_lt_or_eq.1 hj
    · exact before j hj own
    · exact none still
  · cases ended with
    | none =>
      obtain ⟨k, x, rest1, once, called1, owed⟩ := h.late (by simpa using spent')
      obtain ⟨rest2, rfl, owed'⟩ := rest (by simpa using spent') rest1 owed
      refine ⟨k, x, rest2, once.later fun _ => none rfl, ?_, owed'⟩
      rwa [callbacks_own, now, List.append_assoc]
    | some d =>
      obtain ⟨nothing, before⟩ := h.early (unspent d rfl)
      obtain ⟨rest1, due, owed⟩ := first d rfl
      refine ⟨n, d.txn, rest1,
        ⟨Nat.lt_succ_self n, rfl, (ends _).2 ⟨d, rfl, rfl⟩, fun j hj own y ends' => ?_⟩, ?_, owed⟩
      · obtain hj | rfl := Nat.lt_succ_iff_lt_or_eq.1 hj
        · exact absurd ends' (before j hj own y)
        · obtain ⟨_, ⟨⟩, same⟩ := (ends y).1 ends'
          exact ⟨rfl, same.symm⟩
      · rw [callbacks_own, nothing, now]
        exact due.symm

end Accounts

variable (a choice)

/-- What is known at moment `n` of a call that stands still: it registers nothing, and its callbacks
are accounted for. -/
def Standing (n m : Nat) (spent : Bool) (p : Task) : Prop :=
  p.op.notes = none ∧ Accounts a choice n m spent (p.Owes ·)

/-- What is known at moment `n`: of what is registered, of the calls that stand still, and of those
that have ended. -/
structure Served (n : Nat) : Prop where
  registers : Registers a choice n
  followed : Followed a choice (fun _ _ _ => True) (Standing a choice n) n
  ended : ∀ m < n, m ∉ origins a choice n →
    ∃ spent, Accounts a choice n m spent fun rest => rest = [] ∨ Failed a choice m n

variable {a choice} {N : Nat} {others : List Task} {p : Task}

theorem Failed.later (h : Failed a choice m n) : Failed a choice m (n + 1) :=
  have ⟨j, hj, own, failed⟩ := h
  ⟨j, Nat.lt_succ_of_lt hj, own, failed⟩

theorem called_of_mover (mover : (a n).mover? (choice n) = some (others, p)) :
    called a choice n = p.course.called := by
  rw [called, mover]

end System

namespace Task
variable {p : Task} {others : List Task}

theorem owes_of_calls (going : (System.advance e others p).2 = none) {rest : List Callback}
    (calls : p.course.Calls rest) :
    ∃ rest', rest = p.course.called ++ rest' ∧ (p.after e).Owes rest' := by
  obtain ⟨op, threads, held, course⟩ := p
  cases course with
  | done | raised => cases going
  | waiting => exact ⟨rest, rfl, calls⟩
  | calling => exact calls

end Task

namespace System

theorem Run.Proceeding.accounts {back : Operation → Engine → Engine → Prop}
    (h : Run.Proceeding a choice back (Standing a choice n) n spent p) :
    Accounts a choice n (origin a choice n) spent fun rest => p.course.Calls rest ∨
    ∃ i v, choice n = .answer i (.error v) := by
  obtain ⟨own, -, rfl⟩ | ⟨i, q, r, chosen, here, resumed, -, -, accounts⟩ := h.comes
  · rw [own]
    exact .start n
  · refine accounts.imp fun rest owed => ?_
    cases resumed with
    | woken =>
      obtain ⟨rfl, mute⟩ := owed
      refine .inl ?_
      unfold Machine.woken
      split
      · exact mute _
      · exact ⟨rfl, mute⟩
    | answered r =>
      cases r with
      | ok => exact .inl (owed _)
      | error v => exact .inr ⟨i, v, chosen⟩

theorem Served.rest (h : Served a choice n)
    (own : origin a choice n ∉ origins a choice (n + 1) →
      ∃ spent, Accounts a choice (n + 1) (origin a choice n) spent fun rest =>
      rest = [] ∨ Failed a choice (origin a choice n) (n + 1)) :
    ∀ m < n + 1, m ∉ origins a choice (n + 1) →
    ∃ spent, Accounts a choice (n + 1) m spent fun rest =>
      rest = [] ∨ Failed a choice m (n + 1) := by
  intro m hm ended
  by_cases same : m = origin a choice n
  · rw [same] at ended ⊢
    exact own ended
  · obtain hm | rfl := Nat.lt_succ_iff_lt_or_eq.1 hm
    · obtain ⟨spent, accounts⟩ := h.ended m hm fun mem => ended (mem_origins_succ mem same)
      exact ⟨spent, (accounts.other same).imp fun rest => .imp id .later⟩
    · exact ⟨false, (Accounts.start m).other same⟩

theorem Served.idle (h : Served a choice n) (run : System.Run N a choice) (hn : n < N)
    (mover : (a n).mover? (choice n) = none) :
    Served a choice (n + 1) := by
  obtain ⟨same, origins⟩ := run.succ_of_no_mover hn mover
  have now : called a choice n = [] := by rw [called, mover]
  have still : ∀ y, ¬ EndsAt a n y := by
    rintro y ⟨before, after⟩
    rw [same] at after
    exact before after
  have quiet : ∀ phase, (choice n).registers phase = none := by
    intro phase
    cases chosen : choice n with
    | start =>
      rw [chosen] at mover
      cases mover
    | wake | answer => rfl
  have turns : Turns (.opening 0 (a n).engine fun _ => True) false (a n).engine.outline none
      (a (n + 1)).engine.outline := by
    rw [same]
    exact .start
  refine ⟨h.registers.quiet turns h.followed.sound (fun _ => id) quiet, ?_, ?_⟩
  · exact run.followed_idle hn h.followed mover fun m spent q _ _ known =>
      ⟨known.1, known.2.silent now still⟩
  · intro m hm ended
    rw [origins] at ended
    obtain ⟨spent, accounts⟩ : ∃ spent, Accounts a choice n m spent fun rest => rest = [] ∨
        Failed a choice m n := by
      obtain hm | rfl := Nat.lt_succ_iff_lt_or_eq.1 hm
      · exact h.ended m hm ended
      · exact ⟨false, .start m⟩
    exact ⟨spent, (accounts.silent now still).imp fun rest => .imp id .later⟩

end System

theorem Operation.licence_tables {back : Engine → Prop} (h : (op.licence back e).tables t) :
    op.notes = some t := by
  cases op with
  | enter | leave => exact h.elim
  | _ => exact h

theorem Operation.licence_quiet (back : Engine → Prop) (e : Engine) (none : op.notes = none)
    (t : ThreadId) :
    ¬ (op.licence back e).tables t := by
  intro noted
  rw [licence_tables noted] at none
  cases none

theorem Choice.notes_of_registers {c : Choice} (h : c.registers phase = some (t, key, callback)) :
    ∃ op, c = .start op ∧ op.notes = some t := by
  unfold registers at h
  split at h
  · split at h <;> cases h
    exact ⟨_, rfl, rfl⟩
  · split at h <;> cases h
    exact ⟨_, rfl, rfl⟩
  · cases h

theorem Choice.registers_start (none : op.notes = none) (phase : Phase) :
    (Choice.start op).registers phase = .none := by
  cases op with
  | ask q =>
    cases q with
    | onAbort | onCommit => cases none
    | _ => rfl
  | _ => rfl

theorem Operation.registers_of_notes (noted : op.notes = some t) : ∃ phase key callback,
    (∀ phase', (Choice.start op).registers phase' = if phase' = .committed ↔ phase = .committed then
      some (t, key, callback) else none) ∧
    ∀ e : Engine, e.outline.Sound →
    ∃ (out : Except Raise op.Answer) (e' : Engine) (r : Except Raise Unit), op.call e =
    .exit out e' ∧
      Registering phase t key callback e r e' ∧ ∀ v, r = .error v → out = .error v := by
  cases op with
  | ask q =>
    cases q with
    | onAbort u key callback =>
      cases noted
      refine ⟨.aborted, key, callback, fun phase' => ?_, fun e sound => ?_⟩
      · by_cases commits : phase' = .committed <;> simp [Choice.registers, commits]
      · obtain ⟨out, e', call, registering⟩ := noteCallback_registers key callback sound .aborted
        exact ⟨out, e', out, call, registering, fun v => id⟩
    | onCommit u key callback =>
      cases noted
      refine ⟨.committed, key, callback, fun phase' => ?_, fun e sound => ?_⟩
      · by_cases commits : phase' = .committed <;> simp [Choice.registers, commits]
      · obtain ⟨out, e', call, registering⟩ := noteCallback_registers key callback sound .committed
        exact ⟨out, e', out, call, registering, fun v => id⟩
    | _ => cases noted
  | _ => cases noted

namespace System
variable {a : Nat → System} {choice : Nat → Choice} {N n : Nat} {p : Task} {spent : Bool}

theorem not_endsAt_of_registering {r : Except Raise Unit}
    (h : Registering phase t key callback (a n).engine r (a (n + 1)).engine) (x : TxnId) :
    ¬ EndsAt a n x := by
  rintro ⟨before, after⟩
  have txns := h.same.1
  rw [Over, Active, txn, txns] at after
  exact before after

section
variable (h : Served a choice n) (run : System.Run N a choice) (hn : n < N)
  (mover : (a n).mover? (choice n) = some (others, p))
  (proceeding : Run.Proceeding a choice (fun _ _ _ => True) (Standing a choice n) n spent p)
include h run hn mover proceeding

theorem Served.plain (plain : p.op.notes = none) : Served a choice (n + 1) := by
  have engine := run.engine_succ hn mover
  have sound := h.followed.sound
  have apart := Operation.licence_quiet (fun _ => True) (a (origin a choice n)).engine plain
  have quiet : ∀ phase, (choice n).registers phase = none := by
    obtain ⟨-, chosen, -⟩ | ⟨i, q, r, chosen, -⟩ := proceeding.comes
    · rw [chosen]
      exact Choice.registers_start plain
    · rw [chosen]
      intro phase
      cases r <;> rfl
  have accounts := proceeding.accounts
  have now := called_of_mover mover
  obtain ⟨ended0, turns0⟩ := proceeding.proceeds.kept
  rw [← engine] at turns0
  refine ⟨h.registers.quiet turns0 sound apart quiet, ?_, ?_⟩
  · refine run.followed_step hn h.followed mover proceeding
      (fun m spent q other _ _ known => ⟨known.1, known.2.other other⟩)
        fun going ended turns due early => ⟨plain, ?_⟩
    refine accounts.own (fun x => endsAt_iff turns sound apart) ?_ now early ?_ ?_
    · rintro d rfl
      exact turns.unspent
    · rintro d rfl
      rw [← due_eq turns sound apart h.registers]
      exact (due d rfl).2
    · rintro - rest (calls | ⟨i, v, answers⟩)
      · rw [Run.step_of_mover mover] at going
        exact Task.owes_of_calls going calls
      · have raises : p.course = .exit (.error v) (a n).engine := proceeding.raises i v answers
        exact absurd going (Run.not_going_of_exit mover raises)
  · refine h.rest fun ended => ?_
    obtain ⟨out, ends⟩ := Run.exit_of_ended mover ended
    obtain ⟨⟨ended, turns, none⟩, -⟩ := proceeding.proceeds.leaves ends
    rw [← engine] at turns
    have silent : called a choice n = [] := by
      rw [now, ends]
      cases out <;> rfl
    refine ⟨_, accounts.own (fun x => endsAt_iff turns sound apart) ?_ silent
      (fun _ some => absurd rfl some) ?_ ?_⟩
    · rintro d rfl
      exact turns.unspent
    · rintro d rfl
      rw [← due_eq turns sound apart h.registers, none d rfl]
      exact ⟨[], rfl, .inl rfl⟩
    · rintro - rest (calls | ⟨i, v, answers⟩)
      · rw [ends] at calls
        cases out <;> exact ⟨rest, rfl, .inl calls⟩
      · exact ⟨rest, rfl, .inr ⟨n, Nat.lt_succ_self n, rfl, by rw [answers]; rfl⟩⟩

theorem Served.registering (noted : p.op.notes = some t) :
    origin a choice n = n ∧ ∃ phase key callback,
      (∀ phase', (choice n).registers phase' = if phase' = .committed ↔ phase = .committed then
        some (t, key, callback) else none) ∧
      ∃ (out : Except Raise p.op.Answer) (r : Except Raise Unit), p.course =
      .exit out (a (n + 1)).engine ∧
        Registering phase t key callback (a n).engine r (a (n + 1)).engine ∧ ∀ v, r = .error v →
        out = .error v := by
  obtain ⟨own, chosen, rfl⟩ | ⟨i, q, r, -, -, resumed, -, plain, -⟩ := proceeding.comes
  · obtain ⟨phase, key, callback, choose, calls⟩ := Operation.registers_of_notes noted
    rw [← chosen] at choose
    refine ⟨own, phase, key, callback, choose, ?_⟩
    obtain ⟨op, chosen⟩ : ∃ op, choice n = .start op := ⟨_, chosen⟩
    have begins := mover
    rw [chosen] at begins
    obtain ⟨rfl, rfl⟩ := Prod.mk.inj (Option.some.inj begins)
    obtain ⟨out, e', r, course, registering, fails⟩ := calls (a n).engine h.followed.sound
    have engine : (a (n + 1)).engine = e' := by
      rw [run.engine_succ hn mover]
      rw [course]
      cases out <;> rfl
    rw [engine]
    exact ⟨out, r, course, registering, fails⟩
  · have same : p.op = q.op := by cases resumed <;> rfl
    rw [same, plain] at noted
    cases noted

theorem Served.note (noted : p.op.notes = some t) : Served a choice (n + 1) := by
  obtain ⟨own, phase, key, callback, choose, out, r, course, registering, -⟩ :=
    h.registering run hn mover proceeding noted
  have followed : Followed a choice (fun _ _ _ => True) (Standing a choice (n + 1)) (n + 1) := by
    refine run.followed_step hn h.followed mover proceeding
      (fun m spent q other _ _ known => ⟨known.1, known.2.other other⟩) fun going => ?_
    exact absurd going (Run.not_going_of_exit mover course)
  have now : called a choice n = [] := by
    rw [called_of_mover mover, course]
    cases out <;> rfl
  refine ⟨h.registers.note h.followed.sound followed.sound registering choose, followed,
    h.rest fun _ => ?_⟩
  rw [own]
  exact ⟨false, (Accounts.start n).silent now (not_endsAt_of_registering registering)⟩

end

theorem Run.served (run : System.Run N a choice) (hn : n ≤ N) : Served a choice n := by
  induction n with
  | zero =>
    refine ⟨⟨fun phase t x held => ?_, fun _ _ _ => rfl⟩, run.followed_zero, by rintro _ ⟨⟩⟩
    rw [run.unused.new.thread] at held
    cases held
  | succ n ih =>
    have served := ih (Nat.le_of_succ_le hn)
    cases mover : (a n).mover? (choice n) with
    | none => exact served.idle run hn mover
    | some moved =>
      obtain ⟨others, p⟩ := moved
      obtain ⟨spent, proceeding⟩ := run.proceeding hn served.followed mover fun _ _ => trivial
      cases noted : p.op.notes with
      | none => exact served.plain run hn mover proceeding noted
      | some => exact served.note run hn mover proceeding noted

theorem Served.accounts (h : Served a choice n) {m : Nat} (hm : m < n) :
    ∃ spent, Accounts a choice n m spent fun rest =>
    rest = [] ∨ m ∈ origins a choice n ∨ Failed a choice m n := by
  by_cases mem : m ∈ origins a choice n
  · obtain ⟨i, hi⟩ := List.mem_iff_getElem?.1 mem
    obtain ⟨p, -, spent, -, -, accounts⟩ := forall₂_getElem? h.followed.tasks.flip hi
    exact ⟨spent, accounts.imp fun rest _ => .inr (.inl mem)⟩
  · obtain ⟨spent, accounts⟩ := h.ended m hm mem
    exact ⟨spent, accounts.imp fun rest => .imp id .inr⟩

theorem Run.stays_over (run : System.Run N a choice) (hmn : m ≤ n) (hn : n ≤ N)
    (past : (a m).engine.Over x) : (a n).engine.Over x := by
  induction n, hmn using Nat.le_induction with
  | base => exact past
  | succ n hmn ih =>
    obtain ⟨known, past⟩ := ih (Nat.le_of_succ_le hn)
    have ages := (run.steps hn).ages
    rw [← run.step n hn] at ages
    refine ⟨known.trans_le ages.txns_size, ?_⟩
    rwa [Active, ages.ended x known past]

theorem Run.ends_once (run : System.Run N a choice) {j : Nat} (hj : j < N) (hk : k < N)
    (first : EndsAt a j x) (second : EndsAt a k x) :
    j = k := by
  obtain lt | same | lt := Nat.lt_trichotomy j k
  · exact absurd (run.stays_over lt hk.le first.2) second.1
  · exact same
  · exact absurd (run.stays_over lt hj.le second.2) first.1

theorem Served.ends (h : Served a choice n) (run : System.Run N a choice) (hn : n < N)
    (ends : EndsAt a n x) :
    ((a n).engine.txn x).phase.EndsIn ((a (n + 1)).engine.txn x).phase ∧
      ∀ phase, ((a (n + 1)).engine.thread ((a (n + 1)).engine.txn x).thread).life.table phase =
      .empty := by
  cases mover : (a n).mover? (choice n) with
  | none =>
    have ⟨before, after⟩ := ends
    rw [(run.succ_of_no_mover hn mover).1] at after
    exact absurd after before
  | some moved =>
    obtain ⟨others, p⟩ := moved
    obtain ⟨spent, proceeding⟩ := run.proceeding hn h.followed mover fun _ _ => trivial
    cases noted : p.op.notes with
    | some =>
      obtain ⟨-, _, _, _, -, _, _, -, registering, -⟩ := h.registering run hn mover proceeding noted
      exact absurd ends (not_endsAt_of_registering registering x)
    | none =>
      obtain ⟨ended, turns⟩ := proceeding.proceeds.kept
      rw [← run.engine_succ hn mover] at turns
      have apart := Operation.licence_quiet (fun _ => True) (a (origin a choice n)).engine noted
      obtain ⟨d, rfl, rfl⟩ := (endsAt_iff turns h.followed.sound apart).1 ends
      have concludes := turns.concludes apart h.followed.sound
      have phase : ((a (n + 1)).engine.txn d.txn).phase = d.phase := concludes.phase
      refine ⟨by rw [phase]; exact concludes.how, fun phase => ?_⟩
      rw [Life.table]
      split
      · exact concludes.onCommit
      · exact concludes.onAbort

theorem Served.duplicate (h : Served a choice n) (run : System.Run N a choice) (hn : n < N)
    {f g : Callback} (registers : (choice n).registers phase = some (t, key, some f))
    (held : ((a n).engine.thread t).txn = some x) (old : (key, g) ∈ registered a choice phase x n) :
    (∃ exit, ((a n).step (choice n)).2 = some exit ∧
      exit.outcome = .error (.violation (.duplicateKey key))) ∧
      (a (n + 1)).engine = (a n).engine := by
  obtain ⟨op, chosen, noted⟩ := Choice.notes_of_registers registers
  have mover : (a n).mover? (choice n) = some ((a n).tasks,
      ⟨op, op.threads (a n).engine, [], op.call (a n).engine⟩) := by rw [chosen]; rfl
  obtain ⟨spent, proceeding⟩ := run.proceeding hn h.followed mover fun _ _ => trivial
  obtain ⟨-, phase', key', callback, choose, out, r, course, registering, fails⟩ :=
    h.registering run hn mover proceeding noted
  rw [choose] at registers
  split at registers
  swap
  · cases registers
  next kind =>
  obtain ⟨-, rfl, rfl⟩ : t = t ∧ key' = key ∧ callback = some f := by
    simpa using registers
  obtain ⟨ok, entries⟩ := h.registers.table phase t x held
  rw [← entries] at old
  have known : (((a n).engine.thread t).life.table phase').amend key' (some f) = none := by
    rw [← Life.table_congr kind]
    have amended := (ok.amend key' (some f)).1
    rw [amend, if_pos (List.mem_map_of_mem old)] at amended
    exact Option.map_eq_none_iff.1 amended
  generalize engine : (a (n + 1)).engine = e' at registering course
  cases registering with
  | idle none =>
    obtain ⟨aborts, inevitable⟩ := none x held
    have cannot : phase ≠ .committed ∧ ((a n).engine.txn x).phase = .inevitable :=
      ⟨fun commits => aborts (kind.1 commits), inevitable⟩
    rw [table_of_inevitable h.followed.sound held cannot] at old
    cases old
  | duplicate =>
    refine ⟨?_, rfl⟩
    obtain rfl := fails _ rfl
    rw [Run.step_of_mover mover, System.advance, course]
    exact ⟨_, rfl, rfl⟩
  | amended held may new =>
    rw [known] at new
    cases new

theorem Served.endedOnce (h : Served a choice n) (hk : k < n) (ends : EndsAt a k x) :
    ∃ rest, EndedOnce a choice n (origin a choice k) k x ∧
    callbacks a choice (origin a choice k) n ++ rest = due a choice k x ∧
      (rest = [] ∨ origin a choice k ∈ origins a choice n ∨
        Failed a choice (origin a choice k) n) := by
  obtain ⟨spent, accounts⟩ := h.accounts ((origin_le k).trans_lt hk)
  cases spent with
  | false => exact absurd ends ((accounts.early rfl).2 k hk rfl x)
  | true =>
    obtain ⟨j, y, rest, once, calls, done⟩ := accounts.late rfl
    obtain ⟨rfl, rfl⟩ := once.only k hk rfl x ends
    exact ⟨rest, once, calls, done⟩

theorem Served.not_called (h : Served a choice k)
    (once : EndedOnce a choice n (origin a choice k) k x) :
    callbacks a choice (origin a choice k) k = [] := by
  have le : origin a choice k ≤ k := origin_le k
  obtain own | lt := Nat.eq_or_lt_of_le le
  · rw [own]
    have start : Accounts a choice k k false fun _ => True := .start k
    exact (start.early rfl).1
  · obtain ⟨spent, accounts⟩ := h.accounts lt
    cases spent with
    | false => exact (accounts.early rfl).1
    | true =>
      obtain ⟨j, y, -, earlier, -⟩ := accounts.late rfl
      have same := (once.only j (earlier.before.trans once.before) earlier.own y earlier.ends).1
      exact absurd earlier.before (Nat.not_lt_of_le same.symm.le)

/-- At every moment the tables of a thread hold what has been registered in its transaction and not
been taken back, in order. When a transaction ends, that is a commit or, unless it cannot abort, an
abort; both tables are empty then. The call that ends it ends no other, and calls what has been
registered for that outcome, each callback once and in order; all of it, if it has ended and no
callback has failed. Nothing else is ever called. What is registered for a key that has a callback
is refused, and changes nothing. -/
theorem called_once_in_order {N n : Nat} {a : Nat → System} {choice : Nat → Choice}
    (run : System.Run N a choice) (hn : n ≤ N) :
    (∀ phase t x, ((a n).engine.thread t).txn = some x →
      (((a n).engine.thread t).life.table phase).entries = registered a choice phase x n) ∧
    (∀ k < n, ∀ x, EndsAt a k x →
      (((a (k + 1)).engine.txn x).phase = .committed ∨
        ((a (k + 1)).engine.txn x).phase = .aborted ∧ ((a k).engine.txn x).phase ≠ .inevitable) ∧
      (∀ phase, ((a (k + 1)).engine.thread ((a (k + 1)).engine.txn x).thread).life.table
        phase = .empty) ∧
      (∀ j < n, ∀ y, EndsAt a j y → y = x ∨ origin a choice j = origin a choice k → j = k ∧ y = x) ∧
      callbacks a choice (origin a choice k) k = [] ∧
      ∃ rest, callbacks a choice (origin a choice k) n ++ rest = due a choice k x ∧
        (rest = [] ∨ origin a choice k ∈ origins a choice n ∨
          Failed a choice (origin a choice k) n)) ∧
    (∀ k < n, called a choice k ≠ [] →
      ∃ j ≤ k, ∃ x, EndsAt a j x ∧ origin a choice j = origin a choice k) ∧
    (∀ k < n, ∀ phase t key f g x, (choice k).registers phase = some (t, key, some f) →
      ((a k).engine.thread t).txn = some x →
      (key, g) ∈ registered a choice phase x k →
      (∃ exit, ((a k).step (choice k)).2 = some exit ∧
        exit.outcome = .error (.violation (.duplicateKey key))) ∧
        (a (k + 1)).engine = (a k).engine) := by
  have served := run.served hn
  refine ⟨fun phase t x held => (served.registers.table phase t x held).2, fun k hk x ends => ?_,
    fun k hk calls => ?_,
    fun k hk phase t key f g x registers held old => ?_⟩
  · have before := run.served (Nat.le_trans (Nat.le_of_lt hk) hn)
    obtain ⟨how, empty⟩ := before.ends run (Nat.lt_of_lt_of_le hk hn) ends
    obtain ⟨rest, once, calls, done⟩ := served.endedOnce hk ends
    refine ⟨how, empty, fun j hj y ends' same => ?_, before.not_called once, rest, calls, done⟩
    obtain rfl | own := same
    · exact ⟨run.ends_once (Nat.lt_of_lt_of_le hj hn) (Nat.lt_of_lt_of_le hk hn) ends' ends, rfl⟩
    · exact once.only j hj own y ends'
  · have after := run.served (Nat.le_trans hk hn)
    obtain ⟨spent, accounts⟩ := after.accounts (Nat.lt_succ_of_le (origin_le k))
    cases spent with
    | false =>
      have none := (accounts.early rfl).1
      rw [callbacks_own] at none
      exact absurd (List.append_eq_nil_iff.1 none).2 calls
    | true =>
      obtain ⟨j, x, -, once, -⟩ := accounts.late rfl
      exact ⟨j, Nat.le_of_lt_succ once.before, x, once.ends, once.own⟩
  · exact (run.served (Nat.le_trans (Nat.le_of_lt hk) hn)).duplicate run
      (Nat.lt_of_lt_of_le hk hn) registers held old

end System

/-- Two callbacks are registered for a commit, and one for an abort; then the first key is used once
more. -/
def festivity : List Choice :=
  [.start (.ask .register), .start (.ask (.begin 0)),
    .start (.ask (.onCommit 0 (.int 1) (some ⟨.int 1, 0⟩))),
    .start (.ask (.onAbort 0 (.int 1) (some ⟨.int 1, 1⟩))),
    .start (.ask (.onCommit 0 (.int 2) (some ⟨.int 2, 2⟩))),
    .start (.ask (.onCommit 0 (.int 1) (some ⟨.int 1, 3⟩))), .start (.ask (.commit 0)),
    .answer 0 (.ok ()), .answer 0 (.ok ())]

theorem called_once_in_order_festivity : ∃ a choice, System.Run 9 a choice ∧ System.EndsAt a 6 0 ∧
    System.due a choice 6 0 = [⟨.int 1, 0⟩, ⟨.int 2, 2⟩] ∧
    System.callbacks a choice 6 9 = [⟨.int 1, 0⟩, ⟨.int 2, 2⟩] ∧
    ∃ exit, ((a 5).step (choice 5)).2 = some exit ∧
    exit.outcome = .error (.violation (.duplicateKey (.int 1))) := by
  have run := System.run_enacts festivity (by decide +kernel) (by decide)
  obtain ⟨-, ends, -, twice⟩ := System.called_once_in_order run (Nat.le_refl 9)
  have commits : System.EndsAt (System.enacts festivity) 6 0 := by decide +kernel
  have due : System.due (System.enacts festivity) (festivity.getD · (.wake 0)) 6 0 =
      [⟨.int 1, 0⟩, ⟨.int 2, 2⟩] := by
    decide +kernel
  obtain ⟨-, -, -, -, rest, calls, done⟩ := ends 6 (by decide) 0 commits
  have all : rest = [] := by
    refine done.resolve_right ?_
    decide +kernel
  rw [all, List.append_nil, due] at calls
  exact ⟨_, _, run, commits, due, calls,
    (twice 5 (by decide) .committed 0 (.int 1) ⟨.int 1, 3⟩ ⟨.int 1, 0⟩ 0 rfl (by decide +kernel)
    (by decide +kernel)).1⟩

end TxHeap
