import TxHeap.Proofs.Life.Outline

/-! What a call changes in the outline, and what it cannot change, from where it went on to where it
stops. -/

namespace TxHeap
variable {L : Licence} {spent : Bool} {o o' o0 : Outline} {ended : Option Ending} {d : Ending}
  {t : ThreadId} {y : TxnId}

section Running

/-- The transaction `y` goes on: it stays in its thread, and inevitable once it is. -/
structure Outline.Continues (o o' : Outline) (y : TxnId) : Prop where
  active : (o'.txn y).2.isActive = true
  thread : (o'.txn y).1 = (o.txn y).1
  inevitable : (o.txn y).2 = .inevitable → (o'.txn y).2 = .inevitable

theorem Outline.Continues.of_eq (same : o'.txn y = o.txn y) (active : (o.txn y).2.isActive = true) :
    o.Continues o' y :=
  ⟨by rwa [same], by rw [same], fun h => by rwa [same]⟩

theorem Outline.Continues.trans {o'' : Outline} (h : o.Continues o' y) (h' : o'.Continues o'' y) :
    o.Continues o'' y :=
  ⟨h'.active, h'.thread.trans h.thread, fun before => h'.inevitable (h.inevitable before)⟩

theorem Outline.Sound.known_of_active (h : o.Sound) (active : (o.txn y).2.isActive = true) :
    y < o.txns :=
  (h.held _ y (h.active y active)).1

theorem Turn.continues (turn : Turn L spent o o') (sound : o.Sound)
    (active : (o.txn y).2.isActive = true) : o.Continues o' y := by
  cases turn with
  | pause | close | enroll | retire | note | entry => exact .of_eq rfl active
  | begin =>
    exact .of_eq (Function.update_of_ne (Nat.ne_of_lt (sound.known_of_active active)) ..) active
  | promote x =>
    by_cases same : y = x
    · subst same
      have here := o.txn_promoted y
      exact ⟨by rw [here]; rfl, by rw [here], fun _ => by rw [here]⟩
    · exact .of_eq (Function.update_of_ne same ..) active

theorem Turn.past (turn : Turn L spent o o') (sound : o.Sound) (known : y < o.txns)
    (past : (o.txn y).2.isActive = false) :
    o'.txn y = o.txn y := by
  cases turn with
  | pause | close | enroll | retire | note | entry => rfl
  | begin => exact Function.update_of_ne (Nat.ne_of_lt known) ..
  | promote x held =>
    refine Function.update_of_ne ?_ ..
    rintro rfl
    rw [(sound.held _ y held).2.2.1] at past
    cases past

theorem Turns.continues (turns : Turns L spent o0 ended o) (sound : o0.Sound)
    (active : (o0.txn y).2.isActive = true)
    (other : ∀ d ∈ ended, d.txn ≠ y) : o0.Continues o y := by
  induction turns with
  | start => exact .of_eq rfl active
  | turn before turn ih =>
    have first := ih other
    exact first.trans (turn.continues (before.sound sound) first.active)
  | finish before early held how may ih =>
    have first := ih (by rintro _ ⟨⟩)
    exact first.trans (.of_eq (Function.update_of_ne (other _ rfl).symm ..) first.active)

end Running

section Tables

/-- The transaction `y` of `t` is the one it was, with the same callbacks, but for those of an abort
once it cannot. -/
structure Outline.Carries (o o' : Outline) (t : ThreadId) (y : TxnId) : Prop where
  held : (o.thread t).txn = some y
  onCommit : (o'.thread t).onCommit = (o.thread t).onCommit
  onAbort : (o'.thread t).onAbort = (o.thread t).onAbort ∨ (o'.txn y).2 = .inevitable

structure Outline.Commences (o o' : Outline) (t : ThreadId) (y : TxnId) : Prop where
  new : o.txns ≤ y
  onAbort : (o'.thread t).onAbort = .empty
  onCommit : (o'.thread t).onCommit = .empty

variable (apart : ∀ t, ¬ L.tables t)
include apart

theorem Turn.carries (turn : Turn L spent o o') (sound : o.Sound)
    (held : (o'.thread t).txn = some y) :
    o.Carries o' t y ∨ o.Commences o' t y := by
  have stays : ∀ {o' : Outline}, (o'.thread t).txn = some y → o'.thread t = o.thread t →
      o.Carries o' t y :=
    fun held here => ⟨here ▸ held, by rw [here], .inl (by rw [here])⟩
  cases turn with
  | pause | close | entry => exact .inl (stays held rfl)
  | note t x onAbort onCommit may => exact absurd may (apart t)
  | enroll =>
    by_cases same : t = o.threads
    · subst same
      rw [Outline.thread_enrolled] at held
      cases held
    · exact .inl (stays held (Function.update_of_ne same ..))
  | retire u =>
    by_cases same : t = u
    · subst same
      have here := o.thread_retired t
      rw [here] at held
      exact .inl ⟨held, by rw [here], .inl (by rw [here])⟩
    · exact .inl (stays held (Function.update_of_ne same ..))
  | begin u k idle =>
    by_cases same : t = u
    · subst same
      have here := o.thread_begun t k
      obtain ⟨-, onAbort, onCommit⟩ := sound.idle t idle
      rw [here] at held
      cases held
      exact .inr ⟨le_rfl, by rwa [here], by rwa [here]⟩
    · exact .inl (stays held (Function.update_of_ne same ..))
  | promote x held' =>
    by_cases same : t = (o.txn x).1
    · subst same
      have here : (o.promoted x).thread (o.txn x).1 =
          { o.thread (o.txn x).1 with onAbort := .empty } := Function.update_self ..
      rw [here] at held
      obtain rfl := Option.some.inj (held'.symm.trans held)
      exact .inl ⟨held', by rw [here], .inr (by rw [Outline.txn_promoted])⟩
    · exact .inl (stays held (Function.update_of_ne same ..))

theorem Turns.carries (turns : Turns L spent o0 ended o) (sound : o0.Sound)
    (held : (o.thread t).txn = some y) :
    o0.Carries o t y ∨ o0.Commences o t y := by
  induction turns with
  | start => exact .inl ⟨held, rfl, .inl rfl⟩
  | @turn ended o o' before turn ih =>
    have now := before.sound sound
    obtain last | last := turn.carries apart now held
    · obtain first | first := ih last.held
      · refine .inl ⟨first.held, last.onCommit.trans first.onCommit, ?_⟩
        obtain same | inevitable := last.onAbort
        · refine first.onAbort.imp same.trans fun inevitable => ?_
          exact (turn.continues now (now.held t y last.held).2.2.1).inevitable inevitable
        · exact .inr inevitable
      · refine .inr ⟨first.new, ?_, last.onCommit.trans first.onCommit⟩
        obtain same | inevitable := last.onAbort
        · exact same.trans first.onAbort
        · have own := (turn.sound now).held t y held
          have none := (turn.sound now).inevitable y inevitable
          rwa [own.2.1] at none
    · exact .inr ⟨(before.ages sound).txns.trans last.new, last.onAbort, last.onCommit⟩
  | @finish o x phase before early held' how may ih =>
    by_cases same : t = (o.txn x).1
    · subst same
      rw [Outline.thread_ended] at held
      cases held
    · have here : (o.ended x phase).thread t = o.thread t := Function.update_of_ne same ..
      rw [here] at held
      obtain first | first := ih held
      · refine .inl ⟨first.held, by rw [here]; exact first.onCommit, ?_⟩
        have other : y ≠ x := by
          rintro rfl
          exact same ((before.sound sound).held t y held).2.1.symm
        have txn : (o.ended x phase).txn y = o.txn y := Function.update_of_ne other ..
        rw [here, txn]
        exact first.onAbort
      · exact .inr ⟨first.new, by rw [here]; exact first.onAbort,
          by rw [here]; exact first.onCommit⟩

theorem Turn.unregistered (turn : Turn L spent o o') (sound : o.Sound)
    (none : (o.thread t).onAbort = .empty ∧ (o.thread t).onCommit = .empty) :
    (o'.thread t).onAbort = .empty ∧ (o'.thread t).onCommit = .empty := by
  cases held : (o'.thread t).txn with
  | none => exact ((turn.sound sound).idle t held).2
  | some y =>
    obtain carries | commences := turn.carries apart sound held
    · refine ⟨?_, carries.onCommit.trans none.2⟩
      obtain same | inevitable := carries.onAbort
      · exact same.trans none.1
      · have empty := (turn.sound sound).inevitable y inevitable
        rwa [((turn.sound sound).held t y held).2.1] at empty
    · exact ⟨commences.onAbort, commences.onCommit⟩

/-- What is known of a transaction that has ended. If it ran before, what is due had been registered
then. -/
structure Outline.Concludes (o o' : Outline) (d : Ending) : Prop where
  known : d.txn < o'.txns
  phase : (o'.txn d.txn).2 = d.phase
  onAbort : (o'.thread (o'.txn d.txn).1).onAbort = .empty
  onCommit : (o'.thread (o'.txn d.txn).1).onCommit = .empty
  how : (o.txn d.txn).2.EndsIn d.phase
  before : (o.txn d.txn).2.isActive = true ∧ (o'.txn d.txn).1 = (o.txn d.txn).1 ∧
    d.due = (o.thread (o.txn d.txn).1).due d.phase ∨
    o.txns ≤ d.txn ∧ d.due = []

theorem Turns.concludes (turns : Turns L spent o0 (some d) o) (sound : o0.Sound) :
    o0.Concludes o d := by
  generalize h : some d = ended at turns
  induction turns with
  | start => cases h
  | @turn ended o o' before turn ih =>
    subst h
    have first := ih rfl
    have now := before.sound sound
    have same := turn.past now first.known (by rw [first.phase]; exact first.how.past)
    obtain ⟨onAbort, onCommit⟩ := turn.unregistered apart now ⟨first.onAbort, first.onCommit⟩
    refine ⟨first.known.trans_le (turn.ages now).txns, ?_, ?_, ?_, first.how, ?_⟩ <;> rw [same]
    · exact first.phase
    · exact onAbort
    · exact onCommit
    · exact first.before
  | @finish o x phase before early held how may ih =>
    cases h
    have now := before.sound sound
    have continues : (o0.txn x).2.isActive = true → o0.Continues o x :=
      fun active => before.continues sound active (by rintro _ ⟨⟩)
    refine ⟨(now.held _ x held).1, by rw [Outline.txn_ended], ?_, ?_, ?_, ?_⟩
    · rw [Outline.txn_ended, Outline.thread_ended]
    · rw [Outline.txn_ended, Outline.thread_ended]
    · refine how.imp id fun aborted => ⟨aborted.1, fun inevitable => aborted.2 ?_⟩
      exact (continues (by rw [inevitable]; rfl)).inevitable inevitable
    · have due : ∀ {table table' : CallbackTable Key Callback}, table = table' →
          table.entries.map (·.2) = table'.entries.map (·.2) :=
        fun same => by rw [same]
      obtain carries | commences := before.carries apart sound held
      · have active := (sound.held _ x carries.held).2.2.1
        have thread := (continues active).thread
        refine .inl ⟨active, by rwa [Outline.txn_ended], ?_⟩
        rw [← thread]
        obtain rfl | ⟨rfl, evitable⟩ := how
        · exact due carries.onCommit
        · exact due (carries.onAbort.resolve_right evitable)
      · refine .inr ⟨commences.new, ?_⟩
        obtain rfl | ⟨rfl, evitable⟩ := how
        · exact due commences.onCommit
        · exact due commences.onAbort

end Tables

theorem Turns.unspent (turns : Turns L spent o0 (some d) o) : spent = false := by
  generalize h : some d = ended at turns
  induction turns with
  | start => cases h
  | turn before turn ih => exact ih h
  | finish before early => exact early

theorem Turns.over (turns : Turns L spent o0 ended o) (known : y < o.txns)
    (past : (o.txn y).2.isActive = false) :
    y < o0.txns ∧ (o0.txn y).2.isActive = false ∨ ∃ d, ended = some d ∧ d.txn = y := by
  induction turns with
  | start => exact .inl ⟨known, past⟩
  | @turn ended o o' before turn ih =>
    have still : y < o.txns ∧ (o.txn y).2.isActive = false := by
      cases turn with
      | pause | close | enroll | retire | note | entry => exact ⟨known, past⟩
      | begin t k =>
        by_cases same : y = o.txns
        · subst same
          rw [show (o.begun t k).txn o.txns = (t, .running) from Function.update_self ..] at past
          cases past
        · rw [show (o.begun t k).txn y = o.txn y from Function.update_of_ne same ..] at past
          exact ⟨Nat.lt_of_le_of_ne (Nat.le_of_lt_succ known) same, past⟩
      | promote x =>
        by_cases same : y = x
        · subst same
          rw [Outline.txn_promoted] at past
          cases past
        · rw [show (o.promoted x).txn y = o.txn y from Function.update_of_ne same ..] at past
          exact ⟨known, past⟩
    exact ih still.1 still.2
  | @finish o x phase before early held how may ih =>
    by_cases same : y = x
    · exact .inr ⟨_, rfl, same.symm⟩
    · rw [show (o.ended x phase).txn y = o.txn y from Function.update_of_ne same ..] at past
      exact .inl ((ih known past).resolve_right (by rintro ⟨_, ⟨⟩, -⟩))

end TxHeap
