import Mathlib.Data.List.Pairwise
import TxHeap.Proofs.Machine.Locks

/-! Who waits for whom. Calls are deadlocked if each waits for something that none but they could
bring about. While no rule is broken this happens in one way only: a call that stays in a pause
holds the mutex of the table of foreign callers, the pause waits for a thread to stop, and that
waits for the mutex. -/

namespace TxHeap
open Engine

variable {p : Task} {i : Nat} {z : Sleeper}

/-- The thread cannot go on before the call: it waits for a mutex in it, or is the one that sleeps.
-/
def Task.Stops (p : Task) (t : ThreadId) : Prop :=
  t ∈ p.threads ∧ ∀ z ∈ p.sleeper?, z.who = .thread t

instance (p : Task) (t : ThreadId) : Decidable (p.Stops t) := inferInstanceAs (Decidable (_ ∧ _))

def Within (S : List Task) (t : ThreadId) : Prop := ∃ p ∈ S, p.Stops t

instance (S : List Task) (t : ThreadId) : Decidable (Within S t) :=
  inferInstanceAs (Decidable (∃ p ∈ S, _))

namespace System

/-- One who has asked for a pause does not wait among the calls. -/
def Releases (s : System) (S : List Task) : Caller → Prop
  | .thread t => ¬ Within S t
  | who => ∃ q ∈ s.tasks, q ∉ S ∧ q.pausing = some who

/-- What is waited for can be brought about by others than the calls. -/
def Hopes (s : System) (S : List Task) : Wait → Prop
  | .mutex m => ∃ q ∈ s.tasks, q ∉ S ∧ m ∈ q.held
  | .backoff => True
  | .pause _ | .pauseInGoal .. => ∃ who, s.engine.pauser = some who ∧ s.Releases S who
  | .goal .noInevitable _ => ∃ x, s.engine.inevitable = some x ∧ ¬ Within S (s.engine.txn x).thread
  /- One whose segment it is ends its transaction, or one who has been called to a free segment
  takes it. -/
  | .goal .freeSegment _ => (∃ k t, (s.engine.segment k).owner = some t ∧ ¬ Within S t) ∨
    ∃ q ∈ s.tasks, q ∉ S ∧ ∃ i, q.seeker? = some i ∧ (i, .freeSegment) ∉ s.engine.asleep
  /- All that still run have to stop. -/
  | .goal .othersStopped z => s.engine.othersStopped z.who = false ∧
    ∀ k t, (s.engine.segment k).owner = some t → .thread t ≠ z.who →
      (s.engine.segment k).standing = .running → ¬ Within S t

/-- The calls wait for one another, and for no one else. -/
structure Deadlock (s : System) (S : List Task) : Prop where
  nonempty : S ≠ []
  sub : ∀ p ∈ S, p ∈ s.tasks
  stuck : ∀ p ∈ S, ∃ w, p.wait? = some w ∧ w.ready s.engine = false ∧ ¬ s.Hopes S w

/-- A call that has asked for a pause, one that waits for the foreign table while its thread is to
be stopped, and one that has locked the table and stays in the pause. -/
def Ring (s : System) (S : List Task) : Prop :=
  ∃ p ∈ S, ∃ q ∈ S, ∃ r ∈ S, (p.pausing ≠ none ∧ p.pausing = s.engine.pauser) ∧
    (q.wait? = some (.mutex .bracket) ∧ ∃ t k, q.Stops t ∧ (s.engine.segment k).owner = some t ∧
      (s.engine.segment k).standing = .running ∧ s.engine.pauser ≠ some (.thread t)) ∧
    .bracket ∈ r.held ∧ ∃ z, r.wait? = some (.pause z)

/-- A thread that has paused the engine waits for something else than to have it paused. -/
def Trapped (s : System) (S : List Task) : Prop :=
  ∃ t, s.engine.pauser = some (.thread t) ∧ Within S t ∧ ∀ p ∈ s.tasks, p.pausing = none

def Unleaked (s : System) : Prop := ∀ m, ¬ s.Leaked m

end System

theorem Task.Ok.waits {e : Engine} {w : Wait} (ok : p.Ok e) (hw : p.wait? = some w) :
    (w.goal? ≠ none → .bracket ∉ p.held) ∧ (∀ m, w = .mutex m → m = .engine ∨ p.held = []) ∧
      (w.pausing ≠ none → w.condition = .safePoint) := by
  obtain ⟨op, threads, held, course⟩ := p
  cases course with
  | done | raised | calling => cases hw
  | waiting w' e1 resume =>
    obtain rfl := Option.some.inj hw
    have waiting : Task.Waiting ⟨op, threads, held, .waiting w' e1 resume⟩ w' e1 resume e := ok
    exact ⟨waiting.apart, waiting.bare, waiting.asks⟩

theorem Task.seeks (h : p.seeker? = some i) : ∃ z, z.ticket = i ∧ p.sleeper? = some z ∧
      (p.wait? = some (.goal .freeSegment z) ∨ p.wait? = some (.pauseInGoal .freeSegment z)) := by
  obtain ⟨w, hw, here⟩ := Option.bind_eq_some_iff.1 h
  rw [sleeper?, hw]
  cases w with
  | mutex | backoff | pause => cases here
  | goal g z | pauseInGoal g z =>
    cases g with
    | othersStopped | noInevitable => cases here
    | freeSegment =>
      refine ⟨z, Option.some.inj here, rfl, ?_⟩
      simp

namespace System
variable {s : System} {S : List Task} {w : Wait} {t : ThreadId}

section Parts
variable (ok : s.Ok) (unleaked : s.Unleaked)
include ok unleaked

theorem Ok.unlocked : .engine ∉ s.engine.locked := fun locked =>
  unleaked .engine ⟨locked, fun p hp held => ((ok.tasks p hp).held _ held).2 rfl⟩

theorem Ok.blocked (hp : p ∈ s.tasks) (hw : p.wait? = some w) (blocked : w.ready s.engine = false) :
    (w = .mutex .bracket ∧ .bracket ∈ s.engine.locked) ∨
      ∃ z, p.sleeper? = some z ∧ Sits p.threads w z s.engine ∧
      (z.ticket, w.condition) ∈ s.engine.asleep := by
  have free := ok.unlocked unleaked
  have asleep : ∀ z, w.sleeper? = some z → Wait.ready.awake z.ticket s.engine = false →
      ∃ z, p.sleeper? = some z ∧ Sits p.threads w z s.engine ∧
        (z.ticket, w.condition) ∈ s.engine.asleep := by
    intro z hz still
    have sleeper : p.sleeper? = some z := by rwa [Task.sleeper?, hw]
    obtain ⟨w', hw', sits⟩ := (ok.tasks p hp).sits sleeper
    cases hw.symm.trans hw'
    refine ⟨z, sleeper, sits, ?_⟩
    simp only [Wait.ready.awake, isLocked, List.contains_eq_mem, free, decide_false, Bool.not_false,
      Bool.and_true,
      List.all_eq_false] at still
    obtain ⟨⟨i, c⟩, hi, same⟩ := still
    have same : i = z.ticket := by simpa using same
    subst same
    rwa [← sits.asleep c hi]
  cases w with
  | backoff => cases blocked
  | mutex m =>
    have taken : m ∈ s.engine.locked := by simpa [Wait.ready, isLocked] using blocked
    cases m with
    | engine => exact absurd taken free
    | stack t => exact absurd (ok.inv.locks t taken) free
    | bracket => exact .inl ⟨rfl, taken⟩
  | pause z | goal g z | pauseInGoal g z => exact .inr (asleep z rfl blocked)

omit unleaked in
theorem Ok.called (asleep : (i, .freeSegment) ∈ s.engine.asleep) (vacant : 0 < s.engine.vacant) :
    ∃ q ∈ s.tasks, ∃ j, q.seeker? = some j ∧ (j, .freeSegment) ∉ s.engine.asleep := by
  have seated : (i, .freeSegment) ∈ s.engine.seated := List.mem_filter.2 ⟨asleep, by simp⟩
  have room := ok.room (List.ne_nil_of_mem seated)
  have nodup : (s.tasks.filterMap Task.seeker?).Nodup := by
    refine List.Pairwise.filterMap _ (fun p q apart i hi j hj same => ?_) ok.apart
    obtain ⟨z, rfl, hz, hw⟩ := Task.seeks hi
    obtain ⟨y, rfl, hy, hw'⟩ := Task.seeks hj
    have waits : p.Waits := by rw [Task.Waits]; obtain hw | hw := hw <;> rw [hw] <;> rfl
    have waits' : q.Waits := by rw [Task.Waits]; obtain hw | hw := hw' <;> rw [hw] <;> rfl
    exact (apart waits waits').tickets z y hz hy same
  refine not_not.1 fun none => ?_
  have sub : s.tasks.filterMap Task.seeker? ⊆ s.engine.seated.map Prod.fst := by
    intro j hj
    obtain ⟨q, hq, seeks⟩ := List.mem_filterMap.1 hj
    have asleep := not_not.1 fun awake => none ⟨q, hq, j, seeks, awake⟩
    exact List.mem_map.2 ⟨_, List.mem_filter.2 ⟨asleep, by simp⟩, rfl⟩
  have length := (List.subperm_of_subset nodup sub).length_le
  rw [List.length_map] at length
  omega

variable (dead : s.Deadlock S)
include dead

theorem Deadlock.holder (hp : p ∈ S) (hw : p.wait? = some (.mutex .bracket)) :
    ∃ r ∈ S, .bracket ∈ r.held ∧ ∃ z, r.wait? = some (.pause z) := by
  obtain ⟨w, hw', blocked, hopeless⟩ := dead.stuck p hp
  cases hw.symm.trans hw'
  have taken : .bracket ∈ s.engine.locked := by simpa [Wait.ready, isLocked] using blocked
  obtain ⟨r, hr, held⟩ : ∃ r ∈ s.tasks, .bracket ∈ r.held :=
    not_not.1 fun nobody => unleaked .bracket ⟨taken, fun r hr held => nobody ⟨r, hr, held⟩⟩
  have hr' := not_not.1 fun other => hopeless ⟨r, hr, other, held⟩
  refine ⟨r, hr', held, ?_⟩
  obtain ⟨w, hw, blocked, -⟩ := dead.stuck r hr'
  obtain ⟨apart, bare, -⟩ := (ok.tasks r hr).waits hw
  cases w with
  | backoff => cases blocked
  | mutex m =>
    obtain rfl | none := bare m rfl
    · exact absurd (ok.unlocked unleaked) (by simpa [Wait.ready, isLocked] using blocked)
    · rw [none] at held
      cases held
  | goal g | pauseInGoal g => exact absurd held (apart (Option.some_ne_none g))
  | pause z => exact ⟨z, hw⟩

theorem Deadlock.ring (hp : p ∈ S) (asks : p.pausing ≠ none) : s.Ring S := by
  obtain ⟨w, hw, blocked, hopeless⟩ := dead.stuck p hp
  have okay := ok.tasks p (dead.sub p hp)
  have pausing : p.pausing = w.pausing := by rw [Task.pausing, hw]; rfl
  have safePoint := (okay.waits hw).2.2 (pausing ▸ asks)
  obtain ⟨rfl, -⟩ | ⟨z, hz, sits, asleep⟩ := ok.blocked unleaked (dead.sub p hp) hw blocked
  · cases safePoint
  obtain ⟨who, asked⟩ := Option.ne_none_iff_exists'.1 asks
  have pauser := (okay.pausing asked).1
  rw [safePoint] at asleep
  have running := sits.running asleep
  have goal : w = .goal .othersStopped z ∧ z.who = who := by
    have sleeper := sits.sleeper
    rw [asked] at pausing
    cases w with
    | mutex | backoff => cases sleeper
    | pause | pauseInGoal => cases safePoint
    | goal g =>
      cases sleeper
      cases g with
      | freeSegment | noInevitable => cases safePoint
      | othersStopped => exact ⟨rfl, (Option.some.inj pausing).symm⟩
  obtain ⟨rfl, rfl⟩ := goal
  -- One that still runs is stopped in one of the calls, and cannot be asleep.
  obtain ⟨k, t, owner, other, up, q, hq, stops⟩ : ∃ k t, (s.engine.segment k).owner = some t ∧
      .thread t ≠ z.who ∧
      (s.engine.segment k).standing = .running ∧ Within S t := by
    refine not_not.1 fun none => hopeless ⟨running, fun k t owner other up within => ?_⟩
    exact none ⟨k, t, owner, other, up, within⟩
  obtain ⟨w', hw', blocked', -⟩ := dead.stuck q hq
  obtain ⟨rfl, -⟩ | ⟨y, hy, sits', -⟩ := ok.blocked unleaked (dead.sub q hq) hw' blocked'
  · obtain ⟨r, hr, held⟩ := dead.holder ok unleaked hq hw'
    refine ⟨p, hp, q, hq, r, hr, ⟨asks, asked.trans pauser.symm⟩,
      ⟨hw', t, k, stops, owner, up, fun same => other ?_⟩, held⟩
    exact Option.some.inj (same.symm.trans pauser)
  · have seat := ok.seats.owner k t owner
    have own : y.segment = some k := by rwa [sits'.segment, stops.2 y hy]
    exact absurd up (sits'.standing k own)

/-- Whoever stays in a pause waits for one that has asked for it, and so for the others to stop, or
has it. -/
theorem Deadlock.of_released (hp : p ∈ S) (hw : p.wait? = some w) (sleeps : w.sleeper? ≠ none)
    (released : w.condition = .released) : s.Ring S ∨ s.Trapped S := by
  obtain ⟨w', hw', blocked, hopeless⟩ := dead.stuck p hp
  cases hw.symm.trans hw'
  obtain ⟨rfl, -⟩ | ⟨z, hz, sits, asleep⟩ := ok.blocked unleaked (dead.sub p hp) hw blocked
  · exact absurd rfl sleeps
  rw [released] at asleep
  obtain ⟨who, pauser⟩ := Option.ne_none_iff_exists'.1 (ok.wakeful.released _ asleep)
  have hopeless : ¬ s.Releases S who := fun releases => by
    refine hopeless ?_
    cases w with
    | mutex | backoff => cases sits.sleeper
    | goal g => cases g <;> cases released
    | pause | pauseInGoal => exact ⟨who, pauser, releases⟩
  by_cases asked : ∃ q ∈ s.tasks, q.pausing = some who
  · obtain ⟨q, hq, asks⟩ := asked
    have hq' : q ∈ S := by
      refine not_not.1 fun other => ?_
      cases who with
      | system | outside => exact hopeless ⟨q, hq, other, asks⟩
      | thread t =>
        -- The thread is stopped in that call and in no other.
        obtain ⟨r, hr, stops⟩ := Classical.not_not.1 hopeless
        have waits : q.Waits := by
          rw [Task.Waits, Option.isSome_iff_ne_none]
          intro none
          rw [Task.pausing, none] at asks
          cases asks
        have waits' : r.Waits := by
          obtain ⟨w, hw, -⟩ := dead.stuck r hr
          rw [Task.Waits, hw]
          rfl
        have apart : q.Apart r := by
          have symm : Std.Symm fun p q : Task => p.Waits → q.Waits → p.Apart q :=
            ⟨fun p q apart hq hp => (apart hp hq).symm⟩
          exact ok.apart.forall hq (dead.sub r hr) (fun same => other (same ▸ hr)) waits waits'
        exact apart.threads t (((ok.tasks q hq).pausing asks).2 t rfl) stops.1
    exact .inl (dead.ring ok unleaked hq' (by rw [asks]; exact Option.some_ne_none who))
  · obtain asked' | ⟨t, rfl⟩ := ok.paused who pauser
    · exact absurd asked' asked
    · refine .inr ⟨t, pauser, Classical.not_not.1 hopeless, fun q hq => ?_⟩
      refine Option.eq_none_iff_forall_ne_some.2 fun who asks => asked ⟨q, hq, ?_⟩
      rw [asks]
      exact ((ok.tasks q hq).pausing asks).1.symm.trans pauser

/-- A running thread is stopped by a pause, by the table of foreign callers, or by another's
inevitable transaction. -/
theorem Deadlock.of_stopped (hp : p ∈ S) (stops : p.Stops t) {x : TxnId}
    (held : (s.engine.thread t).txn = some x) :
    (s.Ring S ∨ s.Trapped S) ∨
    (s.engine.txn x).phase = .running ∧ ∃ z, p.wait? = some (.goal .noInevitable z) := by
  obtain ⟨w, hw, blocked, -⟩ := dead.stuck p hp
  obtain ⟨rfl, -⟩ | ⟨z, hz, sits, -⟩ := ok.blocked unleaked (dead.sub p hp) hw blocked
  · obtain ⟨r, hr, -, y, hy⟩ := dead.holder ok unleaked hp hw
    exact .inl (dead.of_released ok unleaked hr hy (Option.some_ne_none y) rfl)
  · have who := stops.2 z hz
    have suits := sits.suits
    cases w with
    | mutex | backoff => cases sits.sleeper
    | pause y | pauseInGoal g y =>
      exact .inl (dead.of_released ok unleaked hp hw (Option.some_ne_none y) rfl)
    | goal g y =>
      cases g with
      | othersStopped =>
        refine .inl (.inl (dead.ring ok unleaked hp ?_))
        rw [Task.pausing, hw]
        exact Option.some_ne_none y.who
      | freeSegment =>
        obtain ⟨u, hu, seat⟩ := suits _ rfl
        obtain rfl := Caller.thread.inj (who.symm.trans hu)
        rw [(ok.inv.core.life.txn t x held).2.2.1] at seat
        cases seat
      | noInevitable =>
        obtain ⟨u, y', hu, held', running⟩ := suits _ rfl
        obtain rfl := Caller.thread.inj (who.symm.trans hu)
        cases held.symm.trans held'
        exact .inr ⟨running, _, hw⟩

/-- Whoever waits for the inevitable transaction waits for a thread that is stopped by something
else. -/
theorem Deadlock.of_inevitable (hp : p ∈ S) (hw : p.wait? = some (.goal .noInevitable z)) :
    s.Ring S ∨ s.Trapped S := by
  obtain ⟨w, hw', blocked, hopeless⟩ := dead.stuck p hp
  cases hw.symm.trans hw'
  obtain ⟨⟨⟩, -⟩ | ⟨y, hy, sits, asleep⟩ := ok.blocked unleaked (dead.sub p hp) hw blocked
  obtain ⟨x, inevitable⟩ := Option.ne_none_iff_exists'.1 (ok.wakeful.inevitable _ asleep)
  have life := ok.inv.core.life
  have phase := (life.inevitable x).1 inevitable
  obtain ⟨q, hq, stops⟩ := not_not.1 fun other => hopeless ⟨x, inevitable, other⟩
  obtain found | ⟨running, -⟩ :=
    dead.of_stopped ok unleaked hq stops (life.thread x (by rw [Active, phase]; rfl))
  · exact found
  · rw [phase] at running
    cases running

theorem Deadlock.of_seated (hp : p ∈ S) (hw : p.wait? = some (.goal .freeSegment z))
    (seat : 0 < s.engine.segments.size) : s.Ring S ∨ s.Trapped S := by
  obtain ⟨w, hw', blocked, hopeless⟩ := dead.stuck p hp
  cases hw.symm.trans hw'
  obtain ⟨⟨⟩, -⟩ | ⟨y, hy, sits, asleep⟩ := ok.blocked unleaked (dead.sub p hp) hw blocked
  by_cases owned : ∃ k t, (s.engine.segment k).owner = some t
  · obtain ⟨k, t, owner⟩ := owned
    obtain ⟨q, hq, stops⟩ := not_not.1 fun other => hopeless (.inl ⟨k, t, owner, other⟩)
    obtain ⟨x, held⟩ := Option.isSome_iff_exists.1
      (ok.inv.core.life.holds t k (ok.seats.owner k t owner)).1
    obtain found | ⟨-, y, hy⟩ := dead.of_stopped ok unleaked hq stops held
    · exact found
    · exact dead.of_inevitable ok unleaked hq hy
  · -- All segments are free, and more than those who sleep look for one.
    have vacant : 0 < s.engine.vacant := by
      refine List.count_pos_iff.2 (List.mem_map.2 ⟨s.engine.segments[0], List.getElem_mem .., ?_⟩)
      refine Option.eq_none_iff_forall_ne_some.2 fun t owner => owned ⟨0, t, ?_⟩
      rwa [Engine.segment, Array.getD_eq_getD_getElem?, Array.getElem?_eq_getElem seat,
        Option.getD_some]
    obtain ⟨q, hq, i, seeks, awake⟩ := ok.called asleep vacant
    have hq' := not_not.1 fun other => hopeless (.inr ⟨q, hq, other, i, seeks, awake⟩)
    obtain ⟨y, rfl, hy, hw | hw⟩ := Task.seeks seeks
    · obtain ⟨w, hw', blocked, -⟩ := dead.stuck q hq'
      cases hw.symm.trans hw'
      obtain ⟨⟨⟩, -⟩ | ⟨u, hu, -, asleep⟩ := ok.blocked unleaked hq hw blocked
      cases hy.symm.trans hu
      exact absurd asleep awake
    · exact dead.of_released ok unleaked hq' hw (Option.some_ne_none y) rfl

theorem Deadlock.cases (seat : 0 < s.engine.segments.size) : s.Ring S ∨ s.Trapped S := by
  obtain ⟨p, hp⟩ := List.exists_mem_of_ne_nil S dead.nonempty
  obtain ⟨w, hw, blocked, -⟩ := dead.stuck p hp
  obtain ⟨rfl, -⟩ | ⟨z, hz, sits, -⟩ := ok.blocked unleaked (dead.sub p hp) hw blocked
  · obtain ⟨r, hr, -, y, hy⟩ := dead.holder ok unleaked hp hw
    exact dead.of_released ok unleaked hr hy (Option.some_ne_none y) rfl
  cases w with
  | mutex | backoff => cases sits.sleeper
  | pause y | pauseInGoal g y =>
    exact dead.of_released ok unleaked hp hw (Option.some_ne_none y) rfl
  | goal g y =>
    cases g with
    | freeSegment => exact dead.of_seated ok unleaked hp hw seat
    | noInevitable => exact dead.of_inevitable ok unleaked hp hw
    | othersStopped =>
      refine .inl (dead.ring ok unleaked hp ?_)
      rw [Task.pausing, hw]
      exact Option.some_ne_none y.who

end Parts
end System

section Run
variable {who : Actor} {e e' : Engine} {N n : Nat} {a : Nat → System} {choice : Nat → Choice}

theorem Engine.Deed.segments_size (h : Deed who e e') : e'.segments.size = e.segments.size := by
  cases h with
  | nothing h => exact h.segments_size
  | work x mine h => exact h.steady.segments_size
  | abort x m mine works ok h => exact h.leaves.segments_size.trans works.steady.segments_size
  | commit x m b mine minor valid h after =>
    have same : e'.segments.size = b.segments.size := by
      obtain alike | ⟨c, d, before, collects, later⟩ := after
      · exact alike.segments_size
      · exact later.segments_size.trans (collects.segments_size.trans before.segments_size)
    exact same.trans (h.leaves.segments_size.trans minor.serves.works.steady.segments_size)
  | promote x mine h | begin t x k mine h | idle t mine h | prebuild r n mine h | collect mine h =>
    exact h.segments_size

theorem Engine.Strides.segments_size {threads : List ThreadId} (h : Strides threads e n e') :
    e'.segments.size = e.segments.size := by
  induction h with
  | start => rfl
  | lull before h engine inv ih => exact h.alike.segments_size.trans ih
  | stretch before own h inv ih =>
    obtain ⟨a, b, alike, deed, alike'⟩ := h.deed
    exact alike'.segments_size.trans (deed.segments_size.trans (alike.segments_size.trans ih))

namespace System

def Faultless (a : Nat → System) (choice : Nat → Choice) (n : Nat) : Prop :=
  ∀ i < n, ∀ exit v, ((a i).step (choice i)).2 = some exit → exit.outcome = .error v → ¬ v.Fatal

theorem Run.seat (run : System.Run N a choice) (hn : n ≤ N) : 0 < (a n).engine.segments.size := by
  induction n with
  | zero => exact run.unused.seat
  | succ n ih =>
    obtain ⟨threads, k, -, strides⟩ := (run.steps hn).goes
    rw [run.step n hn, strides.segments_size]
    exact ih (Nat.le_of_succ_le hn)

theorem Run.unleaked (run : System.Run N a choice) (hn : n ≤ N) (faultless : Faultless a choice n) :
    (a n).Unleaked := by
  have given : ∀ {m}, (∀ t, m ≠ .stack t) → ¬ (a n).Leaked m := by
    intro m other leaked
    obtain ⟨i, hi, exit, ends, held⟩ := (run.leaked hn).1 leaked
    have ok : exit.Ok (a (i + 1)) := by
      rw [run.step i (hi.trans_le hn)]
      exact (run.steps (hi.trans_le hn)).exit exit ends
    obtain ⟨v, out, keeps⟩ := ok.mayLeaveLocked held other
    exact faultless i hi exit v ends out (keeps.fatal other)
  intro m leaked
  cases m with
  | engine | bracket => exact given (by rintro t ⟨⟩) leaked
  | stack t =>
    refine given (by rintro u ⟨⟩) ⟨(run.ok hn).inv.locks t leaked.1, fun p hp held => ?_⟩
    exact (((run.ok hn).tasks p hp).held _ held).2 rfl

end System
end Run

/-- In every run in which no rule is broken, calls that wait for one another and for no one else do
so around the table of foreign callers, or one that has paused the engine waits itself. -/
theorem deadlocked_around_bracket {N n : Nat} {a : Nat → System} {choice : Nat → Choice}
    (run : System.Run N a choice) (hn : n ≤ N) (faultless : System.Faultless a choice n)
    {S : List Task} (dead : (a n).Deadlock S) :
    (a n).Ring S ∨ (a n).Trapped S :=
  dead.cases (run.ok hn) (run.unleaked hn faultless) (run.seat hn)

/-- One foreign caller is inside when a collection is asked for, a second one comes, and the first
leaves. -/
def crossing : List Choice :=
  [.start (.enter 0), .start (.ask .register), .start (.ask (.collect 1)), .start (.enter 1),
    .start (.leave 0 .outermost)]

theorem deadlocked_around_bracket_crossing :
    ∃ a choice, System.Run 5 a choice ∧ System.Faultless a choice 5 ∧
    (a 5).Deadlock (a 5).tasks ∧ (a 5).Ring (a 5).tasks := by
  have run := System.run_enacts crossing (by decide +kernel) (by decide)
  have answered : ∀ i < 5,
      (((System.enacts crossing i).step (crossing.getD i (.wake 0))).2.all fun exit =>
      exit.outcome.isOk) = true := by decide +kernel
  have faultless : System.Faultless (System.enacts crossing) (crossing.getD · (.wake 0)) 5 := by
    intro i hi exit v ends out _
    have ok := answered i hi
    rw [ends, Option.all_some, out] at ok
    cases ok
  have waits : (System.enacts crossing 5).tasks.map Task.wait? =
      [some (.mutex .bracket), some (.pause ⟨.outside, none, 1⟩),
        some (.goal .othersStopped ⟨.thread 1, none, 0⟩)] := by
    decide +kernel
  have dead : (System.enacts crossing 5).Deadlock (System.enacts crossing 5).tasks := by
    refine ⟨by decide +kernel, fun _ => id, fun p hp => ?_⟩
    have here := List.mem_map_of_mem (f := Task.wait?) hp
    rw [waits] at here
    simp only [List.mem_cons, List.not_mem_nil, or_false] at here
    obtain here | here | here := here
    · refine ⟨_, here, by decide +kernel, ?_⟩
      rintro ⟨q, hq, other, _⟩
      exact other hq
    · refine ⟨_, here, by decide +kernel, ?_⟩
      rintro ⟨who, pauser, releases⟩
      have asked : (System.enacts crossing 5).engine.pauser = some (.thread 1) := by decide +kernel
      cases pauser.symm.trans asked
      exact releases (by decide +kernel)
    · refine ⟨_, here, by decide +kernel, ?_⟩
      rintro ⟨_, all⟩
      exact all 0 0 (by decide +kernel) (by decide) (by decide +kernel) (by decide +kernel)
  refine ⟨_, _, run, faultless, dead,
    (deadlocked_around_bracket run (Nat.le_refl 5) faultless dead).resolve_right ?_⟩
  rintro ⟨t, -, -, none⟩
  have asks : ∃ p ∈ (System.enacts crossing 5).tasks, p.pausing ≠ Option.none := by decide +kernel
  obtain ⟨p, hp, asks⟩ := asks
  exact asks (none p hp)

end TxHeap
