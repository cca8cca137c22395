import Mathlib.Data.List.Forall2
import TxHeap.Proofs.Life.Operations
import TxHeap.Proofs.Machine.Stepping

/-! Runs in outline. Each call is followed from the step with which it began: it keeps to its
licence whenever it goes on. -/

namespace TxHeap
open Engine

variable {L : Licence} {z : CallPart} {op : Operation} {m n : Nat} {l : List Nat} {e : Engine}

inductive Task.Resumed (e : Engine) : Task → Option (Except Raise Unit) → Task → Prop
  | woken {op : Operation} {threads : List ThreadId} {held : List Mutex} {w : Wait} {e1 : Engine}
      {resume : Engine → Course Engine op.Answer} (ready : w.ready e = true) :
      Resumed e ⟨op, threads, held, .waiting w e1 resume⟩ none
        ⟨op, threads, held, Machine.woken w resume e⟩
  | answered {op : Operation} {threads : List ThreadId} {held : List Mutex} {f : Callback}
      {e1 : Engine}
      {resume : Except Raise Unit → Engine → Course Engine op.Answer} (r : Except Raise Unit) :
      Resumed e ⟨op, threads, held, .calling f e1 resume⟩ (some r) ⟨op, threads, held, resume r e⟩

def Choice.resume (i : Nat) : Option (Except Raise Unit) → Choice
  | none => .wake i
  | some r => .answer i r

namespace System
variable {s : System} {others : List Task} {p : Task} {choice : Choice}

inductive Movement (s : System) : Choice → List Task → Task → Prop
  | start (op : Operation) :
      Movement s (.start op) s.tasks ⟨op, op.threads s.engine, [], op.call s.engine⟩
  | resume {i : Nat} {q p : Task} {r : Option (Except Raise Unit)} (here : s.tasks[i]? = some q)
      (resumed : q.Resumed s.engine r p) :
      Movement s (.resume i r) (s.tasks.eraseIdx i) p

theorem movement_of_mover (h : s.mover? choice = some (others, p)) :
    s.Movement choice others p := by
  cases choice with
  | start op =>
    obtain ⟨rfl, rfl⟩ := Prod.mk.inj (Option.some.inj h)
    exact .start op
  | wake =>
    unfold mover? at h
    dsimp only at h
    split at h
    · next here =>
      split at h
      · next ready =>
        obtain ⟨rfl, rfl⟩ := Prod.mk.inj (Option.some.inj h)
        exact .resume here (.woken ready)
      · cases h
    · cases h
  | answer i r =>
    unfold mover? at h
    dsimp only at h
    split at h
    · next here =>
      obtain ⟨rfl, rfl⟩ := Prod.mk.inj (Option.some.inj h)
      exact .resume here (.answered r)
    · cases h

end System

def Course.stop {α : Type} : Course Engine α → Engine
  | .done _ e => e
  | .raised _ e => e
  | .waiting _ e _ => e
  | .calling _ e _ => e

theorem System.engine_advance (e : Engine) (others : List Task) (p : Task) :
    (System.advance e others p).1.engine = p.course.stop := by
  unfold advance
  split <;> next course => rw [course]; rfl

theorem Turning.turns {α : Type} {Q : CallPart → Post α} {c : Course Engine α}
    (h : Turning L Q z c) : ∃ ended, Turns L z.spent z.start ended c.stop.outline := by
  cases c with
  | done | raised =>
    obtain ⟨⟨ended, turns, -⟩, -⟩ := h
    exact ⟨ended, turns⟩
  | waiting | calling =>
    obtain ⟨ended, turns, -⟩ := h
    exact ⟨ended, turns⟩

/-- What a call begun in `e0` will come to from where it stands; `spent` tells whether it has ended
a transaction. -/
def Task.Bound (back : Engine → Prop) (e0 : Engine) (spent : Bool) (p : Task) : Prop :=
  match p.course with
  | .waiting w e1 resume => ∀ a b, Roused p.op.control p.threads w e1 a b →
    Turning (p.op.licence back e0) (p.op.Meets back e0) ⟨spent, p.threads, a.outline⟩ (resume b)
  | .calling _ e1 resume => spent = true ∧ (∀ v s, resume (.error v) s = .raised v s) ∧
    ∀ a, a.Inv → a.outline.Sound → Ages e1 a → back a →
      Turning (p.op.licence back e0) (p.op.Meets back e0) ⟨spent, p.threads, a.outline⟩
        (resume (.ok ()) a)
  | _ => False

theorem Operation.licence_control (back : Engine → Prop) (e : Engine) (op : Operation) :
    (op.licence back e).control = op.control := by
  cases op <;> rfl

theorem Operation.licence_back (back : Engine → Prop) (e : Engine) (op : Operation) :
    (op.licence back e).back = back := by
  cases op <;> rfl

namespace System
variable {s : System} {others : List Task} {p : Task} {choice : Choice} {back : Engine → Prop}
  {e0 : Engine} {spent : Bool}

theorem Ok.turning_start (ok : s.Ok) (back : Engine → Prop) (sound : s.engine.outline.Sound)
    (allowed : s.Allows (.start op)) :
    Turning (op.licence back s.engine) (op.Meets back s.engine)
    ⟨false, op.threads s.engine, s.engine.outline⟩ (op.call s.engine) :=
  op.turning ok.inv sound allowed.2.1

section Wake
variable {threads : List ThreadId} {held : List Mutex} {w : Wait} {e1 b : Engine}
  {resume : Engine → Course Engine op.Answer}

section
variable (ok : s.Ok) (hp : ⟨op, threads, held, .waiting w e1 resume⟩ ∈ s.tasks)
  (ready : w.ready s.engine = true)
include ok hp ready

theorem Ok.wakes :
    ∃ σ : Stance, σ.control = op.control ∧ σ.threads = threads ∧ σ.pausing = w.pausing ∧
    Abides σ e1 s.engine ∧
      ((∃ b, w.wake s.engine = (b, none) ∧ Wakes σ s.engine w b) ∨
        ∃ w' b, w.wake s.engine = (b, some w') ∧ Stays σ s.engine w w' b) := by
  have waiting : Task.Waiting ⟨op, threads, held, .waiting w e1 resume⟩ w e1 resume s.engine :=
    ok.tasks _ hp
  obtain ⟨τ, control, own, mutexes, nodup, pausing, seeking, abides, walks⟩ := waiting.walks
  refine ⟨{ τ with known := s.engine.threads.size }, control, own, pausing, { abides with }, ?_⟩
  refine Wait.wake_cases rfl (fun t ht => waiting.known t (own ▸ ht)) pausing seeking waiting.real
    ready (fun z hz => ?_) fun goal bracket => ?_
  · rw [show ({ τ with known := s.engine.threads.size } : Stance).threads = threads from own]
    exact waiting.sits z hz
  · exact waiting.apart goal ((mutexes _).2 bracket)

theorem Ok.granted {who : Caller} (run : w.wake s.engine = (b, none))
    (asks : w.pausing = some who) :
    b.Stopped who e1.pauseMode := by
  have okay := ok.tasks _ hp
  have waiting : Task.Waiting ⟨op, threads, held, .waiting w e1 resume⟩ w e1 resume s.engine := okay
  have pauser := (okay.pausing asks).1
  obtain ⟨σ, -, -, pausing, abides, ⟨b', run', wakes⟩ | ⟨w', b', run', -⟩⟩ := ok.wakes hp ready
  · obtain rfl := congrArg Prod.fst (run'.symm.trans run)
    have settled : ∀ z, w.sleeper? = some z → z.who = who →
        Wait.Settles .othersStopped z s.engine b' → b'.Stopped who e1.pauseMode := by
      rintro z hz rfl ⟨c, rouses, holds, here⟩
      have after := rouses.trans (rouses_running c z.segment (Goal.kind .othersStopped))
      rw [← here] at after
      have own : z.segment = b'.segmentOf z.who := by
        rw [(waiting.sits z hz).segment]
        exact segmentOf_congr fun t _ => (after.alike.thread t).symm
      have holds' : Goal.holds .othersStopped z.who b' = true := by
        have seats := wakes.acts.seats ok.seats
        rw [here] at own seats ⊢
        exact Goal.holds_running seats own holds
      refine ⟨after.pauser.trans pauser,
        after.pauseMode.trans (abides.pauseMode _ (pausing.trans asks)), ?_⟩
      cases h : z.who <;> rw [h] at holds' <;> exact holds'
    have resumes := wakes.resumes
    cases w with
    | mutex | backoff | pause => cases asks
    | goal g z | pauseInGoal g z =>
      cases g with
      | freeSegment | noInevitable => cases asks
      | othersStopped => exact settled z rfl (Option.some.inj asks) resumes.2.2
  · rw [run] at run'
    cases run'

end

theorem Ok.turning_wake (ok : s.Ok) (sound : s.engine.outline.Sound)
    (hp : ⟨op, threads, held, .waiting w e1 resume⟩ ∈ s.tasks) (ready : w.ready s.engine = true)
    (bound : Task.Bound back e0 spent ⟨op, threads, held, .waiting w e1 resume⟩) :
    Turning (op.licence back e0) (op.Meets back e0) ⟨spent, threads, s.engine.outline⟩
    (Machine.woken w resume s.engine) := by
  obtain ⟨σ, control, own, pausing, abides, ⟨b, run, wakes⟩ | ⟨w', b, run, stays⟩⟩ :=
    ok.wakes hp ready
  · have woken : Machine.woken w resume s.engine = resume b := by
      unfold Machine.woken
      rw [run]
    rw [woken]
    exact bound s.engine b ⟨ok.inv, sound, abides.start control own e1, wakes.resumes,
      fun who asks => ok.granted hp ready run asks⟩
  · have woken : Machine.woken w resume s.engine = .waiting w' b resume := by
      unfold Machine.woken
      rw [run]
    rw [woken]
    obtain ⟨c, -, rouses, rests, -⟩ := stays.rests
    have same : b.outline = s.engine.outline := by
      refine .trans ?_ (rouses.alike.outline rouses.foreign rouses.pauser rouses.closed)
      obtain ⟨m, -, -, -, rfl, -⟩ | ⟨z, -, -, rested⟩ := rests.cases
      · rfl
      · rw [rested, outline_rest]
    have threads' : CallPart.joined ⟨spent, threads, s.engine.outline⟩ b = threads := by
      rw [CallPart.joined, show b.threads.size =
        s.engine.outline.threads from congrArg Outline.threads same, Nat.sub_self]
      exact List.append_nil _
    refine ⟨none, by rw [same]; exact .start, by rintro _ ⟨⟩, fun a d roused => ?_⟩
    rw [Operation.licence_control, threads'] at roused
    have next : CallPart.next ⟨spent, threads, s.engine.outline⟩ none b a =
        ⟨spent, threads, a.outline⟩ := by
      rw [CallPart.next, threads']
      exact congrArg (CallPart.mk · threads a.outline) (Bool.or_false spent)
    rw [next]
    have back :=
      ((abides.trans stays.abides).start control own e1).trans (roused.abides.start rfl rfl e1)
    refine bound a d ⟨roused.inv, roused.sound, back, stays.resumes a d roused.resumes,
      fun who asks => ?_⟩
    have asks' := (rests.pausing.2.symm.trans pausing).trans asks
    rw [← (abides.trans stays.abides).pauseMode who (pausing.trans asks)]
    exact roused.granted who asks'

end Wake

theorem Ok.turning_answer (ok : s.Ok) (sound : s.engine.outline.Sound) {threads : List ThreadId}
    {held : List Mutex}
    {f : Callback} {e1 : Engine} {resume : Except Raise Unit → Engine → Course Engine op.Answer}
    (hp : ⟨op, threads, held, .calling f e1 resume⟩ ∈ s.tasks)
    (bound : Task.Bound back e0 spent ⟨op, threads, held, .calling f e1 resume⟩)
    (relied : back s.engine) :
    Turning (op.licence back e0) (op.Meets back e0) ⟨spent, threads, s.engine.outline⟩
    (resume (.ok ()) s.engine) := by
  have calling := ok.tasks _ hp
  exact bound.2.2 s.engine ok.inv sound calling.ages relied

end System

def Course.exit {α : Type} (out : Except Raise α) (e : Engine) : Course Engine α :=
  match out with
  | .ok a => .done a e
  | .error v => .raised v e

theorem Turning.leaves {α : Type} {Q : CallPart → Post α} {c : Course Engine α}
    (h : Turning L Q z c) {out : Except Raise α} (ends : c = .exit out c.stop) :
    (∃ ended, Turns L z.spent z.start ended c.stop.outline ∧ ∀ d ∈ ended, d.due = []) ∧
    Q z out c.stop := by
  cases out with
  | ok a =>
    cases c with
    | done a' =>
      obtain rfl := (Course.done.inj ends).1
      exact h
    | _ => cases ends
  | error v =>
    cases c with
    | raised v' =>
      obtain rfl := (Course.raised.inj ends).1
      exact h
    | _ => cases ends

def Task.after (e : Engine) (p : Task) : Task :=
  ⟨p.op, joined p.threads e p.course.stop, Engine.kept p.held e p.course.stop, p.course⟩

theorem System.advance_cases (e : Engine) (others : List Task) (p : Task) :
    (System.advance e others p).2 = none ∧ (System.advance e others p).1.tasks =
    p.after e :: others ∨
      ∃ out : Except Raise p.op.Answer, (System.advance e others p).1.tasks = others ∧
        (System.advance e others p).2 =
        some ⟨p.op, joined p.threads e p.course.stop, Engine.kept p.held e p.course.stop, out⟩ ∧
        p.course = .exit out p.course.stop := by
  obtain ⟨op, threads, held, course⟩ := p
  cases course with
  | done a => exact .inr ⟨.ok a, rfl, rfl, rfl⟩
  | raised v => exact .inr ⟨.error v, rfl, rfl, rfl⟩
  | waiting | calling => exact .inl ⟨rfl, rfl⟩

def Course.called {α : Type} : Course Engine α → List Callback
  | .calling f _ _ => [f]
  | _ => []

def Task.Owes (due : List Callback) (p : Task) : Prop :=
  match p.course with
  | .waiting _ _ resume => due = [] ∧ ∀ s, (resume s).Calls []
  | .calling _ _ resume => ∀ s, (resume (.ok ()) s).Calls due
  | _ => False

/-- What the call does that goes on in `e`: it keeps to its licence, or fails with what a callback
has failed with. -/
inductive Task.Proceeds (back : Engine → Prop) (e0 e : Engine) (spent : Bool) (p : Task) : Prop
  | turns (h : Turning (p.op.licence back e0) (p.op.Meets back e0)
      ⟨spent, p.threads, e.outline⟩ p.course)
  | fails (v : Raise) (late : spent = true) (h : p.course = .raised v e)

namespace Task.Proceeds
variable {back : Engine → Prop} {e0 : Engine} {spent : Bool} {p : Task} {others : List Task}

theorem stands (h : p.Proceeds back e0 e spent) (going : (System.advance e others p).2 = none) :
    ∃ ended, Turns (p.op.licence back e0) spent e.outline ended p.course.stop.outline ∧
      (p.after e).Bound back e0 (spent || ended.isSome) ∧
      (∀ d ∈ ended, (p.op.licence back e0).settled p.course.stop.outline ∧
        ∃ rest, d.due = p.course.called ++ rest ∧ (p.after e).Owes rest) ∧
      (ended = none → p.course.called ≠ [] → spent = true) := by
  obtain ⟨op, threads, held, course⟩ := p
  cases h with
  | fails v late h =>
    obtain rfl : course = .raised v e := h
    cases going
  | turns h =>
    replace h : Turning (op.licence back e0) (op.Meets back e0)
        ⟨spent, threads, e.outline⟩ course := h
    cases course with
    | done | raised => cases going
    | waiting =>
      obtain ⟨ended, turns, mute, next⟩ := h
      rw [Operation.licence_control] at next
      refine ⟨ended, turns, next, fun d hd =>
        ⟨(mute d hd).1, [], (mute d hd).2.1, rfl, (mute d hd).2.2⟩, fun _ some => absurd rfl some⟩
    | calling =>
      obtain ⟨ended, turns, late, due, error, next⟩ := h
      have spent' : (spent || ended.isSome) = true := by
        cases ended with
        | none => exact Bool.or_eq_true_iff.2 (.inl (late rfl).1)
        | some => exact Bool.or_true _
      rw [Operation.licence_back] at next
      exact ⟨ended, turns, ⟨spent', error, next⟩, fun d hd => ⟨(due d hd).1, (due d hd).2⟩,
        fun none _ => (late none).1⟩

theorem leaves (h : p.Proceeds back e0 e spent) {out : Except Raise p.op.Answer}
    (ends : p.course = .exit out p.course.stop) :
    (∃ ended, Turns (p.op.licence back e0) spent e.outline ended p.course.stop.outline ∧
      ∀ d ∈ ended, d.due = []) ∧
      (p.op.Meets back e0 ⟨spent, p.threads, e.outline⟩ out p.course.stop ∨
        ∃ v, out = .error v ∧ spent = true ∧ p.course.stop = e) := by
  obtain ⟨op, threads, held, course⟩ := p
  cases h with
  | fails v late h =>
    obtain rfl : course = .raised v e := h
    cases out with
    | ok => cases ends
    | error =>
      cases ends
      exact ⟨⟨none, .start, by rintro _ ⟨⟩⟩, .inr ⟨v, rfl, late, rfl⟩⟩
  | turns h => exact (Turning.leaves h ends).imp id .inl

theorem kept (h : p.Proceeds back e0 e spent) :
    ∃ ended, Turns (p.op.licence back e0) spent e.outline ended p.course.stop.outline := by
  cases h with
  | turns h => exact h.turns
  | fails v late h =>
    rw [h]
    exact ⟨none, .start⟩

end Task.Proceeds

section Resuming
variable {s : System} {back : Engine → Prop} {e0 : Engine} {spent : Bool} {p q : Task}
  {r : Option (Except Raise Unit)} (ok : s.Ok)
  (sound : s.engine.outline.Sound) (hq : q ∈ s.tasks) (resumed : q.Resumed s.engine r p)
    (bound : q.Bound back e0 spent)
  (relied : r = some (.ok ()) → back s.engine)
include ok sound hq resumed bound relied

theorem System.Ok.turning (unfailed : ∀ v, r ≠ some (.error v)) :
    Turning (p.op.licence back e0) (p.op.Meets back e0)
    ⟨spent, p.threads, s.engine.outline⟩ p.course := by
  cases resumed with
  | woken ready => exact ok.turning_wake sound hq ready bound
  | answered r =>
    cases r with
    | ok => exact ok.turning_answer sound hq bound (relied rfl)
    | error v => exact absurd rfl (unfailed v)

theorem System.Ok.proceeds : p.Proceeds back e0 s.engine spent := by
  by_cases failed : ∃ v, r = some (.error v)
  · obtain ⟨v, rfl⟩ := failed
    cases resumed with
    | answered => exact .fails v bound.1 (bound.2.1 v s.engine)
  · exact .turns (ok.turning sound hq resumed bound relied fun v hv => failed ⟨v, hv⟩)

end Resuming

section Origins
variable {α β : Type} {R : α → β → Prop} {l : List α} {k : List β}

theorem forall₂_imp_mem {R' : α → β → Prop} (h : List.Forall₂ R l k)
    (hR : ∀ a ∈ l, ∀ b ∈ k, R a b → R' a b) :
    List.Forall₂ R' l k := by
  induction h with
  | nil => exact .nil
  | @cons a b l k first rest ih =>
    exact .cons (hR a (.head _) b (.head _) first)
      (ih fun a ha b hb => hR a (.tail _ ha) b (.tail _ hb))

end Origins

/-- The step with which the call began that goes on at step `n`, and those with which the others
began. -/
def Choice.select (n : Nat) (origins : List Nat) : Choice → Nat × List Nat
  | start _ => (n, origins)
  | wake i => (origins.getD i n, origins.eraseIdx i)
  | answer i _ => (origins.getD i n, origins.eraseIdx i)

namespace System
variable (a : Nat → System) (choice : Nat → Choice)

def origins : Nat → List Nat
  | 0 => []
  | n + 1 =>
    if ((a n).mover? (choice n)).isNone then origins n
    else if ((a n).step (choice n)).2.isSome then ((choice n).select n (origins n)).2
    else ((choice n).select n (origins n)).1 :: ((choice n).select n (origins n)).2

def origin (n : Nat) : Nat := ((choice n).select n (origins a choice n)).1

variable {a choice}

theorem select_spec (nodup : l.Nodup) (old : ∀ m ∈ l, m < n) (c : Choice) :
    ((c.select n l).1 :: (c.select n l).2).Nodup ∧ ∀ m ∈ (c.select n l).1 :: (c.select n l).2, m =
    n ∨ m ∈ l := by
  have fresh : (n :: l).Nodup ∧ ∀ m ∈ n :: l, m = n ∨ m ∈ l :=
    ⟨List.nodup_cons.2 ⟨fun mem => Nat.lt_irrefl n (old n mem), nodup⟩, fun m => List.mem_cons.1⟩
  have erased : ∀ i, (l.getD i n :: l.eraseIdx i).Nodup ∧
      ∀ m ∈ l.getD i n :: l.eraseIdx i, m = n ∨ m ∈ l := by
    intro i
    by_cases hi : i < l.length
    · have perm := List.getElem_cons_eraseIdx_perm hi
      rw [List.getD_eq_getElem _ _ hi]
      exact ⟨perm.nodup_iff.2 nodup, fun m hm => .inr (perm.subset hm)⟩
    · rwa [List.getD_eq_default _ _ (Nat.not_lt.1 hi), List.eraseIdx_of_length_le (Nat.not_lt.1 hi)]
  cases c with
  | start => exact fresh
  | wake i | answer i => exact erased i

theorem origins_spec (a : Nat → System) (choice : Nat → Choice) (n : Nat) :
    (origins a choice n).Nodup ∧ ∀ m ∈ origins a choice n, m < n := by
  induction n with
  | zero => exact ⟨List.nodup_nil, by rintro _ ⟨⟩⟩
  | succ n ih =>
    obtain ⟨nodup, mem⟩ := select_spec ih.1 ih.2 (choice n)
    have old : ∀ m, m = n ∨ m ∈ origins a choice n → m < n + 1 := fun m hm =>
      hm.elim (fun same => same ▸ Nat.lt_succ_self n) fun hm => Nat.lt_succ_of_lt (ih.2 m hm)
    rw [origins]
    split
    · exact ⟨ih.1, fun m hm => old m (.inr hm)⟩
    · split
      · exact ⟨(List.nodup_cons.1 nodup).2, fun m hm => old m (mem m (.tail _ hm))⟩
      · exact ⟨nodup, fun m hm => old m (mem m hm)⟩

theorem origin_le (n : Nat) : origin a choice n ≤ n := by
  obtain ⟨nodup, old⟩ := origins_spec a choice n
  obtain same | mem := (select_spec nodup old (choice n)).2 _ (.head _)
  · exact same.le
  · exact (old _ mem).le

theorem ne_origin (hm : m ∈ ((choice n).select n (origins a choice n)).2) :
    m ≠ origin a choice n := by
  obtain ⟨nodup, old⟩ := origins_spec a choice n
  rintro rfl
  exact (List.nodup_cons.1 (select_spec nodup old (choice n)).1).1 hm

theorem mem_select (hm : m ∈ l) {c : Choice} (other : m ≠ (c.select n l).1) :
    m ∈ (c.select n l).2 := by
  have erased : ∀ i, m ≠ l.getD i n → m ∈ l.eraseIdx i := by
    intro i other
    by_cases hi : i < l.length
    · rw [List.getD_eq_getElem _ _ hi] at other
      have here := (List.getElem_cons_eraseIdx_perm hi).symm.subset hm
      exact (List.mem_cons.1 here).resolve_left other
    · rwa [List.eraseIdx_of_length_le (Nat.not_lt.1 hi)]
  cases c with
  | start => exact hm
  | wake i | answer i => exact erased i other

theorem mem_origins_succ (hm : m ∈ origins a choice n) (other : m ≠ origin a choice n) :
    m ∈ origins a choice (n + 1) := by
  have rest := mem_select hm other
  rw [origins]
  split
  · exact hm
  · split
    · exact rest
    · exact .tail _ rest

variable (a choice)

structure Follows (back : Operation → Engine → Engine → Prop) (n m : Nat) (spent : Bool)
    (p : Task) : Prop where
  before : m < n
  started : choice m = .start p.op
  threads : ∀ t ∈ p.op.threads (a m).engine, t ∈ p.threads
  bound : p.Bound (back p.op (a m).engine) (a m).engine spent

structure Followed (back : Operation → Engine → Engine → Prop) (X : Nat → Bool → Task → Prop)
    (n : Nat) : Prop where
  sound : (a n).engine.outline.Sound
  tasks : List.Forall₂ (fun m p => ∃ spent, Follows a choice back n m spent p ∧ X m spent p)
    (origins a choice n) (a n).tasks

end System

theorem Engine.Unused.outline_sound (h : e.Unused) : e.outline.Sound := by
  have thread : ∀ t, e.outline.thread t = {} := fun t => congrArg Thread.life (h.new.thread t)
  have foreign : e.outline.foreign = [] := h.foreign
  have busy : ∀ t x, (e.outline.thread t).txn ≠ some x := by
    intro t x held
    rw [thread] at held
    cases held
  refine ⟨fun t _ => thread t, fun t _ => ?_, fun t x held => absurd held (busy t x),
    fun x active => absurd active (h.new.inactive x),
    fun x inevitable => ?_, fun c f found => ?_, fun c d f g found => ?_⟩
  · rw [thread]
    exact ⟨rfl, rfl, rfl⟩
  · rw [thread]
  · rw [foreign] at found
    cases found
  · rw [foreign] at found
    cases found

namespace System.Run
variable {N : Nat} {a : Nat → System} {choice : Nat → Choice} {others : List Task} {p : Task}
  {back : Operation → Engine → Engine → Prop} {X X' : Nat → Bool → Task → Prop}

structure Proceeding (a : Nat → System) (choice : Nat → Choice)
    (back : Operation → Engine → Engine → Prop)
    (X : Nat → Bool → Task → Prop) (n : Nat) (spent : Bool) (p : Task) : Prop where
  before : origin a choice n ≤ n
  started : choice (origin a choice n) = .start p.op
  threads : ∀ t ∈ p.op.threads (a (origin a choice n)).engine, t ∈ p.threads
  proceeds : p.Proceeds (back p.op (a (origin a choice n)).engine) (a (origin a choice n)).engine
    (a n).engine spent
  /-- It begins with this step, or it stood still before. -/
  comes : origin a choice n = n ∧ choice n = .start p.op ∧ spent = false ∨
    ∃ i q r, choice n = .resume i r ∧ (a n).tasks[i]? = some q ∧ q.Resumed (a n).engine r p ∧
      origin a choice n < n ∧ X (origin a choice n) spent q
  raises : ∀ i v, choice n = .answer i (.error v) → p.course = .raised v (a n).engine
  turning : (∀ i v, choice n ≠ .answer i (.error v)) →
    Turning (p.op.licence (back p.op (a (origin a choice n)).engine) (a (origin a choice n)).engine)
      (p.op.Meets (back p.op (a (origin a choice n)).engine) (a (origin a choice n)).engine)
        ⟨spent, p.threads, (a n).engine.outline⟩ p.course

theorem proceeding (run : System.Run N a choice) (hn : n < N)
    (followed : Followed a choice back X n) (mover : (a n).mover? (choice n) = some (others, p))
    (relied : ∀ i, choice n = .answer i (.ok ()) →
      back p.op (a (origin a choice n)).engine (a n).engine) :
    ∃ spent, Proceeding a choice back X n spent p := by
  have ok := run.ok hn.le
  have allowed := run.allowed n hn
  have movement := movement_of_mover mover
  generalize chosen : choice n = c at movement allowed
  cases movement with
  | start op =>
    have own : origin a choice n = n := by rw [origin, chosen]; rfl
    have turning := ok.turning_start (back op (a n).engine) followed.sound allowed
    refine ⟨false, own.le, by rwa [own], by rw [own]; exact fun _ => id,
      by rw [own]; exact .turns turning,
      .inl ⟨own, chosen, rfl⟩, fun i v answers => ?_, fun _ => by rwa [own]⟩
    rw [chosen] at answers
    cases answers
  | @resume i q p r here resumed =>
    obtain ⟨m, hm, spent, follows, known⟩ := forall₂_getElem? followed.tasks here
    have own : origin a choice n = m := by
      have first : origin a choice n = (origins a choice n).getD i n := by
        rw [origin, chosen]
        cases r <;> rfl
      rw [first, List.getD_eq_getElem?_getD, hm]
      rfl
    have same : p.op = q.op ∧ p.threads = q.threads := by
      cases resumed <;> exact ⟨rfl, rfl⟩
    rw [own] at relied
    refine ⟨spent, ?_⟩
    rw [← own] at follows known relied
    refine ⟨follows.before.le, by rw [same.1]; exact follows.started,
      by rw [same.1, same.2]; exact follows.threads, ?_,
      .inr ⟨i, q, r, chosen, here, resumed, follows.before, known⟩, fun j v answers => ?_,
        fun unfailed => ?_⟩
    · exact ok.proceeds followed.sound (List.mem_of_getElem? here) resumed (same.1 ▸ follows.bound)
        (by rintro rfl; exact relied i chosen)
    · rw [chosen] at answers
      cases resumed with
      | woken => cases answers
      | answered =>
        cases answers
        exact follows.bound.2.1 v (a n).engine
    · refine ok.turning followed.sound (List.mem_of_getElem? here) resumed (same.1 ▸ follows.bound)
        (by rintro rfl; exact relied i chosen) ?_
      rintro v rfl
      exact unfailed i v chosen

section
variable (mover : (a n).mover? (choice n) = some (others, p))
include mover

theorem step_of_mover : (a n).step (choice n) = System.advance (a n).engine others p := by
  unfold System.step
  rw [mover]

theorem not_going_of_exit {out : Except Raise p.op.Answer} (ends : p.course = .exit out e) :
    ((a n).step (choice n)).2 ≠ none := by
  rw [step_of_mover mover, advance, ends]
  cases out <;> exact Option.some_ne_none _

theorem exit_of_ended (ended : origin a choice n ∉ origins a choice (n + 1)) :
    ∃ out : Except Raise p.op.Answer, p.course = .exit out p.course.stop := by
  rw [origins, mover, Option.isNone_some, if_neg Bool.false_ne_true, step_of_mover mover] at ended
  obtain ⟨none, -⟩ | ⟨out, -, -, ends⟩ := advance_cases (a n).engine others p
  · rw [none, Option.isSome_none, if_neg Bool.false_ne_true] at ended
    exact absurd (.head _) ended
  · exact ⟨out, ends⟩

end

section
variable (run : System.Run N a choice)
include run

theorem followed_zero : Followed a choice back X 0 where
  sound := run.unused.outline_sound
  tasks := by
    rw [run.quiet]
    exact .nil

theorem succ_of_no_mover (hn : n < N) (mover : (a n).mover? (choice n) = none) :
    a (n + 1) = a n ∧ origins a choice (n + 1) = origins a choice n := by
  refine ⟨?_, ?_⟩
  · rw [run.step n hn, System.step, mover]
  · rw [origins, mover, Option.isNone_none, if_pos rfl]

theorem followed_idle (hn : n < N) (followed : Followed a choice back X n)
    (mover : (a n).mover? (choice n) = none)
    (keep : ∀ m spent q, q ∈ (a n).tasks → Follows a choice back n m spent q → X m spent q →
      X' m spent q) :
    Followed a choice back X' (n + 1) := by
  obtain ⟨same, origins⟩ := run.succ_of_no_mover hn mover
  refine ⟨by rw [same]; exact followed.sound, ?_⟩
  rw [same, origins]
  refine forall₂_imp_mem followed.tasks ?_
  rintro m - q hq ⟨spent, follows, known⟩
  exact ⟨spent, { follows with before := Nat.lt_succ_of_lt follows.before },
    keep m spent q hq follows known⟩

theorem engine_succ (hn : n < N) (mover : (a n).mover? (choice n) = some (others, p)) :
    (a (n + 1)).engine = p.course.stop := by
  rw [run.step n hn, step_of_mover mover, engine_advance]

end

theorem forall₂_others {R : Nat → Task → Prop} (h : List.Forall₂ R (origins a choice n) (a n).tasks)
    (mover : (a n).mover? (choice n) = some (others, p)) :
    List.Forall₂ R ((choice n).select n (origins a choice n)).2 others := by
  have movement := movement_of_mover mover
  generalize choice n = c at movement
  cases movement with
  | start => exact h
  | @resume i q p r here resumed => cases r <;> exact forall₂_eraseIdx h i

theorem followed_step (run : System.Run N a choice) (hn : n < N)
    (followed : Followed a choice back X n) (mover : (a n).mover? (choice n) = some (others, p))
    {spent : Bool} (proceeding : Proceeding a choice back X n spent p)
    (keep : ∀ m spent q, m ≠ origin a choice n → q ∈ others → Follows a choice back n m spent q →
      X m spent q → X' m spent q)
    (new : ((a n).step (choice n)).2 = none → ∀ ended, Turns
      (p.op.licence (back p.op (a (origin a choice n)).engine) (a (origin a choice n)).engine) spent
        (a n).engine.outline ended (a (n + 1)).engine.outline →
      (∀ d ∈ ended, (p.op.licence (back p.op (a (origin a choice n)).engine)
        (a (origin a choice n)).engine).settled
          (a (n + 1)).engine.outline ∧
        ∃ rest, d.due = p.course.called ++ rest ∧ (p.after (a n).engine).Owes rest) →
      (ended = none → p.course.called ≠ [] → spent = true) →
      X' (origin a choice n) (spent || ended.isSome) (p.after (a n).engine)) :
    Followed a choice back X' (n + 1) := by
  have engine := run.engine_succ hn mover
  have rest : List.Forall₂
      (fun m p => ∃ spent, Follows a choice back (n + 1) m spent p ∧ X' m spent p)
      ((choice n).select n (origins a choice n)).2 others := by
    refine forall₂_imp_mem (forall₂_others followed.tasks mover) ?_
    rintro m hm q hq ⟨spent, follows, known⟩
    exact ⟨spent, { follows with before := Nat.lt_succ_of_lt follows.before },
      keep m spent q (ne_origin hm) hq follows known⟩
  have step := step_of_mover mover
  refine ⟨?_, ?_⟩
  · obtain ⟨ended, turns⟩ := proceeding.proceeds.kept
    rw [engine]
    exact turns.sound followed.sound
  rw [origins, mover, Option.isNone_some, if_neg Bool.false_ne_true, run.step n hn, step]
  obtain ⟨none, tasks⟩ | ⟨out, tasks, some, -⟩ := advance_cases (a n).engine others p
  · rw [none, tasks, Option.isSome_none, if_neg Bool.false_ne_true]
    obtain ⟨ended, turns, bound, due, called⟩ := proceeding.proceeds.stands none
    rw [← engine] at turns due
    refine .cons ⟨_, ⟨Nat.lt_succ_of_le proceeding.before, proceeding.started, fun t ht => ?_,
      bound⟩, new (by rwa [step]) ended turns due called⟩ rest
    exact List.mem_append_left _ (proceeding.threads t ht)
  · rwa [some, tasks, Option.isSome_some, if_pos rfl]

end System.Run
end TxHeap
