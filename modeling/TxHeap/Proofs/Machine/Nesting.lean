import TxHeap.Proofs.Life.Turns
import TxHeap.Proofs.Machine.Barrier

/-! Brackets along a run. What the entry of a foreign caller says is read off the brackets that it
has opened and not yet closed, as long as it closes each with the token it was opened with, and
opens and closes none from a callback of another. A bracket does not remember its transaction but
only whether it has begun one. -/

namespace TxHeap

variable {bs : List Opening} {back : Engine → Prop} {z : CallPart} {out : Except Raise Unit}
  {token : Token} {exit : Exit} {threads : List ThreadId} {held : List Mutex} {m : Nat}
open Engine

variable {L : Licence} {spent : Bool} {o o' : Outline} {ended : Option Ending} {t : ThreadId}
  {x : TxnId} {c : Nat}

/-- The transaction `x` belongs to `t`, and cannot be rolled back as long as it runs. -/
structure Outline.Binds (o : Outline) (t : ThreadId) (x : TxnId) : Prop where
  known : x < o.txns
  thread : (o.txn x).1 = t
  inevitable : (o.txn x).2.isActive = true → (o.txn x).2 = .inevitable

theorem Outline.Binds.runs (h : o.Binds t x) (sound : o.Sound)
    (active : (o.txn x).2.isActive = true) : (o.thread t).txn = some x := by
  have held := sound.active x active
  rwa [h.thread] at held

namespace Turns

theorem binds (turns : Turns L spent o ended o') (sound : o.Sound) (h : o.Binds t x) :
    o'.Binds t x := by
  induction turns with
  | start => exact h
  | @turn ended o o' before turn ih =>
    have now := before.sound sound
    have known := ih.known.trans_le (turn.ages now).txns
    by_cases active : (o.txn x).2.isActive = true
    · have on := turn.continues now active
      exact ⟨known, on.thread.trans ih.thread, fun _ => on.inevitable (ih.inevitable active)⟩
    · have same := turn.past now ih.known (Bool.eq_false_iff.2 active)
      exact ⟨known, same ▸ ih.thread, same ▸ ih.inevitable⟩
  | @finish o y phase before first held how may ih =>
    by_cases same : x = y
    · subst same
      refine ⟨ih.known, by rw [Outline.txn_ended]; exact ih.thread, fun active => ?_⟩
      rw [Outline.txn_ended, how.past] at active
      cases active
    · have other : (o.ended y phase).txn x = o.txn x := Function.update_of_ne same ..
      exact ⟨ih.known, other ▸ ih.thread, other ▸ ih.inevitable⟩

theorem entry_of_other (turns : Turns L spent o ended o') (other : L.control ≠ some c) :
    o'.foreign.lookup c = o.foreign.lookup c := by
  induction turns with
  | start => rfl
  | turn before turn ih =>
    cases turn with
    | entry d foreign mine others => exact (others c (by rintro rfl; exact other mine)).trans ih
    | _ => exact ih
  | finish before first held how may ih => exact ih

/-- Once a transaction has ended, the entry can only be dropped. -/
theorem entry_late (turns : Turns L true o ended o') :
    o'.foreign.lookup c = o.foreign.lookup c ∨ L.drops ∧ o'.foreign.lookup c = none := by
  induction turns with
  | start => exact .inl rfl
  | turn before turn ih =>
    cases turn with
    | entry d foreign mine others own late =>
      by_cases same : c = d
      · subst same
        exact .inr (late rfl)
      · rw [show List.lookup c foreign = _ from others c same]
        exact ih
    | _ => exact ih
  | finish before first => cases first

end Turns

/-- A bracket that has been opened: what that answered, whether it began a transaction, and the one
that ran then. -/
structure Opening where
  thread : ThreadId
  token : Token
  started : Bool
  txn : Option TxnId
deriving DecidableEq

/-- The entry of a caller with these open brackets. -/
def Opening.entry (bs : List Opening) : Option Foreign :=
  bs.head?.map fun b => ⟨b.thread, bs.map (·.started)⟩

/-- Open brackets as they should be, from the innermost: all of one thread, and with a token that
tells the outermost. -/
inductive Stacked (o : Outline) : List Opening → Prop
  | nil : Stacked o []
  | push {b : Opening} {bs : List Opening} (token : b.token = .outermost ↔ bs = [])
      (thread : ∀ d ∈ bs, d.thread = b.thread) (began : bs = [] → b.started = true)
      (txn : ∃ x, b.txn = some x ∧ o.Binds b.thread x) (rest : Stacked o bs) : Stacked o (b :: bs)

theorem Stacked.turns (h : Stacked o bs) (turns : Turns L spent o ended o') (sound : o.Sound) :
    Stacked o' bs := by
  induction h with
  | nil => exact .nil
  | push token thread began txn rest ih =>
    obtain ⟨x, hx, binds⟩ := txn
    exact .push token thread began ⟨x, hx, turns.binds sound binds⟩ ih

theorem Opening.frames_of_entry {e : Engine} (h : e.foreign.lookup c = entry bs) :
    e.frames c = bs.map (·.started) := by
  rw [Engine.frames, h]
  cases bs <;> rfl

/-- What is left when the innermost bracket has been taken off. -/
theorem Opening.entry_tail {b : Opening} (h : Stacked o (b :: bs)) (inner : bs ≠ []) :
    entry bs = some ⟨b.thread, bs.map (·.started)⟩ := by
  obtain _ | ⟨-, thread, -⟩ := h
  cases bs with
  | nil => exact absurd rfl inner
  | cons d bs => rw [entry, List.head?_cons, Option.map_some, thread d (.head _)]

namespace Operation
variable {op : Operation} {back : Engine → Prop} {e : Engine}

theorem settled_of_entry (mine : op.control = some c)
    (same : o'.foreign.lookup c = o.foreign.lookup c)
    (h : (op.licence back e).settled o) : (op.licence back e).settled o' := by
  cases op with
  | enter =>
    cases mine
    exact same.trans h
  | leave =>
    cases mine
    obtain ⟨t, started, rest, found, here⟩ := h
    exact ⟨t, started, rest, found, by rwa [same]⟩
  | _ => cases mine

theorem settled_late (mine : op.control = some c)
    (turns : Turns (op.licence back e) true o ended o')
    (fits : ∀ t started rest, op = .leave c .outermost →
      e.foreign.lookup c = some ⟨t, started :: rest⟩ → rest = [])
    (h : (op.licence back e).settled o) : (op.licence back e).settled o' := by
  obtain same | ⟨drops, gone⟩ := turns.entry_late (c := c)
  · exact settled_of_entry mine same h
  · cases op with
    | enter => exact drops.elim
    | leave d token =>
      cases mine
      obtain rfl : token = .outermost := drops
      obtain ⟨t, started, rest, found, -⟩ := h
      exact ⟨t, started, rest, found, .inr ⟨fits t started rest rfl found, gone⟩⟩
    | _ => cases mine

end Operation

section Ends
variable {e e' : Engine} {token : Token} {bs : List Opening} {b : Opening}

theorem Opened.upon (h : Opened c e t token e') (entry : e.foreign.lookup c = Opening.entry bs)
    (stacked : Stacked o bs) :
    (token = .outermost ↔ bs = []) ∧ ∀ d ∈ bs, d.thread = t := by
  refine ⟨?_, fun d hd => ?_⟩
  · rw [h.token, entry]
    cases bs <;> simp [Opening.entry]
  · cases stacked with
    | nil => cases hd
    | @push b bs _ thread =>
      rw [← h.thread _ entry]
      obtain _ | ⟨_, hd⟩ := hd
      · rfl
      · exact thread d hd

theorem Opened.stacks (h : Opened c e t token e') (sound : e.outline.Sound)
    (sound' : e'.outline.Sound)
    (entry : e.foreign.lookup c = Opening.entry bs) (stacked : Stacked e'.outline bs) :
    e'.foreign.lookup c = Opening.entry
    (⟨t, token, (e.thread t).txn.isNone, (e'.thread t).txn⟩ :: bs) ∧
      Stacked e'.outline (⟨t, token, (e.thread t).txn.isNone, (e'.thread t).txn⟩ :: bs) := by
  obtain ⟨first, thread⟩ := h.upon entry stacked
  obtain ⟨x, held, inevitable, -⟩ := h.txn
  refine ⟨?_, .push first thread (fun none => ?_) ⟨x, held, ?_⟩ stacked⟩
  · rw [h.entry, Opening.frames_of_entry entry]
    rfl
  · subst none
    have idle := sound.fresh t (h.new entry)
    exact Option.isNone_iff_eq_none.2 (congrArg Life.txn idle)
  · obtain ⟨known, thread, -⟩ := sound'.held t x held
    exact ⟨known, thread, fun _ => inevitable⟩

theorem Closes.unstacks {back' : Engine → Prop} (h : Closes c token back e z e' (.ok ()))
    (entry : e.foreign.lookup c = Opening.entry (b :: bs)) (stacked : Stacked o (b :: bs))
    (settled : z.spent = true → (Licence.closing c token e back').settled e'.outline) :
    e'.foreign.lookup c = Opening.entry bs := by
  cases h with
  | outermost entry' outermost gone =>
    cases bs with
    | nil => exact gone
    | cons => cases entry.symm.trans entry'
  | nested entry' inner popped =>
    cases entry.symm.trans entry'
    rw [Opening.entry_tail stacked (mt (congrArg _) inner.2)]
    cases early : z.spent with
    | false => exact popped early
    | true =>
      obtain ⟨t, started, rest, found, here⟩ := settled early
      cases entry.symm.trans found
      exact here.resolve_right fun none => inner.2 none.1

end Ends

namespace System
variable {N n m : Nat} (a : Nat → System) (choice : Nat → Choice)

/-- The brackets of the foreign caller `c` that are open before step `n`, from the innermost. -/
def brackets (c : Nat) : Nat → List Opening
  | 0 => []
  | n + 1 =>
    match ((a n).step (choice n)).2 with
    | some ⟨.enter d, _, _, .ok (t, token)⟩ =>
      if d = c then
        ⟨t, token, ((a (origin a choice n)).engine.thread t).txn.isNone,
          ((a (n + 1)).engine.thread t).txn⟩ :: brackets c n
      else brackets c n
    | some ⟨.leave d _, _, _, _⟩ => if d = c then (brackets c n).tail else brackets c n
    | _ => brackets c n

/-- At step `n` the caller `c` opens or closes a bracket only if it is not about to open or close
another, and closes it with the token it was opened with. -/
structure Nests (c n : Nat) : Prop where
  alone : ∀ op, choice n = .start op → op.control = some c →
    ∀ q ∈ (a n).tasks, q.op.control ≠ some c
  token : ∀ token, choice n = .start (.leave c token) →
    (brackets a choice c n).head?.map (·.token) = some token

variable {a choice} in
theorem Nests.innermost (h : Nests a choice c n) (leaves : choice n = .start (.leave c token)) :
    ∃ b bs, brackets a choice c n = b :: bs ∧ b.token = token := by
  obtain ⟨b, here, same⟩ := Option.map_eq_some_iff.1 (h.token token leaves)
  obtain ⟨bs, here⟩ := List.head?_eq_some_iff.1 here
  exact ⟨b, bs, here, same⟩

/-- What `c` has opened or closed at step `n` has not failed. -/
def Returns (c n : Nat) : Prop :=
  ∀ exit v, ((a n).step (choice n)).2 = some exit → exit.op.control = some c →
    exit.outcome ≠ .error v

/-- Of a call that opens or closes a bracket: its caller's brackets are those with which it began,
until it ends. -/
structure Amid (back : Operation → Engine → Engine → Prop) (c n m : Nat) (spent : Bool)
    (q : Task) : Prop where
  since : brackets a choice c n = brackets a choice c m
  entry : (a m).engine.foreign.lookup c = Opening.entry (brackets a choice c m)
  settled : spent = true →
    (q.op.licence (back q.op (a m).engine) (a m).engine).settled (a n).engine.outline

structure Bracketed (back : Operation → Engine → Engine → Prop) (c n : Nat) : Prop where
  followed : Followed a choice back
    (fun m spent q => q.op.control = some c → Amid a choice back c n m spent q) n
  lone : (a n).tasks.Pairwise fun p q => p.op.control = some c → q.op.control ≠ some c
  entry : (∀ q ∈ (a n).tasks, q.op.control ≠ some c) →
    (a n).engine.foreign.lookup c = Opening.entry (brackets a choice c n)
  stacked : Stacked (a n).engine.outline (brackets a choice c n)

variable {a choice} {back : Operation → Engine → Engine → Prop} {others : List Task} {p : Task}

theorem brackets_of_none (going : ((a n).step (choice n)).2 = none) :
    brackets a choice c (n + 1) = brackets a choice c n := by
  rw [brackets, going]

theorem brackets_of_other (ends : ((a n).step (choice n)).2 = some exit)
    (other : exit.op.control ≠ some c) :
    brackets a choice c (n + 1) = brackets a choice c n := by
  rw [brackets, ends]
  obtain ⟨op, threads, held, out⟩ := exit
  cases op with
  | enter d =>
    have ne : d ≠ c := by rintro rfl; exact other rfl
    obtain _ | ⟨t, token⟩ := out
    · rfl
    · exact if_neg ne
  | leave d => exact if_neg (by rintro rfl; exact other rfl)
  | _ => rfl

theorem brackets_of_enter {r : ThreadId × Token}
    (ends : ((a n).step (choice n)).2 = some ⟨.enter c, threads, held, .ok r⟩) :
    brackets a choice c (n + 1) = ⟨r.1, r.2, ((a (origin a choice n)).engine.thread r.1).txn.isNone,
      ((a (n + 1)).engine.thread r.1).txn⟩ :: brackets a choice c n := by
  rw [brackets, ends]
  exact if_pos rfl

theorem brackets_of_leave
    (ends : ((a n).step (choice n)).2 = some ⟨.leave c token, threads, held, out⟩) :
    brackets a choice c (n + 1) = (brackets a choice c n).tail := by
  rw [brackets, ends]
  exact if_pos rfl

theorem lone_of_mover (mover : (a n).mover? (choice n) = some (others, p))
    (lone : (a n).tasks.Pairwise fun p q => p.op.control = some c → q.op.control ≠ some c)
    (nests : Nests a choice c n) :
    (p :: others).Pairwise fun p q => p.op.control = some c → q.op.control ≠ some c := by
  have movement := movement_of_mover mover
  generalize chosen : choice n = choices at movement
  cases movement with
  | start op => exact .cons (fun q hq mine => nests.alone op chosen mine q hq) lone
  | @resume i q p r here resumed =>
    obtain ⟨hi, here⟩ := List.getElem?_eq_some_iff.1 here
    have perm := List.getElem_cons_eraseIdx_perm hi
    rw [here] at perm
    have same : p.op = q.op := by cases resumed <;> rfl
    obtain _ | ⟨first, rest⟩ := (perm.pairwise_iff fun h mine mine' => h mine' mine).2 lone
    exact .cons (same ▸ first) rest

section Step
variable (run : System.Run N a choice) (hn : n < N) (h : Bracketed a choice back c n)
  (nests : ∀ m ≤ n, Nests a choice c m)
  (mover : (a n).mover? (choice n) = some (others, p)) {spent : Bool}
  (proceeding : Run.Proceeding a choice back
    (fun m spent q => q.op.control = some c → Amid a choice back c n m spent q) n spent p)

include mover in
theorem brackets_of_mover (other : p.op.control ≠ some c) :
    brackets a choice c (n + 1) = brackets a choice c n := by
  have step := Run.step_of_mover mover
  obtain ⟨none, -⟩ | ⟨out, -, some, -⟩ := advance_cases (a n).engine others p
  · exact brackets_of_none (by rw [step, none])
  · exact brackets_of_other (by rw [step, some]) other

include run hn mover proceeding in
theorem entry_of_mover (other : p.op.control ≠ some c) :
    (a (n + 1)).engine.foreign.lookup c = (a n).engine.foreign.lookup c := by
  obtain ⟨ended, turns⟩ := proceeding.proceeds.kept
  rw [← run.engine_succ hn mover] at turns
  exact turns.entry_of_other (by rwa [Operation.licence_control])

namespace Bracketed
include h nests proceeding

theorem amid (mine : p.op.control = some c) :
    Amid a choice back c n (origin a choice n) spent p := by
  obtain ⟨own, begins, rfl⟩ | ⟨i, q, r, -, here, resumed, -, known⟩ := proceeding.comes
  · rw [own]
    exact ⟨rfl, h.entry ((nests n le_rfl).alone _ begins mine), by rintro ⟨⟩⟩
  · have same : p.op = q.op := by cases resumed <;> rfl
    have amid := known (same ▸ mine)
    exact ⟨amid.since, amid.entry, by rw [same]; exact amid.settled⟩

theorem innermost (leaves : p.op = .leave c token) :
    ∃ b bs, brackets a choice c n = b :: bs ∧ b.token = token ∧
    (a (origin a choice n)).engine.foreign.lookup c = Opening.entry (b :: bs) := by
  have amid := h.amid nests proceeding (by rw [leaves]; rfl)
  obtain ⟨b, bs, here, same⟩ := (nests _ proceeding.before).innermost (leaves ▸ proceeding.started)
  exact ⟨b, bs, amid.since.trans here, same, by rw [amid.entry, here]⟩

theorem fits {t : ThreadId} {started : Bool} {rest : List Bool}
    (leaves : p.op = .leave c .outermost)
    (found : (a (origin a choice n)).engine.foreign.lookup c = some ⟨t, started :: rest⟩) :
    rest = [] := by
  obtain ⟨b, bs, here, outermost, entry⟩ := h.innermost nests proceeding leaves
  have stacked := h.stacked
  rw [here] at stacked
  obtain _ | ⟨token, -⟩ := stacked
  obtain rfl := token.1 outermost
  cases entry.symm.trans found
  rfl

include run hn mover

theorem followed_succ : Followed a choice back
    (fun m spent q => q.op.control = some c → Amid a choice back c (n + 1) m spent q) (n + 1) := by
  obtain _ | ⟨lone, -⟩ := lone_of_mover mover h.lone (nests n le_rfl)
  refine run.followed_step hn h.followed mover proceeding (fun m spent q _ hq _ known mine => ?_)
    fun going ended turns due _ mine => ?_
  · have other : p.op.control ≠ some c := fun own => lone q hq own mine
    have amid := known mine
    exact ⟨(brackets_of_mover mover other).trans amid.since, amid.entry, fun late =>
      Operation.settled_of_entry (o := (a n).engine.outline) mine
        (entry_of_mover run hn mover proceeding other) (amid.settled late)⟩
  · have amid := h.amid nests proceeding mine
    refine ⟨(brackets_of_none going).trans amid.since, amid.entry, fun late => ?_⟩
    cases ended with
    | some d => exact (due d rfl).1
    | none =>
      obtain rfl : spent = true := by rwa [Option.isSome_none, Bool.or_false] at late
      exact Operation.settled_late mine turns
        (fun _ _ _ leaves found => h.fits nests proceeding leaves found) (amid.settled rfl)

theorem left (returns : Returns a choice c n) (mine : p.op.control = some c)
    (stops : ((a n).step (choice n)).2 ≠ none) :
    (a (n + 1)).engine.foreign.lookup c = Opening.entry (brackets a choice c (n + 1)) ∧
      Stacked (a (n + 1)).engine.outline (brackets a choice c (n + 1)) := by
  have step := Run.step_of_mover mover
  have amid := h.amid nests proceeding mine
  have sound' := (h.followed_succ run hn nests mover proceeding).sound
  have sound := (run.followed (proceeding.before.trans hn.le)).sound
  obtain ⟨none, -⟩ | ⟨out, -, ends, course⟩ := advance_cases (a n).engine others p
  · exact absurd (by rw [step, none]) stops
  rw [← step] at ends
  obtain ⟨⟨ended, turns, -⟩, meets⟩ := proceeding.proceeds.leaves course
  rw [← run.engine_succ hn mover] at turns meets
  have stacked := h.stacked.turns turns h.followed.sound
  have settled : spent = true →
      (p.op.licence (back p.op (a (origin a choice n)).engine)
      (a (origin a choice n)).engine).settled
      (a (n + 1)).engine.outline := by
    rintro rfl
    exact Operation.settled_late mine turns
      (fun _ _ _ leaves found => h.fits nests proceeding leaves found) (amid.settled rfl)
  have innermost := fun token (leaves : p.op = .leave c token) =>
    h.innermost nests proceeding leaves
  obtain ⟨op, threads, held, course⟩ := p
  obtain meets | ⟨v, rfl, -⟩ := meets
  · cases out with
    | error v => exact absurd rfl (returns _ v ends mine)
    | ok r =>
      cases op with
      | enter d =>
        cases mine
        rw [brackets_of_enter ends]
        exact meets.yields.2.stacks sound sound'
          (amid.entry.trans (congrArg _ amid.since.symm)) stacked
      | leave d token =>
        cases mine
        obtain ⟨b, bs, here, -, entry⟩ := innermost token rfl
        rw [brackets_of_leave ends]
        rw [here] at stacked ⊢
        refine ⟨meets.yields.unstacks entry stacked settled, ?_⟩
        cases stacked with
        | push _ _ _ _ rest => exact rest
      | _ => cases mine
  · exact absurd rfl (returns _ v ends mine)

theorem succ (returns : Returns a choice c n) : Bracketed a choice back c (n + 1) := by
  have step := Run.step_of_mover mover
  have after := run.succ_of_mover hn mover
  have followed := h.followed_succ run hn nests mover proceeding
  obtain ⟨ended, turns⟩ := proceeding.proceeds.kept
  rw [← run.engine_succ hn mover] at turns
  have stacked := h.stacked.turns turns h.followed.sound
  obtain _ | ⟨alone, lone⟩ := lone_of_mover mover h.lone (nests n le_rfl)
  have others_entry : p.op.control ≠ some c → (∀ q ∈ others, q.op.control ≠ some c) →
      (a (n + 1)).engine.foreign.lookup c = Opening.entry (brackets a choice c (n + 1)) := by
    intro other idle
    rw [brackets_of_mover mover other, entry_of_mover run hn mover proceeding other]
    exact h.entry fun q hq => ((movement_of_mover mover).back hq).elim (idle q) fun same =>
      same ▸ other
  obtain ⟨none, tasks⟩ | ⟨out, tasks, ends, -⟩ := advance_cases (a n).engine others p
  · rw [← after] at tasks
    rw [← step] at none
    refine ⟨followed, by rw [tasks]; exact .cons alone lone, fun idle => ?_,
      by rwa [brackets_of_none none]⟩
    rw [tasks] at idle
    exact others_entry (idle (p.after (a n).engine) (.head _)) fun q hq => idle q (.tail _ hq)
  · rw [← after] at tasks
    rw [← step] at ends
    by_cases mine : p.op.control = some c
    · obtain ⟨entry, stacked⟩ := h.left run hn nests mover proceeding returns mine
        (by rw [ends]; exact Option.some_ne_none _)
      exact ⟨followed, by rwa [tasks], fun _ => entry, stacked⟩
    · exact ⟨followed, by rwa [tasks], by rw [tasks]; exact others_entry mine,
        by rwa [brackets_of_mover mover mine]⟩

end Bracketed
end Step

section Beside
variable (back) (run : System.Run N a choice) (nests : ∀ m ≤ n, Nests a choice c m)
  (returns : ∀ m < n, Returns a choice c m)
  (relied : ∀ m ≤ n, ∀ i others p, (a m).mover? (choice m) = some (others, p) →
    choice m = .answer i (.ok ()) →
    back p.op (a (origin a choice m)).engine (a m).engine)
include run nests returns relied

theorem Run.bracketed (hm : m ≤ n) (hn : n ≤ N) : Bracketed a choice back c m := by
  induction m with
  | zero =>
    refine ⟨run.followed_zero, ?_, fun _ => ?_, .nil⟩
    · rw [run.quiet]
      exact .nil
    · rw [run.unused.foreign]
      rfl
  | succ m ih =>
    have h := ih (Nat.le_of_succ_le hm)
    have hm' := Nat.le_of_succ_le hm
    have hN := Nat.lt_of_lt_of_le hm hn
    cases mover : (a m).mover? (choice m) with
    | some moved =>
      obtain ⟨others, p⟩ := moved
      obtain ⟨spent, proceeding⟩ :=
        run.proceeding hN h.followed mover fun i => relied m hm' i others p mover
      exact h.succ run hN (fun k hk => nests k (hk.trans hm')) mover proceeding (returns m hm)
    | none =>
      have still : brackets a choice c (m + 1) = brackets a choice c m :=
        brackets_of_none (by rw [System.step, mover])
      have same := (run.succ_of_no_mover hN mover).1
      refine ⟨run.followed_idle hN h.followed mover fun k spent q _ _ known mine => ?_,
        by rw [same]; exact h.lone,
        by rw [same, still]; exact h.entry, by rw [same, still]; exact h.stacked⟩
      have amid := known mine
      exact ⟨still.trans amid.since, amid.entry, by rw [same]; exact amid.settled⟩

/-- A bracket is opened or closed beside those that were open when that began. -/
theorem Run.beside (hn : n < N) (ends : ((a n).step (choice n)).2 = some exit)
    (mine : exit.op.control = some c)
    (unfailed : ∀ i v, choice n = .answer i (.error v) → exit.outcome ≠ .error v) :
    Stacked (a (origin a choice n)).engine.outline (brackets a choice c n) ∧
      (a (origin a choice n)).engine.foreign.lookup c = Opening.entry (brackets a choice c n) ∧
      choice (origin a choice n) = .start exit.op ∧
      brackets a choice c n = brackets a choice c (origin a choice n) ∧
      ∃ z, exit.op.Meets (back exit.op (a (origin a choice n)).engine)
      (a (origin a choice n)).engine z exit.outcome (a (n + 1)).engine := by
  have h := run.bracketed _ nests returns relied le_rfl hn.le
  obtain ⟨_, p, _, z, -, -, same, -, proceeding, meets⟩ :=
    run.meets hn h.followed (relied n le_rfl) ends unfailed
  have amid := h.amid nests proceeding (same ▸ mine)
  have before := (run.bracketed _ nests returns relied proceeding.before hn.le).stacked
  rw [amid.since]
  exact ⟨before, amid.entry, same ▸ proceeding.started, rfl, z, meets⟩

end Beside

/-- At step `n` the caller `c` goes about to close a bracket only with the transaction that ran when
it was opened, and comes back to that from a callback only without any. -/
structure Clears (a : Nat → System) (choice : Nat → Choice) (c n : Nat) : Prop where
  leave : ∀ token b bs x, choice n = .start (.leave c token) → brackets a choice c n = b :: bs →
    ((a n).engine.thread b.thread).txn = some x → b.txn = some x
  callback : ∀ i others p t, (a n).mover? (choice n) = some (others, p) →
    choice n = .answer i (.ok ()) → p.op.control = some c →
    t ∈ p.threads → ((a n).engine.thread t).txn = none

/-- No transaction runs in the thread of `c` when a callback comes back to what it opens or closes.
-/
def Idles (c : Nat) (op : Operation) (e0 e : Engine) : Prop :=
  op.control = some c → ∀ f, e0.foreign.lookup c = some f → (e.thread f.thread).txn = none

theorem Run.idles (run : System.Run N a choice) (hn : n < N)
    (clears : Clears a choice c n) {i : Nat}
    (mover : (a n).mover? (choice n) = some (others, p)) (answers : choice n = .answer i (.ok ())) :
    Idles c p.op (a (origin a choice n)).engine (a n).engine := by
  intro mine f found
  obtain ⟨_, proceeding⟩ := run.proceeding hn (run.followed hn.le) mover fun _ _ => trivial
  refine clears.callback i others p f.thread mover answers mine (proceeding.threads _ ?_)
  rw [Operation.threads, mine]
  dsimp only
  rw [found]
  exact List.mem_singleton_self _

end System

open TxHeap.System

variable {N n : Nat} {a : Nat → System} {choice : Nat → Choice} {threads : List ThreadId}
  {held : List Mutex}

end TxHeap
