import TxHeap.Proofs.Machine.System

/-! What a step of a system keeps, whichever call goes on: the state stays in order, and mutexes
that no call has stay locked. A run in which only requests are begun is a run of the machine of
requests, call for call and answer for answer. -/

namespace TxHeap
open Engine

variable {q : Task} {σ1 : Stance} {e e1 : Engine} {w : Wait} {m : Mutex}

namespace System
variable {s : System} {others : List Task} {p : Task} {σ : Stance}

namespace Moves
variable {σ' : Stance} {e' : Engine} (moves : s.Moves others p σ)
include moves

theorem other {t : ThreadId} (known : t < s.engine.threads.size) (other : t ∉ p.threads) :
    ¬ σ.mine t := by
  rw [Stance.mine, moves.threads, moves.known]
  exact not_or.2 ⟨other, Nat.not_le_of_lt known⟩

theorem kept (passes : Passes σ s.engine σ' e') (holds : σ'.Holds e') (m : Mutex) :
    m ∈ Engine.kept p.held s.engine e' ↔ m ∈ σ'.held := by
  have others := passes.others m
  simp only [Engine.kept, List.mem_filter, decide_eq_true_eq, moves.held m]
  constructor
  · rintro ⟨locked, mine⟩
    refine not_not.1 fun none => ?_
    obtain ⟨locked', other⟩ := others.1 ⟨locked, none⟩
    exact mine.elim other fun free => free locked'
  · intro mine
    refine ⟨holds.sub m mine, not_not.1 fun none => ?_⟩
    obtain ⟨other, locked⟩ := not_or.1 none
    exact (others.2 ⟨Classical.not_not.1 locked, other⟩).2 mine

theorem rest (ok : s.Ok) (passes : Passes σ s.engine σ' e') (goes : Goes p.threads s.engine e')
    (hq : q ∈ others) :
    q.Ok e' := by
  obtain ⟨n, -, strides⟩ := goes
  have okay := ok.tasks q (moves.sub q hq)
  have free := moves.free q hq
  have known : ∀ t ∈ q.threads, t < e'.threads.size := fun t ht =>
    (okay.known t ht).trans_le strides.ages.threads_size
  have before := okay.known
  have asks : ∀ who, q.pausing = some who → s.engine.pauser = some who ∧ ∀ t, who = .thread t →
      t ∈ q.threads := fun _ => okay.pausing
  obtain ⟨op, threads, held, course⟩ := q
  cases course with
  | done | raised => exact okay.elim
  | calling f e1 resume =>
    have calling : Task.Calling ⟨op, threads, held, .calling f e1 resume⟩ e1 resume s.engine := okay
    exact ⟨calling.walks, calling.treads, calling.ages.trans strides.ages, known, calling.held⟩
  | waiting w e1 resume =>
    have waiting : Task.Waiting ⟨op, threads, held, .waiting w e1 resume⟩ w e1 resume s.engine :=
      okay
    obtain ⟨apart, control, holds, idle⟩ := free rfl
    have elsewhere := fun t (ht : t ∈ threads) => strides.elsewhere (apart t ht) (before t ht)
    obtain ⟨τ, control', threads', held', nodup, pausing, seeking, abides, walks⟩ := waiting.walks
    replace threads' : τ.threads = threads := threads'
    have abides' : Abides τ s.engine e' := by
      refine ⟨fun taken m hm => ?_, strides.ages, fun t ht => (elsewhere t (threads' ▸ ht)).1,
        fun t x ht => (elsewhere t (threads' ▸ ht)).2 x, fun c hc => ?_, fun who hwho => ?_⟩
      · exact ((passes.others m).2 ⟨hm, by rw [moves.bare taken]; exact (by simp)⟩).1
      · exact passes.tidy.others c (by rw [moves.control]; exact control c (control'.symm.trans hc))
      · have asks' : Task.pausing ⟨op, threads, held, .waiting w e1 resume⟩ = some who :=
          pausing.symm.trans hwho
        refine (passes.stays who (idle.resolve_left ?_) (asks _ asks').1).2.2
        rw [asks']
        exact nofun
    refine ⟨⟨τ, control', threads', held', nodup, pausing, seeking, abides.trans abides', walks⟩,
      waiting.treads, waiting.real,
      fun z hz => ?_, known, fun m hm => ?_, waiting.engine, waiting.bare, waiting.apart,
        waiting.asks⟩
    · refine (waiting.sits z hz).passes passes ok.seats
        (fun t ht => moves.other (before t ht) (apart t ht))
        (fun t ht => (elsewhere t ht).1) (fun t x ht => (elsewhere t ht).2 x) fun asks =>
          idle.resolve_left asks
    · exact ((passes.others m).2 ⟨waiting.held m hm, holds m hm⟩).1

theorem seated (ok : s.Ok) : s.engine.seated.length ≤ (others.filterMap Task.seeker?).length := by
  have nodup : (s.engine.seated.map Prod.fst).Nodup :=
    (List.filter_sublist.map _).nodup ok.wakeful.nodup
  have sub : s.engine.seated.map Prod.fst ⊆ others.filterMap Task.seeker? := by
    intro i hi
    obtain ⟨⟨i, c⟩, hp, rfl⟩ := List.mem_map.1 hi
    obtain ⟨asleep, cond⟩ := List.mem_filter.1 hp
    obtain ⟨q, hq, z, hz, rfl⟩ := moves.asleep i c asleep
    refine List.mem_filterMap.2 ⟨q, hq, ?_⟩
    obtain ⟨w, hw, sits⟩ := (ok.tasks q (moves.sub q hq)).sits hz
    have cond' := (sits.asleep c asleep).symm.trans (by simpa using cond)
    have seeking : w.seeking = true := by
      cases w with
      | mutex | backoff | pause | pauseInGoal => cases cond'
      | goal g =>
        cases g with
        | othersStopped | noInevitable => cases cond'
        | freeSegment => rfl
    rw [Task.seeker?, hw, Option.bind_some, if_pos seeking, sits.sleeper]
    rfl
  have length := (List.subperm_of_subset nodup sub).length_le
  rwa [List.length_map] at length

theorem settles (ok : s.Ok) (passes : Passes σ s.engine σ' e') (goes : Goes p.threads s.engine e')
    (locked : e'.locked.Nodup) (seats : e'.Seats) (wakeful : e'.Wakeful) {tasks : List Task}
    (sub : ∀ q ∈ others, q ∈ tasks) (new : ∀ q ∈ tasks, q ∈ others ∨ q.Ok e')
    (apart : tasks.Pairwise fun p q => p.Waits → q.Waits → p.Apart q)
    (up : ∀ t k, σ'.mine t → (e'.thread t).segment = some k → (e'.segment k).standing ≠ .running →
      ∃ q ∈ tasks, ∃ z, q.sleeper? = some z ∧ z.segment = some k)
    (asleep : ∀ i c, (i, c) ∈ e'.asleep → i < s.engine.tickets ∨
      ∃ q ∈ tasks, ∃ z, q.sleeper? = some z ∧ z.ticket = i)
    (room : (others.filterMap Task.seeker?).length + σ'.seeking.toNat ≤
      (tasks.filterMap Task.seeker?).length)
    (paused : ∀ who, e'.pauser = some who → (∃ q ∈ tasks, q.pausing = some who) ∨
      ∃ t, who = .thread t) :
    System.Ok ⟨e', tasks⟩ := by
  obtain ⟨n, hn, strides⟩ := goes
  refine ⟨strides.inv, seats, wakeful, locked, fun q hq => ?_, apart, fun k t owner stopped => ?_,
    fun i c hi => ?_, fun some => ?_, paused⟩
  · exact (new q hq).elim (moves.rest ok passes ⟨n, hn, strides⟩) id
  · have seat := seats.owner k t owner
    by_cases mine : σ'.mine t
    · exact up t k mine seat stopped
    · rw [passes.mine, Stance.mine, moves.threads, moves.known, not_or, Nat.not_le] at mine
      -- The segment was that thread's before, and stood as it stands.
      have before : (s.engine.thread t).segment = some k := by
        rwa [← (strides.elsewhere mine.1 mine.2).1]
      have kept := passes.elsewhere k t (ok.seats.holds t k before) (moves.other mine.2 mine.1)
      obtain ⟨q, hq, z, hz⟩ := moves.stops k t (ok.seats.holds t k before) (kept.2 ▸ stopped) mine.1
      exact ⟨q, sub q hq, z, hz⟩
  · obtain old | new := asleep i c hi
    · obtain ⟨q, hq, z, hz⟩ := moves.asleep i c (passes.asleep i c hi old)
      exact ⟨q, sub q hq, z, hz⟩
    · exact new
  · exact (passes.room _ (moves.seated ok) moves.room some).trans room

theorem joins (passes : Passes σ s.engine σ' e') :
    (σ'.follow e').threads = joined p.threads s.engine e' := by
  rw [Stance.follow, joined, passes.threads, passes.known, moves.threads, moves.known]

theorem pauser (ok : s.Ok) (acts : Acts σ s.engine σ' e') {who : Caller}
    (h : e'.pauser = some who) :
    σ'.pausing = some who ∨ (∃ q ∈ others, q.pausing = some who) ∨ ∃ t, who = .thread t := by
  obtain asked | ⟨before, unasked⟩ := acts.asked h
  · exact .inl asked
  · obtain ⟨q, hq, asks⟩ | thread := ok.paused who before
    · obtain hq | ⟨-, same⟩ := moves.back q hq
      · exact .inr (.inl ⟨q, hq, asks⟩)
      · exact absurd (same.symm.trans asks) unasked
    · exact .inr (.inr thread)

section
variable (ok : s.Ok) (goes : Goes p.threads s.engine e') (acts : Acts σ s.engine σ' e')
  (up : σ'.Up e') (calm : σ'.seeking = false)
include ok goes acts up calm

theorem ends (own : ∀ who, σ'.pausing = some who → ∃ t, who = .thread t) :
    System.Ok ⟨e', others⟩ := by
  have passes := acts.passes moves.holds ok.seats
  refine moves.settles ok passes goes (acts.holds moves.holds).locked (acts.seats ok.seats)
    (acts.wakeful ok.wakeful)
    (fun _ => id) (fun q hq => .inl hq) moves.pairwise (fun t k mine seat stopped => ?_)
      (fun i c hi => .inl ?_) ?_
    fun who hwho => ?_
  · exact absurd (up t k mine seat) stopped
  · exact ok.wakeful.ticket _ (acts.asleep.2.subset hi)
  · rw [calm]
    exact le_rfl
  · exact (moves.pauser ok acts hwho).elim (fun asked => .inr (own who asked)) id

theorem calls (idle : σ'.pausing = none) (calls : q.wait? = none) (okay : q.Ok e') :
    System.Ok ⟨e', q :: others⟩ := by
  have passes := acts.passes moves.holds ok.seats
  have unbusy : ¬ q.Waits := by rw [Task.Waits, calls]; exact Bool.false_ne_true
  refine moves.settles ok passes goes (acts.holds moves.holds).locked (acts.seats ok.seats)
    (acts.wakeful ok.wakeful)
    (fun q hq => .tail _ hq) (fun q hq => ?_)
    (List.pairwise_cons.2 ⟨fun _ _ waits => absurd waits unbusy, moves.pairwise⟩)
      (fun t k mine seat stopped => ?_)
    (fun i c hi => .inl ?_) ?_ fun who hwho => ?_
  · obtain rfl | hq := List.mem_cons.1 hq
    · exact .inr okay
    · exact .inl hq
  · exact absurd (up t k mine seat) stopped
  · exact ok.wakeful.ticket _ (acts.asleep.2.subset hi)
  · rw [calm, Task.seekers_cons]
    exact Nat.le_add_right _ _
  · obtain asked | ⟨q, hq, asks⟩ | thread := moves.pauser ok acts hwho
    · rw [idle] at asked
      cases asked
    · exact .inl ⟨q, .tail _ hq, asks⟩
    · exact .inr thread

end

theorem knows (goes : Goes p.threads s.engine e') :
    ∀ t ∈ joined p.threads s.engine e', t < e'.threads.size := by
  intro t ht
  have later := goes.ages.threads_size
  rw [joined, List.mem_append, List.mem_range'_1, Nat.add_sub_cancel' later] at ht
  exact ht.elim (fun mine => (moves.all t mine).trans_le later) And.right

theorem passes (ok : s.Ok) (acts : Acts σ s.engine σ1 e1) (rests : Rests σ1 e1 w σ' e') :
    Passes σ s.engine σ' e' := by
  refine (acts.passes moves.holds ok.seats).trans
    (rests.passes (acts.holds moves.holds) (acts.seats ok.seats)) ?_
  obtain ⟨took, gave, frees⟩ := acts.frees ok.seats
  rw [frees.seated]
  exact (List.drop_sublist ..).length_le

theorem waits (ok : s.Ok) {resume : Engine → Course Engine p.op.Answer}
    (goes : Goes p.threads s.engine e') (acts : Acts σ s.engine σ1 e1) (rests : Rests σ1 e1 w σ' e')
    (up : ∀ t k, σ'.mine t → (e'.thread t).segment = some k → w.segment? ≠ some k →
      (e'.segment k).standing = .running)
    (walks : ∀ a b, (σ'.follow e').Meets e' w a b →
      Walks p.op.Ends ((σ'.follow e').woken w a) b (resume b))
    (treads : ∀ a b, a.Inv → a.Roomy →
      Abides (.start p.op.control (joined p.threads s.engine e') e') e' a → w.Grants a b →
      Treads p.op.control Going (joined p.threads s.engine e') a (resume b)) :
    System.Ok ⟨e', ⟨p.op, joined p.threads s.engine e', Engine.kept p.held s.engine e',
      .waiting w e' resume⟩ :: others⟩ := by
  have holds1 := acts.holds moves.holds
  have seats1 := acts.seats ok.seats
  have wakeful1 := acts.wakeful ok.wakeful
  have passes := moves.passes ok acts rests
  have holds := rests.holds holds1
  have kept := moves.kept passes holds
  have joins := moves.joins passes
  have okay : Task.Ok ⟨p.op, joined p.threads s.engine e', Engine.kept p.held s.engine e',
      .waiting w e' resume⟩ e' := by
    refine ⟨⟨σ'.follow e', passes.control.trans moves.control, joins, kept, holds.held,
      rests.pausing.2, rests.seeking.1, .refl _ _,
      walks⟩, treads, ?_, fun z hz => ?_, moves.knows goes, fun m hm => holds.sub m ((kept m).1 hm),
        ?_, ?_, fun goal bracket => ?_, ?_⟩
    · cases rests <;> rintro ⟨⟩
    · rw [← joins]
      exact rests.sits hz seats1 wakeful1 (acts.pauses moves.pauses)
    · exact fun engine => rests.unheld holds1.held ((kept _).1 engine)
    · rintro m rfl
      obtain ⟨m', hm', -, rfl, -, ⟨rfl, -⟩ | none⟩ | ⟨z, hz, -⟩ := rests.cases
      · exact .inl (Wait.mutex.inj hm')
      · refine .inr (List.eq_nil_iff_forall_not_mem.2 fun m hm => ?_)
        have mine := (kept m).1 hm
        rw [none] at mine
        cases mine
      · cases hz
    · exact rests.apart goal ((kept _).1 bracket)
    · exact rests.asks (acts.pauses moves.pauses)
  have apart : ∀ q ∈ others, q.Waits →
      Task.Apart ⟨p.op, joined p.threads s.engine e', Engine.kept p.held s.engine e',
        .waiting w e' resume⟩ q := by
    intro q hq waits
    obtain ⟨threads, control, held, idle⟩ := moves.free q hq waits
    have old := ok.tasks q (moves.sub q hq)
    refine ⟨fun t ht ht' => ?_, fun c hc hc' => control c hc' hc, fun m hm hm' => ?_, ?_,
      fun z y hz hy same => ?_⟩
    · rw [joined, List.mem_append, List.mem_range'_1] at ht
      exact ht.elim (threads t ht') fun new => Nat.not_le_of_lt (old.known t ht') new.1
    · exact ((passes.others m).2 ⟨(old.held m hm').1, held m hm'⟩).2 ((kept m).1 hm)
    · cases asks : q.pausing with
      | none => exact .inr rfl
      | some who =>
        have idle := idle.resolve_left (by rw [asks]; exact Option.some_ne_none _)
        exact .inl (rests.pausing.2.symm.trans (passes.stays who idle (old.pausing asks).1).1)
    · obtain ⟨w', -, sits⟩ := old.sits hy
      have ticket := (rests.sleeps hz).ticket.trans acts.asleep.1
      exact Nat.lt_irrefl _ (ticket ▸ same ▸ sits.ticket)
  refine moves.settles ok passes goes holds.locked (rests.seats seats1) (rests.wakeful wakeful1)
    (fun q hq => .tail _ hq) (fun q hq => ?_)
      (List.pairwise_cons.2 ⟨fun q hq _ => apart q hq, moves.pairwise⟩)
    (fun t k mine seat stopped => ?_) (fun i c hi => ?_) ?_ fun who hwho => ?_
  · obtain rfl | hq := List.mem_cons.1 hq
    · exact .inr okay
    · exact .inl hq
  · refine ⟨_, .head _, ?_⟩
    have here := not_not.1 fun other => stopped (up t k mine seat other)
    exact Option.bind_eq_some_iff.1 here
  · obtain ⟨m, -, -, -, rfl, -⟩ | ⟨z, hz, sleeps, rested⟩ := rests.cases
    · exact .inl (ok.wakeful.ticket _ (acts.asleep.2.subset hi))
    · rw [rested] at hi
      obtain ⟨old, -⟩ | ⟨new, -⟩ := mem_rest hi
      · exact .inl (ok.wakeful.ticket _ (acts.asleep.2.subset old))
      · exact .inr ⟨_, .head _, z, hz, sleeps.ticket.trans new.symm⟩
  · rw [Task.seekers_cons, rests.seeking.1]
    exact Nat.add_le_add_left (Task.seeker_of_wait rfl).symm.le _
  · rw [rests.keeps.2.1] at hwho
    obtain asked | ⟨q, hq, asks⟩ | thread := moves.pauser ok acts hwho
    · exact .inl ⟨_, .head _, (rests.pausing.2.symm.trans rests.pausing.1).trans asked⟩
    · exact .inl ⟨q, .tail _ hq, asks⟩
    · exact .inr thread

end Moves
end System

def System.Leaked (s : System) (m : Mutex) : Prop := m ∈ s.engine.locked ∧ ∀ p ∈ s.tasks, m ∉ p.held

structure Exit.Ok (exit : Exit) (s : System) : Prop where
  ends : ∃ τ : Stance, exit.op.Ends τ exit.outcome s.engine ∧ (∀ m, m ∈ exit.held ↔ m ∈ τ.held) ∧
    (∀ t, τ.Tracks s.engine t → t ∈ exit.threads) ∧
      (τ.pausing ≠ none → ∀ q ∈ s.tasks, q.pausing = none)
  leaked : ∀ m ∈ exit.held, s.Leaked m

namespace System
variable {s : System} {others : List Task} {p : Task} {σ σ' : Stance} {e' : Engine}

structure Steps (s : System) (r : System × Option Exit) : Prop where
  ok : r.1.Ok
  goes : ∃ threads, Goes threads s.engine r.1.engine
  exit : ∀ exit, r.2 = some exit → exit.Ok r.1
  /-- A mutex that no call has, none had before, or the call that has ended has left it locked. -/
  leaked : ∀ m, r.1.Leaked m ↔ s.Leaked m ∨ ∃ exit, r.2 = some exit ∧ m ∈ exit.held

theorem Steps.ages {r : System × Option Exit} (h : s.Steps r) : Ages s.engine r.1.engine :=
  have ⟨_, goes⟩ := h.goes
  goes.ages

section
variable (moves : s.Moves others p σ)
include moves

theorem Moves.foreign (ok : s.Ok) (hq : q ∈ others) (hm : m ∈ q.held) :
    m ∈ s.engine.locked ∧ m ∉ σ.held := by
  have okay := ok.tasks q (moves.sub q hq)
  refine ⟨(okay.held m hm).1, ?_⟩
  by_cases waits : q.Waits
  · exact (moves.free q hq waits).2.2.1 m hm
  · rw [okay.idle waits] at hm
    cases hm

theorem Moves.leaked (passes : Passes σ s.engine σ' e') :
    s.Leaked m ↔ m ∈ e'.locked ∧ m ∉ σ'.held ∧ ∀ q ∈ others, m ∉ q.held := by
  constructor
  · intro h
    have mine : m ∉ σ.held := fun mine => by
      obtain ⟨q, hq, hm⟩ := moves.owns m ((moves.held m).2 mine)
      exact h.2 q hq hm
    have now := (passes.others m).2 ⟨h.1, mine⟩
    exact ⟨now.1, now.2, fun q hq => h.2 q (moves.sub q hq)⟩
  · rintro ⟨locked, mine, rest⟩
    have before := (passes.others m).1 ⟨locked, mine⟩
    refine ⟨before.1, fun q hq => ?_⟩
    obtain hq | ⟨same, -⟩ := moves.back q hq
    · exact rest q hq
    · rw [same, moves.held]
      exact before.2

theorem Moves.unasked (ok : s.Ok) (acts : Acts σ s.engine σ' e') (asks : σ'.pausing ≠ none)
    (hq : q ∈ others) : q.pausing = none := by
  refine Option.eq_none_iff_forall_ne_some.2 fun who asks' => ?_
  have okay := ok.tasks q (moves.sub q hq)
  have idle := (moves.free q hq (Task.waits_of_pausing asks')).2.2.2.resolve_left
    (by rw [asks']; exact Option.some_ne_none _)
  exact asks (acts.stays idle (okay.pausing asks').1).1

theorem Moves.left (ok : s.Ok) (acts : Acts σ s.engine σ' e') (up : σ'.Up e')
    (goes : Goes p.threads s.engine e') {out : Except Raise p.op.Answer}
    (post : p.op.Ends σ' out e') :
    s.Steps (⟨e', others⟩, some ⟨p.op, joined p.threads s.engine e',
      Engine.kept p.held s.engine e', out⟩) := by
  have passes := acts.passes moves.holds ok.seats
  have holds := acts.holds moves.holds
  have kept := moves.kept passes holds
  have own : ∀ m ∈ Engine.kept p.held s.engine e', Leaked ⟨e', others⟩ m := fun m hm =>
    ⟨holds.sub m ((kept m).1 hm), fun q hq hm' => ((passes.others m).2 (moves.foreign ok hq hm')).2
      ((kept m).1 hm)⟩
  have own' : ∀ who, σ'.pausing = some who → ∃ t, who = .thread t := fun who asks =>
    have ⟨t, _, _, same, _⟩ := post.asks asks
    ⟨t, same⟩
  refine ⟨moves.ends ok goes acts up post.calm own', ⟨_, goes⟩, ?_, fun m => ⟨fun h => ?_, ?_⟩⟩
  · rintro _ ⟨⟩
    refine ⟨⟨σ', post, kept, fun t tracks => ?_, fun asks q hq => ?_⟩, own⟩
    · rw [← moves.joins passes]
      exact tracks.follows
    · exact moves.unasked ok acts asks hq
  · by_cases mine : m ∈ σ'.held
    · exact .inr ⟨_, rfl, (kept m).2 mine⟩
    · exact .inl ((moves.leaked passes).2 ⟨h.1, mine, h.2⟩)
  · rintro (h | ⟨_, ⟨⟩, hm⟩)
    · have now := (moves.leaked passes).1 h
      exact ⟨now.1, now.2.2⟩
    · exact own m hm

theorem Moves.unended (passes : Passes σ s.engine σ' e') (holds : σ'.Holds e')
    {c : Course Engine p.op.Answer} (m : Mutex) :
    Leaked ⟨e', ⟨p.op, joined p.threads s.engine e', Engine.kept p.held s.engine e', c⟩ :: others⟩
    m ↔
      s.Leaked m ∨ ∃ exit : Exit, none = some exit ∧ m ∈ exit.held := by
  rw [moves.leaked passes, Leaked, List.forall_mem_cons, moves.kept passes holds]
  exact (or_iff_left (by rintro ⟨_, ⟨⟩, -⟩)).symm

theorem Moves.advance (ok : s.Ok) : s.Steps (System.advance s.engine others p) := by
  have lands := moves.lands
  have treads := moves.treads
  obtain ⟨op, threads, held, course⟩ := p
  cases course with
  | done | raised =>
    obtain ⟨σ', acts, up, post⟩ := lands
    exact moves.left ok acts up treads post
  | waiting =>
    obtain ⟨σ1, e1, σ', acts, rests, up, next⟩ := lands
    have passes := moves.passes ok acts rests
    exact ⟨moves.waits ok treads.1 acts rests up next treads.2, ⟨_, treads.1⟩, by rintro _ ⟨⟩,
      moves.unended passes (rests.holds (acts.holds moves.holds))⟩
  | calling f e' =>
    obtain ⟨σ', acts, up, bare, next⟩ := lands
    have passes := acts.passes moves.holds ok.seats
    have joins := moves.joins passes
    refine ⟨moves.calls ok treads.1 acts up bare.2.1 bare.2.2 rfl ?_, ⟨_, treads.1⟩, by rintro _ ⟨⟩,
      moves.unended passes (acts.holds moves.holds)⟩
    refine ⟨fun r a inv ages fits => ?_, treads.2, (Alike.refl e').ages, moves.knows treads.1, ?_⟩
    · have same : Stance.start (σ'.follow e').control (σ'.follow e').threads a =
          .start op.control (joined threads s.engine e') a := by
        rw [joins]
        exact congrArg (Stance.start · _ a) (passes.control.trans moves.control)
      exact same ▸ next r a ⟨inv, ages, same ▸ fits⟩
    · refine List.eq_nil_iff_forall_not_mem.2 fun m hm => ?_
      have mine := (moves.kept passes (acts.holds moves.holds) m).1 hm
      rw [bare.1] at mine
      cases mine

end

theorem Ok.step (ok : s.Ok) (roomy : s.engine.Roomy) {choice : Choice} (allowed : s.Allows choice) :
    s.Steps (s.step choice) := by
  unfold System.step
  cases h : s.mover? choice with
  | none =>
    refine ⟨ok, ⟨[], 0, Nat.zero_le 3, .start ok.inv⟩, by rintro _ ⟨⟩,
      fun m => (or_iff_left ?_).symm⟩
    rintro ⟨_, ⟨⟩, -⟩
  | some =>
    obtain ⟨σ, moves⟩ := ok.moves roomy allowed h
    exact moves.advance ok

end System

theorem Engine.Unused.ok (h : e.Unused) (honest : e.layout.Honest) : System.Ok ⟨e, []⟩ := by
  have free := h.new.segment
  refine ⟨h.new.inv honest, ⟨fun t k seat => ?_, fun k t owner => ?_, fun k => ?_⟩,
    ⟨?_, ?_, ?_, ?_⟩, ?_, nofun, .nil,
    fun k t owner => ?_, ?_, ?_, fun who paused => ?_⟩
  · rw [h.new.thread] at seat
    cases seat
  · obtain ⟨n, here, -⟩ := free k
    rw [here] at owner
    cases owner
  · obtain ⟨n, here, -⟩ := free k
    simp [here]
  · simp [h.asleep]
  · simp [h.asleep]
  · simp [h.asleep]
  · simp [h.asleep]
  · simp [h.new.locked]
  · obtain ⟨n, here, -⟩ := free k
    rw [here] at owner
    cases owner
  · simp [h.asleep]
  · simp [seated, h.asleep]
  · rw [h.pauser] at paused
    cases paused

namespace System

/-- A run of `N` steps from a new engine: the system at every moment, and the choices. -/
structure Run (N : Nat) (a : Nat → System) (choice : Nat → Choice) : Prop where
  unused : (a 0).engine.Unused
  honest : (a 0).engine.layout.Honest
  quiet : (a 0).tasks = []
  allowed : ∀ n < N, (a n).Allows (choice n)
  step : ∀ n < N, a (n + 1) = ((a n).step (choice n)).1
  short : 3 * N + 1 < 2 ^ 63

/-- The small engine, taken through the choices. -/
abbrev enacts (choices : List Choice) : Nat → System := plays ⟨small, []⟩ choices

theorem run_enacts (choices : List Choice)
    (allowed : ∀ n < choices.length, (enacts choices n).Allows (choices.getD n (.wake 0)))
    (short : 3 * choices.length + 1 < 2 ^ 63) :
    System.Run choices.length (enacts choices) (choices.getD · (.wake 0)) :=
  ⟨small_unused, small_honest, rfl, allowed, fun _ _ => rfl, short⟩

namespace Run
variable {N n : Nat} {a : Nat → System} {choice : Nat → Choice} (run : System.Run N a choice)
include run

/-- The state is in order at every moment, and the clock has not gone further than the steps allow.
-/
theorem ok_clock (hn : n ≤ N) : (a n).Ok ∧ (a n).engine.clock.toNat ≤ 3 * n := by
  have short := run.short
  induction n with
  | zero =>
    have start : a 0 = ⟨(a 0).engine, []⟩ := congrArg (System.mk (a 0).engine) run.quiet
    refine ⟨?_, by rw [run.unused.new.clock]; exact Nat.le_refl 0⟩
    rw [start]
    exact run.unused.ok run.honest
  | succ n ih =>
    obtain ⟨ok, clock⟩ := ih (Nat.le_of_succ_le hn)
    have roomy : (a n).engine.Roomy := by rw [Roomy]; omega
    have steps := ok.step roomy (run.allowed n hn)
    obtain ⟨threads, goes⟩ := steps.goes
    rw [run.step n hn]
    exact ⟨steps.ok, goes.clock.trans (by omega)⟩

theorem ok (hn : n ≤ N) : (a n).Ok := (run.ok_clock hn).1

theorem roomy (hn : n < N) : (a n).engine.Roomy := by
  have short := run.short
  have clock := (run.ok_clock hn.le).2
  rw [Roomy]
  omega

theorem steps (hn : n < N) : (a n).Steps ((a n).step (choice n)) :=
  (run.ok hn.le).step (run.roomy hn) (run.allowed n hn)

theorem leaked (hn : n ≤ N) :
    (a n).Leaked m ↔ ∃ i < n, ∃ exit, ((a i).step (choice i)).2 = some exit ∧ m ∈ exit.held := by
  induction n with
  | zero =>
    refine ⟨fun h => ?_, by rintro ⟨i, ⟨⟩, -⟩⟩
    have locked := h.1
    rw [run.unused.new.locked] at locked
    cases locked
  | succ n ih =>
    rw [run.step n hn, (run.steps hn).leaked m, ih (Nat.le_of_succ_le hn)]
    constructor
    · rintro (⟨i, hi, left⟩ | left)
      · exact ⟨i, Nat.lt_succ_of_lt hi, left⟩
      · exact ⟨n, Nat.lt_succ_self n, left⟩
    · rintro ⟨i, hi, left⟩
      obtain hi | rfl := Nat.lt_succ_iff_lt_or_eq.1 hi
      · exact .inl ⟨i, hi, left⟩
      · exact .inr left

theorem feats (hn : n < N) (free : .engine ∉ (a (n + 1)).engine.locked) :
    .engine ∉ (a n).engine.locked ∧ ∃ acting, Feats acting (a n).engine (a (n + 1)).engine := by
  obtain ⟨threads, k, -, strides⟩ := (run.steps hn).goes
  rw [← run.step n hn] at strides
  exact ⟨fun held => free (strides.engine held), _, strides.feats free⟩

theorem invariant {P : Engine → Prop} (start : P (a 0).engine)
    (step : ∀ acting e e', P e → Feats acting e e' → P e') (hn : n ≤ N)
    (free : .engine ∉ (a n).engine.locked) : P (a n).engine := by
  induction n with
  | zero => exact start
  | succ n ih =>
    obtain ⟨free', acting, feats⟩ := run.feats hn free
    exact step acting _ _ (ih (Nat.le_of_succ_le hn) free') feats

end Run
end System
section
variable {α β : Type} {R : α → β → Prop} {l : List α} {k : List β} {b : β} {i : Nat}

theorem forall₂_getElem? (h : List.Forall₂ R l k) (hb : k[i]? = some b) :
    ∃ a, l[i]? = some a ∧ R a b := by
  induction h generalizing i with
  | nil => cases hb
  | @cons a b l k first rest ih =>
    cases i with
    | zero => exact ⟨a, rfl, Option.some.inj hb ▸ first⟩
    | succ => exact ih hb

theorem forall₂_eraseIdx (h : List.Forall₂ R l k) (i : Nat) :
    List.Forall₂ R (l.eraseIdx i) (k.eraseIdx i) := by
  induction h generalizing i with
  | nil => exact .nil
  | cons first rest ih =>
    cases i with
    | zero => exact rest
    | succ i => exact .cons first (ih i)

end

/-- The task is the same call as the pending request. -/
def Pending.Mirrors (p : Pending) (q : Task) : Prop :=
  ∃ threads held, q = ⟨.ask p.request, threads, held, p.course⟩ ∧
    ∀ t, p.actor.thread = some t → t ∈ threads

structure Machine.Mirrors (m : Machine) (s : System) : Prop where
  engine : m.engine = s.engine
  calls : List.Forall₂ Pending.Mirrors m.pending s.tasks

def Choice.move : Choice → Move
  | .start (.ask q) => .start q
  | .wake i => .wake i
  | .answer i r => .answer i r
  | .start _ => .wake 0

def Ended.answer (x : Ended) : (op : Operation) × Except Raise op.Answer :=
  ⟨.ask x.request, x.outcome⟩

def Exit.answer (x : Exit) : (op : Operation) × Except Raise op.Answer := ⟨x.op, x.outcome⟩

namespace Machine
variable {m : Machine} {s : System} {choice : Choice} {who : Actor} {threads : List ThreadId}

structure Matches (r : Machine × Option Ended) (r' : System × Option Exit) : Prop where
  mirrors : r.1.Mirrors r'.1
  answers : r.2.map Ended.answer = r'.2.map Exit.answer

theorem matches_advance {others : List Pending} {others' : List Task} {q : Request}
    {c : Course Engine q.Answer}
    {e : Engine} {held : List Mutex} (rest : List.Forall₂ Pending.Mirrors others others')
    (own : ∀ t, who.thread = some t → t ∈ threads) :
    Matches (advance others who q c) (System.advance e others' ⟨.ask q, threads, held, c⟩) := by
  cases c with
  | done | raised => exact ⟨⟨rfl, rest⟩, rfl⟩
  | waiting | calling =>
    exact ⟨⟨rfl, .cons ⟨_, _, rfl, fun t ht => List.mem_append_left _ (own t ht)⟩ rest⟩, rfl⟩

namespace Mirrors
variable (h : m.Mirrors s)
include h

theorem free (own : ∀ t, who.thread = some t → t ∈ threads) (free : s.Free none threads) :
    m.Free who := by
  intro p hp waits t ht mine
  obtain ⟨i, here⟩ := List.mem_iff_getElem?.1 hp
  obtain ⟨q, there, threads', held, rfl, known⟩ := forall₂_getElem? h.calls.flip here
  refine (free _ (List.mem_of_getElem? there) ?_).1 t (known t ht) (own t mine)
  obtain ⟨request, actor, course⟩ := p
  cases course with
  | waiting => rfl
  | done | raised | calling => exact waits.elim

theorem step (asks : ∀ op, choice = .start op → ∃ q, op = .ask q) (allowed : s.Allows choice) :
    m.Allows choice.move ∧ Matches (m.step choice.move) (s.step choice) := by
  obtain ⟨e, pending⟩ := m
  obtain ⟨e', tasks⟩ := s
  obtain ⟨rfl, calls⟩ := id h
  cases choice with
  | start op =>
    obtain ⟨q, rfl⟩ := asks op rfl
    have own : ∀ t, (q.actor e).thread = some t → t ∈ (Operation.ask q).threads e :=
      fun t ht => Option.mem_toList.2 ht
    obtain ⟨fit, known, free⟩ := allowed
    exact ⟨⟨fit, fun t ht => known t (own t ht), h.free own free⟩, matches_advance calls own⟩
  | wake i =>
    refine ⟨trivial, ?_⟩
    have idle : Matches (⟨e, pending⟩, none) (⟨e, tasks⟩, none) := ⟨h, rfl⟩
    simp only [Choice.move, Machine.step, System.step, System.mover?]
    cases here : pending[i]? with
    | none =>
      rw [List.getElem?_eq_none_iff, calls.length_eq, ← List.getElem?_eq_none_iff] at here
      rwa [here]
    | some p =>
      obtain ⟨q, there, threads, held, rfl, own⟩ := forall₂_getElem? calls.flip here
      rw [there]
      obtain ⟨request, who, course⟩ := p
      cases course with
      | done | raised | calling => exact idle
      | waiting w =>
        by_cases ready : w.ready e = true
        · simp only [if_pos ready]
          exact matches_advance (forall₂_eraseIdx calls i) own
        · simp only [if_neg ready]
          exact idle
  | answer i r =>
    simp only [Choice.move, Machine.step, System.step, System.mover?, Machine.Allows, Machine.mover]
    cases here : pending[i]? with
    | none =>
      rw [List.getElem?_eq_none_iff, calls.length_eq, ← List.getElem?_eq_none_iff] at here
      rw [here]
      exact ⟨by rintro _ _ _ _ _ ⟨⟩, h, rfl⟩
    | some p =>
      obtain ⟨q, there, threads, held, rfl, own⟩ := forall₂_getElem? calls.flip here
      rw [there]
      refine ⟨h.free own (allowed _ there), ?_⟩
      obtain ⟨request, who, course⟩ := p
      cases course with
      | done | raised | waiting => exact ⟨h, rfl⟩
      | calling => exact matches_advance (forall₂_eraseIdx calls i) own

end Mirrors

def mirror (e : Engine) (choice : Nat → Choice) : Nat → Machine
  | 0 => ⟨e, []⟩
  | n + 1 => ((mirror e choice n).step (choice n).move).1

end Machine

/-- A run in which nothing but requests is begun is one of the machine that knows no other
operations. -/
theorem System.Run.mirrored {N : Nat} {a : Nat → System} {choice : Nat → Choice}
    (run : System.Run N a choice) (asks : ∀ n < N, ∀ op, choice n = .start op → ∃ q, op = .ask q) :
    ∃ ρ, TxHeap.Run N ρ (fun n => (choice n).move) ∧ (∀ n ≤ N, (ρ n).Mirrors (a n)) ∧
      ∀ n < N, ((ρ n).step (choice n).move).2.map Ended.answer =
      ((a n).step (choice n)).2.map Exit.answer := by
  have mirrors : ∀ n ≤ N, (Machine.mirror (a 0).engine choice n).Mirrors (a n) := by
    intro n hn
    induction n with
    | zero => exact ⟨rfl, by rw [run.quiet]; exact .nil⟩
    | succ n ih =>
      rw [run.step n hn]
      exact ((ih (Nat.le_of_succ_le hn)).step (asks n hn) (run.allowed n hn)).2.mirrors
  have steps := fun n (hn : n < N) => (mirrors n hn.le).step (asks n hn) (run.allowed n hn)
  have short := run.short
  have machine : TxHeap.Run N (Machine.mirror (a 0).engine choice) fun n => (choice n).move :=
    ⟨run.unused.new, run.honest, rfl, fun n hn => (steps n hn).1, fun n hn => rfl, by omega⟩
  exact ⟨_, machine, mirrors, fun n hn => (steps n hn).2.answers⟩

end TxHeap
