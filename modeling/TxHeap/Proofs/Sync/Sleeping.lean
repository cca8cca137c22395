import TxHeap.Proofs.Sync.Walks

/-! Going to sleep. A call that acts and then perhaps sleeps leaves alone what others hold and wait
for, and who sleeps. -/

namespace TxHeap
open Engine

variable {σ σ' : Stance} {e e' : Engine} {w : Wait} {who : Caller} {g : Goal} {z : Sleeper}

namespace Wait

def pausing : Wait → Option Caller
  | goal .othersStopped z => some z.who
  | pauseInGoal .othersStopped z => some z.who
  | _ => none

def seeking : Wait → Bool
  | goal .freeSegment _ => true
  | pauseInGoal .freeSegment _ => true
  | _ => false

def condition : Wait → Condition
  | goal g _ => g.condition
  | _ => .released

end Wait

section Rest
variable {k : Option SegmentId} {c : Condition}

theorem Engine.rest_tickets : (e.rest who k c).1.tickets = e.tickets + 1 := by
  cases k <;> rfl

theorem Engine.rest_pauser : (e.rest who k c).1.pauser = e.pauser := by
  cases k <;> rfl

theorem Engine.rest_asleep : (e.rest who k c).1.asleep = (match k with
      | some _ => (e.wakeAll .safePoint).asleep
      | none => e.asleep) ++ [(e.tickets, c)] := by
  cases k <;> rfl

theorem Engine.mem_rest {i : Nat} {d : Condition} (h : (i, d) ∈ (e.rest who k c).1.asleep) :
    (i, d) ∈ e.asleep ∧ (k ≠ none → d ≠ .safePoint) ∨ i = e.tickets ∧ d = c := by
  rw [rest_asleep, List.mem_append] at h
  obtain old | new := h
  · refine .inl ?_
    cases k with
    | none => exact ⟨old, fun some => absurd rfl some⟩
    | some =>
      obtain ⟨old, other⟩ := List.mem_filter.1 old
      exact ⟨old, fun _ => by simpa using other⟩
  · exact .inr (Prod.mk.inj (List.mem_singleton.1 new))

theorem Engine.rest_segment (j : SegmentId) :
    (e.rest who k c).1.segment j = (e.setStanding k .atSafePoint).segment j := by
  cases k <;> rfl

theorem Engine.rest_thread (t : ThreadId) : (e.rest who k c).1.thread t = e.thread t := by
  cases k <;> rfl

theorem Engine.Seats.rest (h : e.Seats) (own : k = e.segmentOf who) : (e.rest who k c).1.Seats := by
  have stands : (e.setStanding k .atSafePoint).Seats := by
    cases k with
    | none => exact h
    | some => exact h.restand own.symm nofun
  have thread : ∀ t, (e.setStanding k .atSafePoint).thread t = e.thread t :=
    fun t => by cases k <;> rfl
  refine ⟨fun t j => ?_, fun j t => ?_, fun j => ?_⟩
  · rw [rest_thread, rest_segment, ← thread]
    exact stands.holds t j
  · rw [rest_thread, rest_segment, ← thread]
    exact stands.owner j t
  · rw [rest_segment]
    exact stands.free j

theorem Engine.Seats.rest_other (h : e.Seats) (own : k = e.segmentOf who) {j : SegmentId}
    (other : k ≠ some j) :
    (e.rest who k c).1.segment j = e.segment j := by
  rw [rest_segment]
  cases k with
  | none => rfl
  | some =>
    obtain ⟨t, rfl, seat⟩ := segmentOf_some own.symm
    rw [segment_setStanding (h.segment_lt seat), if_neg fun same => other (congrArg some same)]

theorem Engine.Seats.rest_own (h : e.Seats) {k : SegmentId} (own : some k = e.segmentOf who) :
    (e.rest who (some k) c).1.segment k = { e.segment k with standing := .atSafePoint } := by
  obtain ⟨t, rfl, seat⟩ := segmentOf_some own.symm
  rw [rest_segment, segment_setStanding (h.segment_lt seat), if_pos rfl]

theorem Engine.Seats.rest_owner (h : e.Seats) (own : k = e.segmentOf who) (j : SegmentId) :
    ((e.rest who k c).1.segment j).owner = (e.segment j).owner := by
  by_cases other : k = some j
  · subst other
    rw [h.rest_own own]
  · rw [h.rest_other own other]

theorem Engine.Seats.rest_vacant (h : e.Seats) (own : k = e.segmentOf who) :
    (e.rest who k c).1.vacant = e.vacant := by
  have size := (rest_spec e who k c).1.alike.segments_size
  rw [vacant, vacant, owners_eq size (h.rest_owner own)]

theorem Engine.rest_seated :
    (e.rest who k c).1.seated = e.seated ++ if c = .freeSegment then [(e.tickets, c)] else [] := by
  have old : (match k with
      | some _ => (e.wakeAll .safePoint).asleep
      | none => e.asleep).filter (fun p => p.2 = Condition.freeSegment) = e.seated := by
    cases k with
    | none => rfl
    | some => exact seated_wakeAll nofun
  rw [seated, rest_asleep, List.filter_append, old]
  by_cases hc : c = .freeSegment <;> simp [hc]

end Rest

def Wait.goal? : Wait → Option Goal
  | .goal g _ => some g
  | .pauseInGoal g _ => some g
  | _ => none

namespace Rests
section
variable (h : Rests σ e w σ' e')
include h

theorem same : σ'.control = σ.control ∧ σ'.threads = σ.threads ∧ σ'.known = σ.known := by
  cases h <;> exact ⟨rfl, rfl, rfl⟩

theorem pausing : σ'.pausing = σ.pausing ∧ σ'.pausing = w.pausing := by
  cases h with
  | mutex m taken calm idle | pause who own held calm idle => exact ⟨rfl, idle⟩
  | goal g who own held apart calm going unmet fits
  | pauseInGoal g who own held apart calm paused fits =>
    refine ⟨rfl, ?_⟩
    have who' : ∀ k c, (e.rest who k c).2.who = who := fun k c => by cases k <;> rfl
    cases g with
    | othersStopped => exact .trans fits (congrArg some (who' _ _)).symm
    | freeSegment | noInevitable => exact fits.1

theorem seeking : σ'.seeking = w.seeking ∧ (σ.seeking = true → w.seeking = true) := by
  cases h with
  | mutex m taken calm | pause who own held calm =>
    exact ⟨calm, fun seeks => by rw [calm] at seeks; cases seeks⟩
  | goal g who own held apart calm | pauseInGoal g who own held apart calm =>
    refine ⟨by cases g <;> rfl, fun seeks => ?_⟩
    rw [calm seeks]
    rfl

theorem cases : (∃ m, w = .mutex m ∧ m ∈ e.locked ∧ σ' = σ ∧ e' = e ∧
      (m = .engine ∧ .engine ∉ σ.held ∨ σ.held = [])) ∨
    ∃ z, w.sleeper? = some z ∧ Sleeps σ e z σ' e' ∧
    e' = (e.rest z.who z.segment w.condition).1 := by
  have ticket : ∀ who k c, (e.rest who k c).2 = ⟨who, k, e.tickets⟩ :=
    fun who k c => by cases k <;> rfl
  cases h with
  | mutex m taken calm idle bare => exact .inl ⟨m, rfl, taken, rfl, rfl, bare⟩
  | pause who own held calm idle paused =>
    have rests : Rests σ e _ _ _ := .pause who own held calm idle paused
    exact .inr ⟨_, rfl, rests.sleeps rfl, by rw [ticket]; rfl⟩
  | goal g who own held apart calm going unmet fits =>
    have rests : Rests σ e _ _ _ := .goal g who own held apart calm going unmet fits
    exact .inr ⟨_, rfl, rests.sleeps rfl, by rw [ticket]; rfl⟩
  | pauseInGoal g who own held apart calm paused fits =>
    have rests : Rests σ e _ _ _ := .pauseInGoal g who own held apart calm paused fits
    exact .inr ⟨_, rfl, rests.sleeps rfl, by rw [ticket]; rfl⟩

theorem apart (goal : w.goal? ≠ none) : .bracket ∉ σ'.held := by
  cases h with
  | mutex | pause => exact absurd rfl goal
  | goal g who own held apart | pauseInGoal g who own held apart =>
    exact fun bracket => apart (List.mem_of_mem_erase bracket)

theorem asks (pauses : σ.Pauses e) (asks : w.pausing ≠ none) : w.condition = .safePoint := by
  cases h with
  | mutex | pause => exact absurd rfl asks
  | goal g =>
    cases g with
    | othersStopped => rfl
    | freeSegment | noInevitable => exact absurd rfl asks
  | pauseInGoal g who own held apart calm paused fits =>
    cases g with
    | freeSegment | noInevitable => exact absurd rfl asks
    | othersStopped =>
      rw [pausedFor_own (pauses who fits)] at paused
      cases paused

theorem keeps : e'.foreign = e.foreign ∧ e'.pauser = e.pauser ∧ e'.pauseMode = e.pauseMode := by
  obtain ⟨m, -, -, -, rfl, -⟩ | ⟨z, -, -, rested⟩ := h.cases
  · exact ⟨rfl, rfl, rfl⟩
  · rw [rested, rest_foreign, rest_pauser, rest_pauseMode]
    exact ⟨rfl, rfl, rfl⟩

theorem locked : e'.locked = e.locked ∧ σ'.held = σ.held ∨
    .engine ∈ σ.held ∧ e'.locked = e.locked.erase .engine ∧ σ'.held = σ.held.erase .engine := by
  obtain ⟨m, -, -, rfl, rfl, -⟩ | ⟨z, -, sleeps, rested⟩ := h.cases
  · exact .inl ⟨rfl, rfl⟩
  · refine .inr ⟨sleeps.held, ?_, ?_⟩
    · rw [rested]
      exact (rest_spec ..).2.1
    · rw [sleeps.stance]
      rfl

theorem unheld (nodup : σ.held.Nodup) : .engine ∉ σ'.held := by
  obtain ⟨m, -, -, rfl, -, ⟨-, none⟩ | none⟩ | ⟨z, -, sleeps, -⟩ := h.cases
  · exact none
  · rw [none]
    exact (by simp)
  · rw [sleeps.stance]
    exact nodup.not_mem_erase

theorem holds (holds : σ.Holds e) : σ'.Holds e' := by
  obtain ⟨locked, held⟩ | ⟨engine, locked, held⟩ := h.locked
  · exact holds.mono held locked
  · exact (Act.unlock .engine engine).holds holds |>.mono held locked

theorem seats (seats : e.Seats) : e'.Seats := by
  obtain ⟨m, -, -, -, rfl, -⟩ | ⟨z, -, sleeps, rested⟩ := h.cases
  · exact seats
  · rw [rested]
    exact seats.rest sleeps.segment

theorem wakeful (wakeful : e.Wakeful) : e'.Wakeful := by
  have sleeps : ∀ who k c, (c = .released → e.pauser ≠ none) →
      (c = .inevitableDone → e.inevitable ≠ none) →
      (e.rest who k c).1.Wakeful := by
    intro who k c paused bound
    have fewer : ∀ p ∈ (match k with
        | some _ => (e.wakeAll .safePoint).asleep
        | none => e.asleep), p ∈ e.asleep := by
      cases k with
      | none => exact fun _ hp => hp
      | some => exact fun p hp => List.mem_of_mem_filter hp
    refine ⟨fun p hp => ?_, ?_, fun i hi => ?_, fun i hi => ?_⟩
    · rw [rest_tickets]
      obtain ⟨old, -⟩ | ⟨new, -⟩ := mem_rest hp
      · exact Nat.lt_succ_of_lt (wakeful.ticket p old)
      · rw [new]
        exact Nat.lt_succ_self _
    · rw [rest_asleep, List.map_append, List.nodup_append]
      refine ⟨?_, List.nodup_singleton _, ?_⟩
      · cases k with
        | none => exact wakeful.nodup
        | some => exact (List.filter_sublist.map _).nodup wakeful.nodup
      · intro i hi j hj same
        obtain ⟨p, hp, rfl⟩ := List.mem_map.1 hi
        have old := wakeful.ticket p (fewer p hp)
        rw [same, List.mem_singleton.1 hj] at old
        exact Nat.lt_irrefl _ old
    · rw [rest_pauser]
      obtain ⟨old, -⟩ | ⟨-, new⟩ := mem_rest hi
      · exact wakeful.released i old
      · exact paused new.symm
    · rw [(rest_spec ..).1.alike.inevitable]
      obtain ⟨old, -⟩ | ⟨-, new⟩ := mem_rest hi
      · exact wakeful.inevitable i old
      · exact bound new.symm
  have asked : ∀ {who}, e.pausedFor who = true → e.pauser ≠ none := by
    intro who paused nobody
    rw [pausedFor, nobody] at paused
    cases paused
  cases h with
  | mutex => exact wakeful
  | pause who own held calm idle paused | pauseInGoal g who own held apart calm paused =>
    exact sleeps _ _ _ (fun _ => asked paused) (by rintro ⟨⟩)
  | goal g who own held apart calm going unmet =>
    refine sleeps _ _ _ (fun is => by cases g <;> cases is) fun is nobody => ?_
    cases g with
    | othersStopped | freeSegment => cases is
    | noInevitable =>
      have met : Goal.noInevitable.holds who e = true := by
        cases who <;> exact Option.isNone_iff_eq_none.2 nobody
      rw [met] at unmet
      cases unmet

end
end Rests

/-- What a call that goes from `e` to `e'` leaves alone of what others hold and wait for. -/
structure Passes (σ : Stance) (e : Engine) (σ' : Stance) (e' : Engine) : Prop where
  control : σ'.control = σ.control
  threads : σ'.threads = σ.threads
  known : σ'.known = σ.known
  others : ∀ m, m ∈ e'.locked ∧ m ∉ σ'.held ↔ m ∈ e.locked ∧ m ∉ σ.held
  elsewhere : ∀ k t, (e.segment k).owner = some t → ¬ σ.mine t →
    (e'.segment k).owner = some t ∧ (e'.segment k).standing = (e.segment k).standing
  tickets : e.tickets ≤ e'.tickets
  asleep : ∀ i c, (i, c) ∈ e'.asleep → i < e.tickets → (i, c) ∈ e.asleep
  running : ∀ i who, (i, .safePoint) ∈ e'.asleep → i < e.tickets → e.othersStopped who = false →
    e'.othersStopped who = false
  stays : ∀ who, σ.pausing = none → e.pauser = some who →
    σ'.pausing = none ∧ e'.pauser = some who ∧ e'.pauseMode = e.pauseMode
  tidy : Tidy σ e e'
  /-- Whoever sleeps for a segment sleeps for one that is not free: others who are awake will take
  those. -/
  room : ∀ n, e.seated.length ≤ n →
    (e.seated ≠ [] → e.vacant + e.seated.length ≤ n + σ.seeking.toNat) →
    e'.seated ≠ [] → e'.vacant + e'.seated.length ≤ n + σ'.seeking.toNat

theorem Acts.passes (a : Acts σ e σ' e') (holds : σ.Holds e) (seats : e.Seats) :
    Passes σ e σ' e' where
  control := a.same.1
  threads := a.same.2.1
  known := a.same.2.2
  others := a.others holds
  elsewhere _ _ := a.elsewhere seats
  tickets := a.asleep.1.symm.le
  asleep _ _ h _ := a.asleep.2.subset h
  running _ _ h _ := a.running seats h
  stays _ := a.stays
  tidy := a.tidy
  room n _ room some := by
    obtain ⟨took, gave, frees⟩ := a.frees seats
    have vacant := frees.vacant
    have length : e'.seated.length = e.seated.length - gave := by
      rw [frees.seated, List.length_drop]
    have pos := List.length_pos_iff.2 some
    have before := room (List.ne_nil_of_length_pos (by omega))
    have seeks : σ.seeking.toNat ≤ σ'.seeking.toNat + took := by
      cases seeking : σ.seeking with
      | false => exact Nat.zero_le _
      | true =>
        obtain still | pos := frees.seeking seeking
        · rw [still]
          exact Nat.le_add_right _ _
        · exact Nat.le_trans pos (Nat.le_add_left _ _)
    omega

namespace Passes
variable {σ1 : Stance} {e1 : Engine}

theorem mine (h : Passes σ e σ' e') : σ'.mine = σ.mine := by
  funext t
  rw [Stance.mine, Stance.mine, h.threads, h.known]

theorem trans (h : Passes σ e σ1 e1) (h' : Passes σ1 e1 σ' e')
    (fewer : e1.seated.length ≤ e.seated.length) :
    Passes σ e σ' e' where
  control := h'.control.trans h.control
  threads := h'.threads.trans h.threads
  known := h'.known.trans h.known
  others m := (h'.others m).trans (h.others m)
  elsewhere k t owner other := by
    have first := h.elsewhere k t owner other
    have second := h'.elsewhere k t first.1 (by rwa [h.mine])
    exact ⟨second.1, second.2.trans first.2⟩
  tickets := h.tickets.trans h'.tickets
  asleep i c hi old := h.asleep i c (h'.asleep i c hi (old.trans_le h.tickets)) old
  running i who hi old running := by
    have old' := old.trans_le h.tickets
    exact h'.running i who hi old' (h.running i who (h'.asleep i _ hi old') old running)
  stays who idle pauser := by
    have first := h.stays who idle pauser
    have second := h'.stays who first.1 first.2.1
    exact ⟨second.1, second.2.1, second.2.2.trans first.2.2⟩
  tidy := h.tidy.trans (h'.tidy.same h.control.symm h.mine.symm)
  room n most room := h'.room n (fewer.trans most) (h.room n most room)

end Passes

theorem Engine.vacant_of_none {t : ThreadId} (h : e.pickSegment? t = none) : e.vacant = 0 := by
  have none : e.segments.findIdx? (·.owner.isNone) = none := by
    unfold pickSegment? at h
    dsimp only at h
    split at h
    · cases h
    · exact h
  rw [vacant, List.count_eq_zero]
  intro free
  obtain ⟨s, hs, owner⟩ := List.mem_map.1 free
  have taken := Array.findIdx?_eq_none_iff.1 none s (by simpa using hs)
  rw [owner] at taken
  cases taken

theorem Rests.passes (h : Rests σ e w σ' e') (holds : σ.Holds e) (seats : e.Seats) :
    Passes σ e σ' e' := by
  have same := h.same
  have others : ∀ m, m ∈ e'.locked ∧ m ∉ σ'.held ↔ m ∈ e.locked ∧ m ∉ σ.held := by
    intro m
    obtain ⟨locked, held⟩ | ⟨engine, locked, held⟩ := h.locked
    · rw [locked, held]
    · rw [locked, held]
      exact (Act.unlock .engine engine).others holds m
  have vacant : w.condition = .freeSegment → e.vacant = 0 ∧ w.seeking = true := by
    intro is
    cases h with
    | mutex | pause | pauseInGoal => cases is
    | goal g who own held apart calm going unmet fits =>
      cases g with
      | othersStopped | noInevitable => cases is
      | freeSegment =>
        obtain ⟨-, t, rfl, -⟩ := fits
        exact ⟨vacant_of_none (Option.not_isSome_iff_eq_none.1 (Bool.not_eq_true _ ▸ unmet)), rfl⟩
  have seeking := h.seeking
  obtain ⟨m, rfl, -, rfl, rfl, -⟩ | ⟨z, hz, sleeps, rested⟩ := h.cases
  · exact Acts.refl.passes holds seats
  · have own := sleeps.segment
    refine ⟨same.1, same.2.1, same.2.2, others, ?_, ?_, ?_, ?_, ?_, ?_, ?_⟩
    · intro k t owner other
      rw [rested, seats.rest_other own]
      · exact ⟨owner, rfl⟩
      · intro mine
        obtain ⟨u, hu, seat⟩ := segmentOf_some (own.symm.trans mine)
        have tracks := sleeps.own
        rw [hu] at tracks
        rw [seats.holds u k seat] at owner
        exact other (Option.some.inj owner ▸ Stance.Tracks.mine tracks)
    · rw [rested, rest_tickets]
      exact Nat.le_succ _
    · intro i c hi old
      rw [rested] at hi
      exact (mem_rest hi).elim And.left fun new => absurd new.1 (Nat.ne_of_lt old)
    · intro i who hi old running
      rw [rested] at hi ⊢
      obtain ⟨-, never⟩ | ⟨new, -⟩ := mem_rest hi
      · have none := not_not.1 fun some => never some rfl
        rw [othersStopped_false] at running ⊢
        obtain ⟨k, t, owner, other, running⟩ := running
        refine ⟨k, t, ?_⟩
        rw [seats.rest_other own (by rw [none]; exact nofun)]
        exact ⟨owner, other, running⟩
      · exact absurd new (Nat.ne_of_lt old)
    · intro who idle pauser
      exact ⟨h.pausing.1.trans idle, h.keeps.2.1.trans pauser, h.keeps.2.2⟩
    · exact tidy_of_eq (by rw [h.alike.threads]) h.keeps.1 h.alike.txns
    · intro n most room some
      rw [rested, rest_seated] at some ⊢
      rw [seats.rest_vacant own, List.length_append, seeking.1]
      by_cases hc : w.condition = .freeSegment
      · obtain ⟨full, seeks⟩ := vacant hc
        rw [if_pos hc, full, seeks]
        simpa using most
      · rw [if_neg hc, List.append_nil] at some
        rw [if_neg hc]
        refine (room some).trans (Nat.add_le_add_left ?_ n)
        cases seeks : σ.seeking with
        | false => exact Nat.zero_le _
        | true => rw [seeking.2 seeks]

def Goal.Suits (g : Goal) (who : Caller) (e : Engine) : Prop :=
  match g with
  | .othersStopped => e.pauser = some who
  | .freeSegment => ∃ t, who = .thread t ∧ (e.thread t).segment = none
  | .noInevitable => ∃ t x, who = .thread t ∧ (e.thread t).txn = some x ∧ (e.txn x).phase = .running

structure Sits (threads : List ThreadId) (w : Wait) (z : Sleeper) (e : Engine) : Prop where
  sleeper : w.sleeper? = some z
  own : ∀ t, z.who = .thread t → t ∈ threads
  segment : z.segment = e.segmentOf z.who
  standing : ∀ k, z.segment = some k → (e.segment k).standing ≠ .running
  ticket : z.ticket < e.tickets
  asleep : ∀ c, (z.ticket, c) ∈ e.asleep → c = w.condition
  running : (z.ticket, .safePoint) ∈ e.asleep → e.othersStopped z.who = false
  suits : ∀ g, w.goal? = some g → g.Suits z.who e

theorem Engine.segmentOf_congr (thread : ∀ t, who = .thread t → e'.thread t = e.thread t) :
    e'.segmentOf who = e.segmentOf who := by
  cases who with
  | thread t => rw [segmentOf, segmentOf, thread t rfl]
  | system | outside => rfl

theorem Goal.Fits.suits (h : g.Fits σ who e) (pauses : σ.Pauses e) : g.Suits who e := by
  cases g with
  | othersStopped => exact pauses who h
  | freeSegment | noInevitable => exact h.2

theorem Goal.Suits.fits (h : g.Suits who e)
    (pausing : σ.pausing = if g = .othersStopped then some who else none) : g.Fits σ who e := by
  cases g with
  | othersStopped => exact pausing
  | freeSegment | noInevitable => exact ⟨pausing, h⟩

theorem Goal.Suits.congr (h : g.Suits who e)
    (pauser : g = .othersStopped → e'.pauser = e.pauser)
    (thread : ∀ t, who = .thread t → e'.thread t = e.thread t)
    (txn : ∀ t x, who = .thread t → (e.thread t).txn = some x →
      (e'.txn x).phase = (e.txn x).phase) : g.Suits who e' := by
  cases g with
  | othersStopped => exact (pauser rfl).trans h
  | freeSegment =>
    obtain ⟨t, rfl, seat⟩ := h
    exact ⟨t, rfl, by rwa [thread t rfl]⟩
  | noInevitable =>
    obtain ⟨t, x, rfl, held, running⟩ := h
    exact ⟨t, x, rfl, by rwa [thread t rfl], (txn t x rfl held).trans running⟩

theorem Rests.sits (h : Rests σ e w σ' e') (hz : w.sleeper? = some z)
    (seats : e.Seats) (wakeful : e.Wakeful) (pauses : σ.Pauses e) :
    Sits (σ'.follow e').threads w z e' := by
  have alike := h.alike
  have same := h.same
  have sleeps := h.sleeps hz
  have rested : e' = (e.rest z.who z.segment w.condition).1 := by
    obtain ⟨m, rfl, -⟩ | ⟨y, hy, -, rested⟩ := h.cases
    · cases hz
    · cases hy.symm.trans hz
      exact rested
  have new : ∀ c, (z.ticket, c) ∈ e'.asleep → c = w.condition := by
    intro c hc
    rw [rested, sleeps.ticket] at hc
    obtain ⟨old, -⟩ | ⟨-, new⟩ := mem_rest hc
    · exact absurd (wakeful.ticket _ old) (Nat.lt_irrefl _)
    · exact new
  refine ⟨hz, fun t ht => ?_, ?_, fun k hk => ?_, ?_, new, fun hi => ?_, fun g hg => ?_⟩
  · have own := sleeps.own
    rw [ht] at own
    exact (Stance.Tracks.congr own same.2.1 same.2.2 (Nat.le_of_eq (by rw [alike.threads]))).follows
  · rw [sleeps.segment]
    exact (segmentOf_congr fun t _ => alike.thread t).symm
  · rw [rested, hk, seats.rest_own (hk.symm.trans sleeps.segment)]
    nofun
  · rw [rested, rest_tickets, sleeps.ticket]
    exact Nat.lt_succ_self _
  · have cond := new _ hi
    have unmet : e.othersStopped z.who = false := by
      cases h with
      | mutex => cases hz
      | pause | pauseInGoal => cases cond
      | goal g who own held apart calm going unmet =>
        cases hz
        have who' : ∀ k c, (e.rest who k c).2.who = who := fun k c => by cases k <;> rfl
        cases g with
        | freeSegment | noInevitable => cases cond
        | othersStopped =>
          rw [who']
          cases who <;> exact unmet
    rw [othersStopped_false] at unmet ⊢
    obtain ⟨k, t, owner, other, running⟩ := unmet
    refine ⟨k, t, ?_⟩
    rw [rested, seats.rest_other sleeps.segment]
    · exact ⟨owner, other, running⟩
    · intro mine
      obtain ⟨u, hu, seat⟩ := segmentOf_some (sleeps.segment.symm.trans mine)
      rw [seats.holds u k seat] at owner
      exact other (by rw [hu, Option.some.inj owner])
  · have suits : g.Suits z.who e := by
      have who' : ∀ who k c, (e.rest who k c).2.who = who := fun who k c => by cases k <;> rfl
      cases h with
      | mutex | pause => cases hg
      | goal g' who own held apart calm going unmet fits
      | pauseInGoal g' who own held apart calm paused fits =>
        cases hz
        cases hg
        rw [who']
        exact fits.suits pauses
    exact suits.congr (fun _ => h.keeps.2.1) (fun t _ => alike.thread t) fun t x _ _ => by
      rw [alike.txn]

theorem Sits.passes {threads : List ThreadId} (h : Sits threads w z e)
    (passes : Passes σ e σ' e') (seats : e.Seats) (apart : ∀ t ∈ threads, ¬ σ.mine t)
    (thread : ∀ t ∈ threads, e'.thread t = e.thread t)
    (txn : ∀ t x, t ∈ threads → (e.thread t).txn = some x → (e.txn x).Blanks (e'.txn x))
    (idle : w.pausing ≠ none → σ.pausing = none) : Sits threads w z e' := by
  have thread' : ∀ t, z.who = .thread t → e'.thread t = e.thread t :=
    fun t ht => thread t (h.own t ht)
  refine ⟨h.sleeper, h.own, ?_, fun k hk => ?_, h.ticket.trans_le passes.tickets,
    fun c hc => h.asleep c (passes.asleep _ c hc h.ticket), fun hi => ?_, fun g hg => ?_⟩
  · rw [segmentOf_congr thread']
    exact h.segment
  · obtain ⟨t, ht, seat⟩ := segmentOf_some (h.segment.symm.trans hk)
    rw [(passes.elsewhere k t (seats.holds t k seat) (apart t (h.own t ht))).2]
    exact h.standing k hk
  · exact passes.running _ _ hi h.ticket (h.running (passes.asleep _ _ hi h.ticket))
  · refine (h.suits g hg).congr ?_ thread' fun t x ht hx => (txn t x (h.own t ht) hx).keeps.phase
    rintro rfl
    have pauser := h.suits _ hg
    have asks : w.pausing ≠ none := by
      cases w with
      | mutex | backoff | pause => cases hg
      | goal | pauseInGoal =>
        cases hg
        exact nofun
    rw [(passes.stays _ (idle asks) pauser).2.1, pauser]

end TxHeap
