import TxHeap.Proofs.Machine.Run
import TxHeap.Proofs.Sync.Sleeping

/-! Waking up. A call that is woken goes on, or it sleeps again. So each step of a call comes to
some acts and then a rest. -/

namespace TxHeap
open Engine

variable {c : Engine}

section Wakes
variable {α : Type} {Q : Stance → Post α} {σ : Stance} {e a b : Engine} {w w' : Wait} {z : Sleeper}
  {who : Caller} {k : Option SegmentId}

def Wait.segment? (w : Wait) : Option SegmentId := w.sleeper?.bind (·.segment)

theorem acts_rouse (mine : σ.Mine who) (going : e.pausedFor who = false) (own : k = e.segmentOf who)
    (kind : Event.Kind) :
    Acts σ e σ ((e.setStanding k .running).noteDone kind k) := by
  subst own
  exact (Acts.single (.rouse who mine going)).trans (acts_note .waitDone (e.segmentOf who) _)

theorem Engine.standing_rouse {j : SegmentId} (inside : j < e.segments.size) (kind : Event.Kind) :
    (((e.setStanding k .running).noteDone kind k).segment j).standing =
      if k = some j then .running else (e.segment j).standing := by
  cases k with
  | none => rfl
  | some i =>
    change ((e.setSegment i fun s => { s with standing := .running }).segment j).standing = _
    rw [segment_setSegment]
    by_cases same : i = j
    · subst same
      rw [if_pos ⟨rfl, inside⟩, if_pos rfl]
    · rw [if_neg fun h => same h.1, if_neg fun h => same (Option.some.inj h)]

theorem Sits.mine {threads : List ThreadId} (h : Sits threads w z e) (own : σ.threads = threads) :
    σ.Mine z.who := by
  have acts := h.own
  revert acts
  cases z.who with
  | thread t => exact fun acts => .inl (own ▸ acts t rfl)
  | system | outside => exact fun _ => trivial

structure Wakes (σ : Stance) (e : Engine) (w : Wait) (b : Engine) : Prop where
  acts : Acts σ e (σ.woken w e) b
  resumes : w.Resumes e b
  standing : ∀ j < e.segments.size, (b.segment j).standing =
    if w.segment? = some j then .running else (e.segment j).standing

structure Stays (σ : Stance) (e : Engine) (w w' : Wait) (b : Engine) : Prop where
  rests : ∃ c, Acts σ e (σ.take .engine) c ∧ Rouses (e.acquire .engine) c ∧
    Rests (σ.take .engine) c w' σ b ∧
    ∀ j < e.segments.size, w.segment? ≠ some j → (c.segment j).standing = (e.segment j).standing
  resumes : ∀ a c, w'.Resumes a c → w.Resumes a c
  segment : w'.segment? = w.segment?
  free : .engine ∉ e.locked
  woken : ∀ a, σ.woken w' a = σ.woken w a

theorem Engine.rest_sleeper (e : Engine) (who : Caller) (k : Option SegmentId) (c : Condition) :
    (e.rest who k c).2 = ⟨who, k, e.tickets⟩ := by
  cases k <;> rfl

section Sleeper
variable (known : σ.known = e.threads.size) (all : ∀ t ∈ σ.threads, t < e.threads.size)
  (pausing : σ.pausing = w.pausing)
  (seeking : σ.seeking = w.seeking) (free : .engine ∉ e.locked) (sits : Sits σ.threads w z e)
include known free sits

theorem Sits.acquires : Acts σ e (σ.take .engine) (e.acquire .engine) ∧
    σ.woken w e = σ.take .engine ∧
    z.segment = (e.acquire .engine).segmentOf z.who := by
  refine ⟨.single (.lock .engine free), ?_, ?_⟩
  · have sleeper := sits.sleeper
    cases w with
    | mutex | backoff => cases sleeper
    | pause | goal | pauseInGoal => simp [Stance.woken, ← known]
  · exact sits.segment.trans (segmentOf_congr fun _ _ => rfl).symm

theorem Sits.rises (going : e.pausedFor z.who = false) (kind : Event.Kind)
    (before : Acts (σ.take .engine) (e.acquire .engine) (σ.take .engine) c)
    (rouses : Rouses (e.acquire .engine) c)
    (standing : ∀ j < e.segments.size, w.segment? ≠ some j →
      (c.segment j).standing = (e.segment j).standing)
    (resumes : w.Resumes e ((c.setStanding z.segment .running).noteDone kind z.segment)) :
    Wakes σ e w ((c.setStanding z.segment .running).noteDone kind z.segment) := by
  obtain ⟨acquires, woken, segment⟩ := sits.acquires known free
  have mine : (σ.take .engine).Mine z.who := sits.mine rfl
  have own := segment.trans (segmentOf_congr fun t _ => rouses.alike.thread t).symm
  have segment? : w.segment? = z.segment := by rw [Wait.segment?, sits.sleeper]; rfl
  refine ⟨?_, resumes, fun j inside => ?_⟩
  · rw [woken]
    exact (acquires.trans before).trans (acts_rouse mine (by rwa [rouses.pausedFor]) own kind)
  · rw [standing_rouse (by rwa [rouses.alike.segments_size]), segment?]
    split
    · rfl
    · next other => exact standing j inside (by rwa [segment?])

include all pausing seeking

theorem Sits.fits (before : Acts (σ.take .engine) (e.acquire .engine) (σ.take .engine) c)
    (rouses : Rouses (e.acquire .engine) c) :
    z.segment = c.segmentOf z.who ∧ (σ.take .engine).For c z.who ∧ Acts σ e (σ.take .engine) c ∧
      ∀ g, w.goal? = some g → g.Fits (σ.take .engine) z.who c ∧
      (σ.seeking = true → g = .freeSegment) ∧
        σ.seeking = decide (g = .freeSegment) := by
  obtain ⟨acquires, -, segment⟩ := sits.acquires known free
  refine ⟨segment.trans (segmentOf_congr fun t _ => rouses.alike.thread t).symm, ?_,
    acquires.trans before, fun g hg => ?_⟩
  · have own := sits.own
    revert own
    cases z.who with
    | thread t =>
      intro own
      refine ⟨.inl (own t rfl), ?_⟩
      rw [rouses.alike.threads]
      exact all t (own t rfl)
    | system | outside => exact fun _ => trivial
  · have suits := (sits.suits g hg).congr (fun _ => rouses.pauser)
      (fun t _ => rouses.alike.thread t)
      fun t x _ _ => by rw [rouses.alike.txn]; rfl
    have sleeper := sits.sleeper
    have seeks : σ.seeking = decide (g = .freeSegment) := by
      rw [seeking]
      cases w with
      | mutex | backoff | pause => cases hg
      | goal g' | pauseInGoal g' =>
        obtain rfl := Option.some.inj hg
        cases g' <;> rfl
    refine ⟨suits.fits ?_, fun seeking => ?_, seeks⟩
    · change σ.pausing = _
      rw [pausing]
      cases w with
      | mutex | backoff | pause => cases hg
      | goal g' | pauseInGoal g' =>
        obtain rfl := Option.some.inj hg
        obtain rfl := Option.some.inj sleeper
        cases g' <;> rfl
    · rw [seeks] at seeking
      exact of_decide_eq_true seeking

omit known free sits all pausing seeking in
theorem bracket_take (apart : .bracket ∉ σ.held) : .bracket ∉ (σ.take .engine).held := by
  rintro (_ | ⟨_, held⟩)
  exact apart held

section
variable (before : Acts (σ.take .engine) (e.acquire .engine) (σ.take .engine) c)
  (rouses : Rouses (e.acquire .engine) c)
include before rouses

theorem Sits.keepsPaused (paused : e.pausedFor z.who = true)
    (hw' : w = .pause z ∧ w' = .pause ⟨z.who, z.segment, c.tickets⟩ ∨
      ∃ g, w.goal? = some g ∧ w' = .pauseInGoal g ⟨z.who, z.segment, c.tickets⟩)
    (apart : w.goal? ≠ none → .bracket ∉ σ.held) :
    Rests (σ.take .engine) c w' σ (c.rest z.who z.segment .released).1 := by
  obtain ⟨own, acting, -, fits⟩ := sits.fits known all pausing seeking free before rouses
  have paused : c.pausedFor z.who = true := by rwa [rouses.pausedFor]
  obtain ⟨rfl, rfl⟩ | ⟨g, hg, rfl⟩ := hw'
  · have rests : Rests (σ.take .engine) c _ _ _ :=
      .pause z.who acting (.head _) seeking pausing paused
    rwa [Stance.drop_take, ← own, rest_sleeper] at rests
  · obtain ⟨fits, calm, seeks⟩ := fits g hg
    have rests : Rests (σ.take .engine) c _ _ _ :=
      .pauseInGoal g z.who acting (.head _)
        (bracket_take (apart (by rw [hg]; exact Option.some_ne_none g))) calm paused fits
    rwa [Stance.drop_take, ← own, rest_sleeper, ← seeks] at rests

theorem Sits.keepsWaiting {g : Goal} (going : e.pausedFor z.who = false) (hg : w.goal? = some g)
    (unmet : g.holds z.who c = false) (apart : w.goal? ≠ none → .bracket ∉ σ.held) :
    Rests (σ.take .engine) c (.goal g ⟨z.who, z.segment, c.tickets⟩) σ
    (c.rest z.who z.segment g.condition).1 := by
  obtain ⟨own, acting, -, fits⟩ := sits.fits known all pausing seeking free before rouses
  obtain ⟨fits, calm, seeks⟩ := fits g hg
  have rests : Rests (σ.take .engine) c _ _ _ :=
    .goal g z.who acting (.head _) (bracket_take (apart (by rw [hg]; exact Option.some_ne_none g)))
      calm (by rwa [rouses.pausedFor]) unmet fits
  rwa [Stance.drop_take, ← own, rest_sleeper, ← seeks] at rests

end
end Sleeper

theorem Wait.wake_cases (known : σ.known = e.threads.size)
    (all : ∀ t ∈ σ.threads, t < e.threads.size) (pausing : σ.pausing = w.pausing)
    (seeking : σ.seeking = w.seeking) (real : w ≠ .backoff) (ready : w.ready e = true)
    (sits : ∀ z, w.sleeper? = some z → Sits σ.threads w z e)
    (apart : w.goal? ≠ none → .bracket ∉ σ.held) :
    (∃ b, w.wake e = (b, none) ∧ Wakes σ e w b) ∨
    ∃ w' b, w.wake e = (b, some w') ∧ Stays σ e w w' b := by
  have taken : Rouses (e.acquire .engine) (e.acquire .engine) :=
    ⟨.refl _, rfl, rfl, rfl, rfl, rfl, rfl, rfl⟩
  have awake : ∀ ticket, Wait.ready.awake ticket e = true → .engine ∉ e.locked :=
    fun ticket awake => by
    simpa [isLocked] using (Bool.and_eq_true_iff.1 awake).2
  cases w with
  | backoff => exact absurd rfl real
  | mutex m =>
    have free : m ∉ e.locked := by simpa [Wait.ready, isLocked] using ready
    refine .inl ⟨_, rfl, ?_, ⟨free, rfl⟩, fun _ _ => rfl⟩
    have act : Act σ e (σ.take m) (e.acquire m) := .lock m free
    simpa [Stance.woken, ← known] using Acts.single act
  | pause z =>
    have sits := sits z rfl
    have free := awake _ ready
    obtain ⟨acquires, -, -⟩ := sits.acquires known free
    cases paused : (e.acquire .engine).pausedFor z.who with
    | true =>
      refine .inr
        ⟨_, _, ?_,
        ⟨⟨_, acquires, taken, sits.keepsPaused known all pausing seeking free .refl taken paused
        (.inl ⟨rfl, rfl⟩)
        apart, fun _ _ _ => rfl⟩, fun _ _ => id, rfl, free, fun _ => rfl⟩⟩
      simp only [Wait.wake, stayPaused, paused, if_true, rest_sleeper]
      rfl
    | false =>
      refine .inl ⟨_, ?_, sits.rises known free paused .waitSyncPause .refl taken (fun _ _ _ => rfl)
        ⟨free, paused, rouses_running ..⟩⟩
      simp only [Wait.wake, stayPaused, paused, Bool.false_eq_true, if_false]
      rfl
  | goal g z =>
    have sits := sits z rfl
    have free := awake _ ready
    obtain ⟨acquires, -, -⟩ := sits.acquires known free
    cases paused : (e.acquire .engine).pausedFor z.who with
    | true =>
      have note := acts_note (σ := σ.take .engine) (e := e.acquire .engine) .waitSyncPause z.segment
        [("mode", .text e.pauseMode.toText)]
      have rouses : Rouses (e.acquire .engine) _ :=
        ⟨alike_note (e.acquire .engine) .waitSyncPause z.segment
          [("mode", .text e.pauseMode.toText)],
          rfl, rfl, rfl, rfl, rfl, rfl, rfl⟩
      refine .inr
        ⟨_, _, ?_,
        ⟨⟨_, acquires.trans note, rouses,
        sits.keepsPaused known all pausing seeking free note rouses paused
        (.inr ⟨g, rfl, rfl⟩) apart, fun _ _ _ => rfl⟩, fun _ _ => id, rfl, free, fun _ => rfl⟩⟩
      simp only [Wait.wake, enterPause, paused, if_true, rest_sleeper]
      rfl
    | false =>
      cases met : g.holds z.who (e.acquire .engine) with
      | true =>
        refine .inl ⟨_, ?_, sits.rises known free paused g.kind .refl taken (fun _ _ _ => rfl)
          ⟨free, paused, _, taken, met, rfl⟩⟩
        simp only [Wait.wake, settle, paused, met, Bool.false_eq_true, if_false, if_true]
      | false =>
        refine .inr
          ⟨_, _, ?_,
          ⟨⟨_, acquires, taken, sits.keepsWaiting known all pausing seeking free .refl taken
          paused rfl met
          apart, fun _ _ _ => rfl⟩, fun _ _ => id, rfl, free, fun _ => rfl⟩⟩
        simp only [Wait.wake, settle, paused, met, Bool.false_eq_true, if_false, rest_sleeper]
  | pauseInGoal g z =>
    have sits := sits z rfl
    have free := awake _ ready
    obtain ⟨acquires, -, segment⟩ := sits.acquires known free
    cases paused : (e.acquire .engine).pausedFor z.who with
    | true =>
      refine .inr ⟨_, _, ?_,
        ⟨⟨_, acquires, taken, sits.keepsPaused known all pausing seeking free .refl taken paused
        (.inr ⟨g, rfl, rfl⟩) apart, fun _ _ _ => rfl⟩, fun _ _ => id, rfl, free, fun _ => rfl⟩⟩
      simp only [Wait.wake, stayPaused, paused, if_true, rest_sleeper]
    | false =>
      have rises :=
        acts_rouse (sits.mine (σ := σ.take .engine) rfl) paused segment .waitSyncPause
      have rouses := rouses_running (e.acquire .engine) z.segment .waitSyncPause
      have standing : ∀ j < e.segments.size, (Wait.pauseInGoal g z).segment? ≠ some j →
          ((((e.acquire .engine).setStanding z.segment .running).noteDone .waitSyncPause
            z.segment).segment j).standing =
            (e.segment j).standing := fun j inside other => by
        have inside' : j < (e.acquire .engine).segments.size := inside
        exact (standing_rouse inside' _).trans (if_neg other)
      cases met : g.holds z.who
        (((e.acquire .engine).setStanding z.segment .running).noteDone .waitSyncPause
        z.segment) with
      | true =>
        refine .inl ⟨_, ?_, sits.rises known free paused g.kind rises rouses standing
          ⟨free, paused, _, rouses, met, rfl⟩⟩
        simp only [Wait.wake, stayPaused, settle, paused, met, Bool.false_eq_true,
          if_false, if_true]
      | false =>
        refine .inr
          ⟨_, _, ?_,
          ⟨⟨_, acquires.trans rises, rouses,
          sits.keepsWaiting known all pausing seeking free rises rouses paused
          rfl met apart, standing⟩, fun _ _ => id, rfl, free, fun _ => rfl⟩⟩
        simp only [Wait.wake, stayPaused, settle, paused, met, Bool.false_eq_true, if_false,
          rest_sleeper]

end Wakes

section Lands
variable {α : Type} {Q : Stance → Post α} {σ σ' : Stance} {e e1 : Engine} {w : Wait}
  {c : Course Engine α}

/-- What one step of a call comes to. All its segments are running but the one with which it sleeps.
-/
def Lands (Q : Stance → Post α) (σ : Stance) (e : Engine) : Course Engine α → Prop
  | .done a e' => ∃ σ', Acts σ e σ' e' ∧ σ'.Up e' ∧ Q σ' (.ok a) e'
  | .raised v e' => ∃ σ', Acts σ e σ' e' ∧ σ'.Up e' ∧ Q σ' (.error v) e'
  | .waiting w e' resume => ∃ σ1 e1 σ', Acts σ e σ1 e1 ∧ Rests σ1 e1 w σ' e' ∧
    (∀ t k, σ'.mine t → (e'.thread t).segment = some k → w.segment? ≠ some k →
      (e'.segment k).standing = .running) ∧
    ∀ a b, (σ'.follow e').Meets e' w a b → Walks Q ((σ'.follow e').woken w a) b (resume b)
  | .calling _ e' resume =>
    ∃ σ', Acts σ e σ' e' ∧ σ'.Up e' ∧ (σ'.held = [] ∧ σ'.seeking = false ∧ σ'.pausing = none) ∧
    ∀ r a, (σ'.follow e').Returns e' a →
      Walks Q (.start σ'.control (σ'.follow e').threads a) a (resume r a)

theorem Rests.standing {e' : Engine} (h : Rests σ e w σ' e') (seats : e.Seats) {k : SegmentId}
    (other : w.segment? ≠ some k) :
    e'.segment k = e.segment k := by
  obtain ⟨m, -, -, -, rfl, -⟩ | ⟨z, hz, sleeps, rested⟩ := h.cases
  · rfl
  · rw [rested, seats.rest_other sleeps.segment]
    rwa [Wait.segment?, hz] at other

theorem Walks.lands (h : Walks Q σ e c) (fits : σ.Fits e) : Lands Q σ e c := by
  cases h with
  | done acts post | raised acts post => exact ⟨_, acts, (acts.fits fits).up, post⟩
  | calling acts bare next => exact ⟨_, acts, (acts.fits fits).up, bare, next⟩
  | waiting acts rests next =>
    refine ⟨_, _, _, acts, rests, fun t k mine seat other => ?_, next⟩
    have fits := acts.fits fits
    rw [rests.standing fits.seats other]
    refine fits.up t k ?_ (by rwa [← rests.alike.thread])
    rwa [Stance.mine, rests.same.2.1, rests.same.2.2] at mine

theorem Lands.prepend {σ1 : Stance} (before : Acts σ e σ1 e1) (h : Lands Q σ1 e1 c) :
    Lands Q σ e c := by
  cases c with
  | done | raised | calling =>
    obtain ⟨σ', acts, post⟩ := h
    exact ⟨σ', before.trans acts, post⟩
  | waiting =>
    obtain ⟨σ1, e1, σ', acts, post⟩ := h
    exact ⟨σ1, e1, σ', before.trans acts, post⟩

theorem Stance.follow_same (h : σ.known = e.threads.size) : σ.follow e = σ := by
  simp [← h]

theorem Stays.abides {w' : Wait} {b : Engine} (h : Stays σ e w w' b) : Abides σ e b := by
  obtain ⟨c, -, rouses, rests, -⟩ := h.rests
  have alike := (alike_acquire e .engine).trans (rouses.alike.trans rests.alike)
  refine ⟨fun taken => absurd taken h.free, alike.ages, fun t _ => alike.thread t,
    fun t x _ _ => ?_, fun c _ => ?_, fun who _ => ?_⟩
  · rw [alike.txn]
    exact .refl _
  · rw [rests.keeps.1, rouses.foreign]
    rfl
  · rw [rests.keeps.2.2, rouses.pauseMode]
    rfl

theorem lands_woken {resume : Engine → Course Engine α}
    (next : ∀ a b, σ.Meets e1 w a b → Walks Q (σ.woken w a) b (resume b)) (inv : e.Inv)
    (abides : Abides σ e1 e) (holds : σ.Holds e) (seats : e.Seats) (pauses : σ.Pauses e)
    (known : σ.known = e.threads.size) (all : ∀ t ∈ σ.threads, t < e.threads.size)
    (up : ∀ t k, t ∈ σ.threads → (e.thread t).segment = some k → w.segment? ≠ some k →
      (e.segment k).standing = .running) (pausing : σ.pausing = w.pausing)
    (seeking : σ.seeking = w.seeking) (real : w ≠ .backoff) (ready : w.ready e = true)
    (sits : ∀ z, w.sleeper? = some z → Sits σ.threads w z e)
    (apart : w.goal? ≠ none → .bracket ∉ σ.held) :
    Lands Q σ e (Machine.woken w resume e) := by
  have mine : ∀ t k, σ.mine t → (e.thread t).segment = some k → t ∈ σ.threads :=
    fun t k mine seat =>
    mine.resolve_right (by rw [known]; exact Nat.not_le_of_lt (seat_lt seat))
  obtain ⟨b, run, wakes⟩ | ⟨w', b, run, stays⟩ :=
    Wait.wake_cases known all pausing seeking real ready sits apart
  · have alike := wakes.resumes.alike
    have fits : (σ.woken w e).Fits b := by
      refine ⟨wakes.acts.holds holds, wakes.acts.seats seats, fun t k own seat => ?_,
        wakes.acts.pauses pauses, ?_⟩
      · rw [alike.thread] at seat
        rw [wakes.standing k (seats.segment_lt seat)]
        split
        · rfl
        · next other =>
          refine up t k (mine t k ?_ seat) seat other
          rwa [wakes.acts.mine] at own
      · rw [alike.threads]
        exact le_rfl
    rw [Machine.woken, run]
    exact .prepend wakes.acts ((next e b ⟨inv, abides, wakes.resumes, fits⟩).lands fits)
  · obtain ⟨c, acts, rouses, rests, standing⟩ := stays.rests
    have alike := (alike_acquire e .engine).trans rouses.alike
    have seats' := acts.seats seats
    rw [Machine.woken, run]
    refine ⟨_, c, σ, acts, rests, fun t k own seat other => ?_, fun a d meets => ?_⟩
    · rw [rests.alike.thread, alike.thread] at seat
      rw [rests.standing seats' other, standing k (seats.segment_lt seat) (stays.segment ▸ other)]
      exact up t k (mine t k own seat) seat (stays.segment ▸ other)
    · have size : σ.known = b.threads.size := by rwa [rests.alike.threads, alike.threads]
      rw [Stance.follow_same size] at meets ⊢
      rw [stays.woken a]
      exact next a d ⟨meets.inv, abides.trans (stays.abides.trans meets.abides),
        stays.resumes a d meets.resumes,
        stays.woken a ▸ meets.fits⟩

end Lands
end TxHeap
