import TxHeap.Proofs.Machine.Run
import TxHeap.Proofs.Sync.Bracket

/-! Calls made of other calls. Between two stops such a call has gone through stretches, each of one
of its threads. -/

namespace TxHeap
open Engine TxHeap.Action

variable {u : ThreadId} {threads : List ThreadId} {e e' e0 : Engine} {m : Mutex}

namespace Engine

def Acting (threads : List ThreadId) (e : Engine) (u : ThreadId) : Prop :=
  u ∈ threads ∨ e.threads.size ≤ u

def Roomy (e : Engine) : Prop := e.clock.toNat + 4 < 2 ^ 63

inductive Strides (threads : List ThreadId) (e : Engine) : Nat → Engine → Prop
  | start (inv : e.Inv) : Strides threads e 0 e
  | lull {n : Nat} {e1 e2 : Engine} (before : Strides threads e n e1) (h : Lull e1 e2)
      (engine : .engine ∈ e1.locked → .engine ∈ e2.locked) (inv : e2.Inv) : Strides threads e n e2
  | stretch {n : Nat} {e1 e2 : Engine} {who : Actor} (before : Strides threads e n e1)
      (own : ∀ u, who.thread = some u → Acting threads e u) (h : Stretch who e1 e2) (inv : e2.Inv) :
      Strides threads e (n + 1) e2

namespace Strides
variable {n : Nat} {who : Actor}

section
variable (h : Strides threads e n e')
include h

theorem inv : e'.Inv := by
  cases h with
  | start inv | lull before h engine inv | stretch before own h inv => exact inv

theorem ages : Ages e e' := by
  induction h with
  | start => exact (Alike.refl e).ages
  | lull before h engine inv ih => exact ih.trans h.alike.ages
  | stretch before own h inv ih => exact ih.trans h.ages

theorem engine : .engine ∈ e.locked → .engine ∈ e'.locked := by
  induction h with
  | start => exact id
  | lull before h engine inv ih => exact engine ∘ ih
  | stretch before own h inv ih => exact fun held => h.locks (ih held) (ih held)

theorem feats (free : .engine ∉ e'.locked) : Feats (Acting threads e) e e' := by
  induction h with
  | start => exact .start
  | lull before h engine inv ih =>
    have early := fun held => free (engine held)
    exact .step (ih early) before.inv.core (before.inv.weak early) (.lull h)
  | stretch before own h inv ih =>
    exact (ih fun held => free (h.locks held held)).trans ((h.feats free).mono own)

theorem clock : e'.clock.toNat ≤ e.clock.toNat + n := by
  induction h with
  | start => exact le_rfl
  | lull before h engine inv ih => rwa [h.alike.clock]
  | stretch before own h inv ih =>
    obtain same | next := h.clock
    · rw [same]
      omega
    · rw [next, UInt64.toNat_add]
      exact (Nat.mod_le _ _).trans (Nat.succ_le_succ ih)

theorem elsewhere (other : u ∉ threads) (known : u < e.threads.size) :
    e'.thread u = e.thread u ∧ ∀ x, (e.thread u).txn = some x → (e.txn x).Blanks (e'.txn x) := by
  induction h with
  | start => exact ⟨rfl, fun _ _ => .refl _⟩
  | lull before h engine inv ih =>
    exact ⟨by rw [h.alike.thread, ih.1], fun x hx => by rw [h.alike.txn]; exact ih.2 x hx⟩
  | @stretch n e1 e2 who before own h inv ih =>
    have rely : Rely ⟨some u, none⟩ e1 e2 := h.rely before.inv.core fun t ht => by
      cases ht
      refine ⟨fun mine => ?_, known.trans_le before.ages.threads_size⟩
      exact (own u mine).elim other (Nat.not_le_of_lt known)
    exact ⟨(rely.thread u rfl).trans ih.1,
      fun x hx => (ih.2 x hx).trans (rely.txn u x rfl (by rwa [ih.1]))⟩

end

theorem next {e1 e2 : Engine} (before : Strides threads e n e1) (hn : n ≤ 2) (roomy : e.Roomy)
    (own : ∀ u, who.thread = some u → Acting threads e u) (h : Stretch who e1 e2) :
    Strides threads e (n + 1) e2 := by
  refine before.stretch own h (h.inv ?_)
  have early := before.clock
  rw [Roomy] at roomy
  have late : e2.clock.toNat ≤ e1.clock.toNat + 1 := by
    obtain same | next := h.clock
    · rw [same]
      exact Nat.le_succ _
    · rw [next, UInt64.toNat_add]
      exact Nat.mod_le _ _
  omega

end Strides

def Goes (threads : List ThreadId) (e e' : Engine) : Prop := ∃ n ≤ 3, Strides threads e n e'

theorem Goes.ages (h : Goes threads e e') : Ages e e' := have ⟨_, _, strides⟩ := h
  strides.ages

theorem Goes.clock (h : Goes threads e e') : e'.clock.toNat ≤ e.clock.toNat + 3 :=
  have ⟨_, hn, strides⟩ := h
  strides.clock.trans (Nat.add_le_add_left hn _)

def joined (threads : List ThreadId) (e e' : Engine) : List ThreadId :=
  threads ++ List.range' e.threads.size (e'.threads.size - e.threads.size)

theorem Acting.joined (h : Acting threads e u) (known : u < e'.threads.size) :
    u ∈ joined threads e e' :=
  Stance.Tracks.follows (σ := .start none threads e) ⟨h, known⟩

theorem Acting.stays {a : Engine} (h : Acting threads e0 u ∧ u < e.threads.size)
    (ages : Ages e e') (ages' : Ages e' a) : u ∈ Engine.joined threads e0 e' ∧ u < a.threads.size :=
  have known := h.2.trans_le ages.threads_size
  ⟨h.1.joined known, known.trans_le ages'.threads_size⟩

end Engine

variable {α β : Type}

abbrev Going (threads : List ThreadId) (e : Engine) (_ : Except Raise α) (e' : Engine) : Prop :=
  Goes threads e e'

/-- Whenever the course stops, the call has done what one does at a time, and it ends within `Q`. -/
def Treads (control : Option Nat) (Q : List ThreadId → Engine → Post α) :
    List ThreadId → Engine → Course Engine α → Prop
  | threads, e, .done a e' => Q threads e (.ok a) e'
  | threads, e, .raised v e' => Q threads e (.error v) e'
  | threads, e, .waiting w e' resume => Goes threads e e' ∧
    ∀ a b, a.Inv → a.Roomy → Abides (.start control (joined threads e e') e') e' a → w.Grants a b →
      Treads control Q (joined threads e e') a (resume b)
  | threads, e, .calling _ e' resume => Goes threads e e' ∧
    ∀ r a, a.Inv → a.Roomy → Ages e' a → Treads control Q (joined threads e e') a (resume r a)

namespace Treads
variable {control : Option Nat} {Q Q' : List ThreadId → Engine → Post α}
  {P : List ThreadId → Engine → Post β}
  {c : Course Engine α}

theorem mono (h : Treads control Q threads e c)
    (hQ : ∀ threads e out e', Q threads e out e' → Q' threads e out e') :
    Treads control Q' threads e c := by
  induction c generalizing threads e with
  | done | raised => exact hQ _ _ _ _ h
  | waiting w e' resume ih =>
    exact ⟨h.1, fun a b inv roomy abides grants => ih b (h.2 a b inv roomy abides grants)⟩
  | calling f e' resume ih => exact ⟨h.1, fun r a inv roomy ages => ih r a (h.2 r a inv roomy ages)⟩

protected theorem bind {f : α → Engine → Course Engine β}
    (h : Treads control (fun threads e out e' => match out with
      | .ok a => Treads control P threads e (f a e')
      | .error v =>
        P threads e (.error v) e') threads e c) : Treads control P threads e (c.bind f) := by
  induction c generalizing threads e with
  | done | raised => exact h
  | waiting w e' resume ih =>
    exact ⟨h.1, fun a b inv roomy abides grants => ih b (h.2 a b inv roomy abides grants)⟩
  | calling f e' resume ih => exact ⟨h.1, fun r a inv roomy ages => ih r a (h.2 r a inv roomy ages)⟩

end Treads

def Parts (who : Actor) (R : Engine → Post α) (n : Nat) (threads : List ThreadId) (e0 : Engine)
    (out : Except Raise α) (e : Engine) : Prop :=
  ∃ m a, m ≤ n ∧ Strides threads e0 (m + 1) e ∧ e0.Roomy ∧
    e0.threads.size ≤ a.threads.size ∧ R a out e ∧
    ∀ u, who.thread = some u → Acting threads e0 u ∧ u < e.threads.size

theorem Sound.treads {control : Option Nat} {who : Actor} {R : Engine → Post α}
    {c : Course Engine α} {n : Nat} (h : Sound who R e c) (before : Strides threads e0 n e)
    (hn : n ≤ 2)
    (roomy : e0.Roomy) (own : ∀ u, who.thread = some u → Acting threads e0 u ∧ u < e.threads.size)
    (stretch : ∀ a out b, R a out b → Stretch who a b) :
    Treads control (Parts who R n) threads e0 c := by
  have ends : ∀ {threads e0 e n} (out : Except Raise α) {b}, Strides threads e0 n e →
      n ≤ 2 → e0.Roomy →
      (∀ u, who.thread = some u → Acting threads e0 u ∧ u < e.threads.size) → R e out b →
        Parts who R n threads e0 out b :=
    fun {threads e0 e n} out {b} before hn roomy own post =>
      have h := stretch _ _ _ post
      ⟨n, e, Nat.le_refl n, before.next hn roomy (fun u hu => (own u hu).1) h, roomy,
        before.ages.threads_size, post,
        fun u hu => ⟨(own u hu).1, (own u hu).2.trans_le h.ages.threads_size⟩⟩
  have fewer : ∀ {threads e0 out b}, Parts who R 0 threads e0 out b →
      Parts who R n threads e0 out b :=
    fun ⟨m, a, hm, post⟩ => ⟨m, a, hm.trans (Nat.zero_le n), post⟩
  induction c generalizing threads e0 e n with
  | done | raised => exact ends _ before hn roomy own h
  | waiting w e' resume ih =>
    refine ⟨⟨n + 1, by omega, before.next hn roomy (fun u hu => (own u hu).1) h.1⟩,
      fun a b inv roomy abides grants => ?_⟩
    have stays := fun u hu => Acting.stays (own u hu) h.1.ages abides.ages
    have rely : Rely who e' a :=
      ⟨abides.locks, abides.ages, fun u hu => abides.thread u (stays u hu).1,
        fun u x hu hx => abides.txn u x (stays u hu).1 hx⟩
    exact (ih b (h.2 a b inv rely grants) (.start inv) (Nat.zero_le 2) roomy
      (fun u hu => ⟨.inl (stays u hu).1, (stays u hu).2⟩)
      id).mono fun _ _ _ _ => fewer
  | calling f e' resume ih =>
    refine ⟨⟨n + 1, by omega, before.next hn roomy (fun u hu => (own u hu).1) h.1⟩,
      fun r a inv roomy ages => ?_⟩
    have stays := fun u hu => Acting.stays (own u hu) h.1.ages ages
    exact (ih r a (h.2 r a inv ages) (.start inv) (Nat.zero_le 2) roomy
      (fun u hu => ⟨.inl (stays u hu).1, (stays u hu).2⟩)
      id).mono fun _ _ _ _ => fewer

section Bracket
variable {P : List ThreadId → Engine → Post β} {c n : Nat} {t : ThreadId} {x : TxnId}
  {token : Token}

theorem Engine.Inv.alike (h : e.Inv) (same : Alike e e')
    (engine : .engine ∈ e'.locked ↔ .engine ∈ e.locked)
    (loose : ∀ t, .stack t ∈ e'.locked → .stack t ∈ e.locked) : e'.Inv where
  core := h.core.alike same
  ticks := by rw [same.clock]; exact h.ticks
  weak free k := (h.weak (fun taken => free (engine.2 taken)) k).alike same
  locks t taken := engine.2 (h.locks t (loose t taken))

theorem Engine.Strides.bracket (h : Strides threads e0 n e) (same : Lull e e')
    (locked : ∀ m, m ≠ .bracket → (m ∈ e'.locked ↔ m ∈ e.locked)) : Strides threads e0 n e' :=
  h.lull same (locked _ (by decide)).2
    (h.inv.alike same.alike (locked _ (by decide)) fun _ => (locked _ (by nofun)).1)

theorem Engine.mem_acquire (other : m ≠ .bracket) : m ∈ (e.acquire .bracket).locked ↔
    m ∈ e.locked := by
  simp [acquire, other]

theorem Engine.mem_giveUp (other : m ≠ .bracket) : m ∈ (e.giveUp .bracket).locked ↔ m ∈ e.locked :=
  List.mem_erase_of_ne other

theorem treads_bracket {f : Unit → EngineCall β} (before : Strides threads e0 n e) (hn : n ≤ 3)
    (roomy : e0.Roomy)
    (next : ∀ threads' e0' m e', Strides threads' e0' m e' → m ≤ n → e0'.Roomy →
      (∀ u, Acting threads e0 u → u < e.threads.size → Acting threads' e0' u ∧
        u < e'.threads.size) →
      e'.foreign.lookup c = e.foreign.lookup c → Treads (some c) P threads' e0' (f () e')) :
    Treads (some c) P threads e0 ((lock .bracket >>= f) e) := by
  by_cases taken : .bracket ∈ e.locked
  · rw [bind_run, lock_taken taken]
    refine ⟨⟨n, hn, before⟩, fun a b inv roomy abides grants => ?_⟩
    obtain ⟨-, rfl⟩ := grants
    refine next _ a 0 _ (.bracket (.start inv) (lull_acquire a .bracket) fun _ => mem_acquire)
      (Nat.zero_le n) roomy
      (fun u acting known => ⟨.inl (acting.joined known), known.trans_le abides.ages.threads_size⟩)
      (abides.foreign c rfl)
  · rw [bind_done (lock_free taken)]
    exact next threads e0 n _ (before.bracket (lull_acquire e .bracket) fun _ => mem_acquire)
      (Nat.le_refl n) roomy
      (fun u acting known => ⟨acting, known⟩) rfl

theorem treads_frame (before : Strides threads e0 n e) (hn : n ≤ 2) (roomy : e0.Roomy)
    (own : Acting threads e0 (e.txn x).thread ∧ (e.txn x).thread < e.threads.size)
    (started : Bool) :
    Treads (some c) Going threads e0
    ((becomeInevitable x "callback" >>= fun _ => noteBracket c t token started) e) := by
  have sound := sound_becomeInevitable before.inv (x := x) rfl "callback"
  refine .bind ((sound.treads before hn roomy (by rintro _ ⟨⟩; exact own) fun _ _ _ => id).mono
    fun threads' e0' out b post => ?_)
  obtain ⟨m, -, hm, strides, -⟩ := post
  cases out with
  | error => exact ⟨m + 1, by omega, strides⟩
  | ok =>
    rw [noteBracket, look_bind]
    exact ⟨m + 1, by omega, strides.bracket (lull_foreign b _) fun _ _ => .rfl⟩

theorem treads_join (before : Strides threads e0 n e) (hn : n ≤ 1) (roomy : e0.Roomy)
    (own : Acting threads e0 t ∧ t < e.threads.size) :
    Treads (some c) Going threads e0 (openBracket c t token e) := by
  have tail : ∀ {threads' e0' m e'}, Strides threads' e0' m e' → m ≤ 2 → e0'.Roomy →
      Acting threads' e0' t ∧ t < e'.threads.size →
        ∀ started (f : Course Engine (ThreadId × Token)),
      ((e'.thread t).txn = none → f = noteBracket c t token started e') →
      (∀ x, (e'.thread t).txn = some x →
        f = (do becomeInevitable x "callback"; noteBracket c t token started : EngineCall _) e') →
      Treads (some c) Going threads' e0' f := by
    intro threads' e0' m e' strides hm roomy own started f none some
    cases held : (e'.thread t).txn with
    | none =>
      rw [none held, noteBracket, look_bind]
      exact ⟨m, by omega, strides.bracket (lull_foreign e' _) fun _ _ => .rfl⟩
    | some x =>
      obtain ⟨-, rfl, -⟩ := strides.inv.core.life.txn t x held
      rw [some _ held]
      exact treads_frame strides hm roomy own started
  rw [openBracket, look_bind]
  split
  · dsimp only
    have sound := @sound_begin ⟨some t, none⟩ _ _ before.inv rfl
    refine .bind
      ((sound.treads before (by omega) roomy (by rintro _ ⟨⟩; exact own) fun _ _ _ => id).mono
      fun threads' e0' out b post => ?_)
    obtain ⟨m, -, hm, strides, roomy, -, -, own⟩ := post
    cases out with
    | error => exact ⟨m + 1, by omega, strides⟩
    | ok =>
      rw [look_bind]
      exact tail strides (by omega) roomy (own t rfl) _ _ (fun held => by rw [held])
        fun _ held => by rw [held]
  · dsimp only
    rw [look_bind]
    exact tail before (by omega) roomy own (e.thread t).txn.isNone _ (fun held => by rw [held])
      fun _ held => by rw [held]

theorem treads_enter (inv : e.Inv) (roomy : e.Roomy)
    (own : ∀ f, e.foreign.lookup c = some f → Acting threads e f.thread ∧
      f.thread < e.threads.size) :
    Treads (some c) Going threads e (enter c e) := by
  refine treads_bracket (.start inv) (Nat.zero_le 3) roomy
    fun threads1 e0 m e1 strides hm roomy stays same => ?_
  rw [look_bind, same]
  cases found : e.foreign.lookup c with
  | some f =>
    dsimp only
    rw [pure_bind, unlock_bind]
    exact treads_join (strides.bracket (lull_giveUp e1 .bracket) fun _ => mem_giveUp)
      (by omega) roomy
      (stays _ (own f found).1 (own f found).2)
  | none =>
    have sound := @sound_register ⟨none, none⟩ _ strides.inv rfl
    refine .bind ((sound.treads strides (by omega) roomy nofun fun _ _ _ h => h.1).mono
      fun threads' e0' out b post => ?_)
    obtain ⟨k, a, hk, strides, roomy, earlier, post, -⟩ := post
    cases out with
    | error => exact ⟨k + 1, by omega, strides⟩
    | ok t =>
      obtain ⟨fresh, known⟩ := post.2 t rfl
      dsimp only
      rw [lift_done (updateForeign_run ..), pure_bind, unlock_bind]
      have foreign := strides.bracket (lull_foreign b (setForeign c { thread := t } b.foreign))
        fun _ _ => .rfl
      exact treads_join (foreign.bracket (lull_giveUp _ .bracket) fun _ => mem_giveUp)
        (by omega) roomy
        ⟨.inr (earlier.trans fresh), known⟩

theorem treads_retire (before : Strides threads e0 n e) (hn : n ≤ 2) (roomy : e0.Roomy)
    (own : Acting threads e0 t ∧ t < e.threads.size) :
    Treads (some c) Going threads e0 (retire c t token e) := by
  unfold retire
  split
  · rw [look_bind]
    split
    · exact ⟨n, by omega, before⟩
    refine treads_bracket before (by omega) roomy
      fun threads' e0' m e1 strides hm roomy stays _ => ?_
    have forgets := strides.bracket (lull_foreign e1 (e1.foreign.filter (·.1 != c))) fun _ _ => .rfl
    have gives := forgets.bracket (lull_giveUp _ .bracket) fun _ => mem_giveUp
    have sound := @sound_unregister ⟨some t, none⟩ t _ gives.inv rfl
    rw [Action.modify_bind, unlock_bind]
    refine (sound.treads gives (by omega) roomy (fun u hu => ?_) fun _ _ _ h => h).mono
      fun _ _ _ _ post => ?_
    · cases hu
      exact stays _ own.1 own.2
    · obtain ⟨k, -, hk, strides, -⟩ := post
      exact ⟨k + 1, by omega, strides⟩
  · exact ⟨n, by omega, before⟩

theorem treads_settle (before : Strides threads e0 n e) (hn : n ≤ 1) (roomy : e0.Roomy)
    (own : Acting threads e0 t ∧ t < e.threads.size) (started : Bool) :
    Treads (some c) Going threads e0 (closeBracket c t token started e) := by
  cases started with
  | false => exact treads_retire before (by omega) roomy own
  | true =>
    rw [closeBracket, if_pos rfl, look_bind]
    cases held : (e.thread t).txn with
    | none => exact treads_retire before (by omega) roomy own
    | some x =>
      obtain ⟨-, rfl, -⟩ := before.inv.core.life.txn t x held
      have sound := sound_commit before.inv (x := x) rfl
      refine .bind
        ((sound.treads before (by omega) roomy (by rintro _ ⟨⟩; exact own) fun _ _ _ => id).mono
        fun threads' e0' out b post => ?_)
      obtain ⟨m, -, hm, strides, roomy, -, -, own⟩ := post
      cases out with
      | error => exact ⟨m + 1, by omega, strides⟩
      | ok refused =>
        cases refused with
        | some => exact ⟨m + 1, by omega, strides⟩
        | none => exact treads_retire strides (by omega) roomy (own _ rfl)

theorem treads_leave (inv : e.Inv) (roomy : e.Roomy)
    (own : ∀ f, e.foreign.lookup c = some f → Acting threads e f.thread ∧
      f.thread < e.threads.size) :
    Treads (some c) Going threads e (leave c token e) := by
  refine treads_bracket (.start inv) (Nat.zero_le 3) roomy
    fun threads1 e0 m e1 strides hm roomy stays same => ?_
  have given := strides.bracket (lull_giveUp e1 .bracket) fun _ => mem_giveUp
  rw [look_bind, same, unlock_bind]
  cases found : e.foreign.lookup c with
  | none => exact ⟨m, by omega, given⟩
  | some f =>
    obtain ⟨t, _ | ⟨started, rest⟩⟩ := f
    · exact ⟨m, by omega, given⟩
    · have noted := given.bracket (lull_foreign _ (setForeign c ⟨t, rest⟩ e1.foreign))
        fun _ _ => .rfl
      dsimp only
      rw [lift_done (updateForeign_run ..)]
      split
      · exact ⟨m, by omega, noted⟩
      · exact treads_settle noted (by omega) roomy (stays _ (own _ found).1 (own _ found).2) started

end Bracket
end TxHeap
