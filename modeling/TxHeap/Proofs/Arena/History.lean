import TxHeap.Proofs.Arena.Checking
import TxHeap.Proofs.Arena.Sweep

/-! Histories of an arena. Every request leaves it in order, and a payload belongs to its client
until it is given back: nothing but the client's own writes changes it. -/

namespace TxHeap.Arena
variable {p : UInt64}

section Order
variable {a : Arena} {cs : List Chunk}

theorem gaps_sorted {m : Memory} {off back : Nat} (h : Chain m off back cs) :
    (gaps off cs).Pairwise (· < ·) := by
  rw [gaps, List.pairwise_filterMap]
  refine (placed_sorted h).imp ?_
  rintro ⟨o, c⟩ ⟨o', c'⟩ lt p hp q hq
  dsimp only at hp hq lt
  split at hp <;> cases hp
  split at hq <;> cases hq
  exact lt

theorem Wf.bounded (h : Wf a cs) : a.Bounded where
  aligned := h.top_eq ▸ h.chain.span_mod
  managed := UInt64.le_iff_toNat_le.2 h.top_le
  backed := h.size_le

theorem Wf.verify_eq (h : Wf a cs) : a.verify = .ok none := by
  have short := length_le_span fun c hc => (h.chain.size_mem c hc).1
  have all := (Nat.zero_add _).trans h.top_eq.symm
  exact (h.bounded.verified_of_chain 0 0 rfl h.chain all (by rw [walkBound, h.top_eq]; omega)).1

end Order

inductive Request : Type 1
  | malloc (n : UInt64)
  | free (p : UInt64)
  | sweep
  | resize (n : UInt64)
  | walk {β : Type} (visit : β → UInt64 → UInt64 → Memory → Except Fault (Visit β)) (init : β)
  | reset
  /-- The client writes word `i` of the payload at `p`. -/
  | write (p : UInt64) (i : Nat) (v : UInt64)

namespace Request

/-- Carries the request out; its answer is dropped. -/
def run : Request → ArenaM Unit
  | .malloc n => do let _ ← Arena.malloc n
  | .free p => release p
  | .sweep => do let _ ← Arena.sweep
  | .resize n => modify fun a => (a.resize n).2
  | .walk visit init => do let _ ← Arena.walk visit init
  | .reset => modify Arena.reset
  | .write p i v => store (p.toNat / 8 + i) v

def Allowed (a : Arena) : Request → Prop
  | .free p => ∃ n, a.Live p n
  | .write p i _ => ∃ n, a.Live p n ∧ i < n
  | _ => True

/-- The client's own part of the request can fail. -/
def Faulty : Request → Prop
  | .walk visit _ => ∃ b p size m f, visit b p size m = .error f
  | _ => False

/-- The request does not give the payload at `p` back; `a'` is the arena after it. -/
def KeepsPayload (p : UInt64) (a' : Arena) : Request → Prop
  | .free q => q ≠ p
  | .reset => False
  | .walk _ _ => ∃ n, a'.Live p n
  | _ => True

/-- What a word of the payload at `p` is after the request, as far as the client knows. -/
def written (p : UInt64) (i : Nat) (old : UInt64) : Request → UInt64
  | .write q j v => if q = p ∧ j = i then v else old
  | _ => old

/-- Requests that free none of the payloads that `held` picks, from one arena to another. -/
inductive Run (held : UInt64 → Prop) : Arena → List Request → Arena → Prop
  | nil (a : Arena) : Run held a [] a
  | cons {a b c : Arena} {r : Request} {rs : List Request} (allowed : r.Allowed a)
      (next : r.run a = .ok () b ∨ ∃ f, r.run a = .error f b)
      (spared : ∀ p, held p → r.KeepsPayload p b) (rest : Run held b rs c) : Run held a (r :: rs) c

variable {a a' b : Arena} {r : Request}

structure Does (r : Request) (a a' : Arena) : Prop where
  good : a'.Good
  held : ∀ p n, a.Live p n → r.KeepsPayload p a' → a'.Live p n ∧
    ∀ i < n, a'.memory.word (p.toNat / 8 + i) = r.written p i (a.memory.word (p.toNat / 8 + i))
  memory_size : a'.memory.size = a.memory.size

section
variable (good : a.Good)
include good

theorem does_malloc (n : UInt64) : ∃ p a', Arena.malloc n a = .ok p a' ∧ (malloc n).Does a a' := by
  obtain ⟨failed, -⟩ | ⟨p, a', cs', k, run, -, wf, takes, -⟩ := malloc_spec good n
  · have same : Wf { a with failures := a.failures + 1 } a.chunks := { good with }
    exact ⟨0, _, failed, same.good,
      fun p n hp _ => ⟨(good.live_eq same p n).2 hp, fun _ _ => rfl⟩, rfl⟩
  · exact ⟨p, a', run, wf.good,
      fun q n hq _ => ⟨(takes.live q n).2 (.inl hq), fun i hi => takes.kept q n i hq hi⟩,
      takes.memory_size⟩

theorem does_free (live : ∃ n, a.Live p n) :
    ∃ a', release p a = .ok () a' ∧ (free p).Does a a' := by
  obtain ⟨n, hp⟩ := live
  obtain ⟨pre, post, chunks, place, -⟩ := good.split_at_live hp
  obtain ⟨a', run, wf, shrinks, -⟩ := release_spec good chunks place
  refine ⟨a', run, wf.good, fun q k hq spared => ?_, shrinks.memory_size⟩
  have still := (shrinks.live q k).2 ⟨hq, Ne.symm spared⟩
  exact ⟨still, fun i hi => shrinks.kept q k i still hi⟩

theorem does_sweep : ∃ n a', Arena.sweep a = .ok n a' ∧ sweep.Does a a' := by
  obtain ⟨n, a', run, wf, shrinks, -⟩ := sweep_spec good
  refine ⟨n, a', run, wf.good, fun q k hq _ => ?_, shrinks.memory_size⟩
  have still := (shrinks.live q k).2 ⟨hq, trivial⟩
  exact ⟨still, fun i hi => shrinks.kept q k i still hi⟩

theorem does_resize (n : UInt64) : (resize n).Does a (a.resize n).2 := by
  unfold Arena.resize
  dsimp only
  split
  · exact ⟨good, fun q k hq _ => ⟨hq, fun _ _ => rfl⟩, rfl⟩
  · next fits =>
    rw [not_or] at fits
    have wf := good.resize (UInt64.not_lt.1 fits.1) (UInt64.not_lt.1 fits.2)
    exact ⟨wf.good, fun q k hq _ => ⟨(good.live_eq wf q k).2 hq, fun _ _ => rfl⟩, rfl⟩

theorem does_walk {β : Type} (visit : β → UInt64 → UInt64 → Memory → Except Fault (Visit β))
    (init : β) :
    Ends (Arena.walk visit init) a (fun _ a' => (walk visit init).Does a a')
      fun _ a' => (walk visit init).Does a a' ∧ (walk visit init).Faulty := by
  have does : ∀ {calls : List Call} {a' : Arena}, Walked calls a a' →
      (walk visit init).Does a a' := by
    rintro calls a' ⟨good', shrinks⟩
    refine ⟨good', fun q k hq ⟨k', spared⟩ => ?_, shrinks.memory_size⟩
    have still := (shrinks.live q k).2 ⟨hq, ((shrinks.live q k').1 spared).2⟩
    exact ⟨still, fun i hi => shrinks.kept q k i still hi⟩
  refine .mono (walk_ends visit (I := fun _ _ => True) good
    (fun _ _ _ _ _ _ _ _ _ => trivial) trivial) ?_ ?_
  · rintro _ a' ⟨calls, -, -, walked⟩
    exact does walked
  · rintro f a' ⟨⟨calls, walked⟩, b, p, size, m, -, failed⟩
    exact ⟨does walked, b, p, size, m, f, failed⟩

theorem does_reset : reset.Does a a.reset := by
  have wf : Wf a.reset [] :=
    { chain := trivial
      top_eq := rfl
      last_eq := rfl
      free_perm := .refl _
      inUse_eq := rfl
      count_eq := rfl
      top_le := Nat.zero_le _
      size_le := good.size_le
      size_mod := good.size_mod
      small := good.small }
  exact ⟨wf.good, fun _ _ _ spared => spared.elim, rfl⟩

theorem does_write {i : Nat} (inside : ∃ n, a.Live p n ∧ i < n) (v : UInt64) :
    ∃ a', store (p.toNat / 8 + i) v a = .ok () a' ∧ (write p i v).Does a a' := by
  obtain ⟨n, hp, hi⟩ := inside
  have bounds := good.live_bounds hp
  have fits := good.top_le.trans good.size_le
  have wf := good.write_live hp hi v
  refine ⟨_, store_ok (by omega) v, wf.good,
    fun q k hq _ => ⟨(good.live_eq wf q k).2 hq, fun j hj => ?_⟩, Memory.size_write ..⟩
  rw [Memory.word_write, written]
  by_cases here : p = q
  · subst here
    by_cases same : i = j
    · rw [if_pos ⟨by rw [same], by omega⟩, if_pos ⟨rfl, same⟩]
    · rw [if_neg (by omega), if_neg fun h => same h.2]
  · have apart := good.live_apart hp hq here
    rw [if_neg (by omega), if_neg fun h => here h.1]

theorem run_ends (allowed : r.Allowed a) :
    Ends r.run a (fun _ a' => r.Does a a') fun _ a' => r.Does a a' ∧ r.Faulty := by
  cases r with
  | malloc n =>
    obtain ⟨p, a', run, does⟩ := does_malloc good n
    exact .bind (.of_ok run does)
  | free =>
    obtain ⟨a', run, does⟩ := does_free good allowed
    exact .of_ok run does
  | sweep =>
    obtain ⟨n, a', run, does⟩ := does_sweep good
    exact .bind (.of_ok run does)
  | resize n => exact does_resize good n
  | walk visit init => exact .bind (does_walk good visit init)
  | reset => exact does_reset good
  | write p i v =>
    obtain ⟨a', run, does⟩ := does_write good allowed v
    exact .of_ok run does

theorem step_does (allowed : r.Allowed a)
    (next : r.run a = .ok () b ∨ ∃ f, r.run a = .error f b) : r.Does a b := by
  have ends := run_ends good allowed
  rw [Ends] at ends
  obtain run | ⟨f, run⟩ := next
  · rwa [run] at ends
  · rw [run] at ends
    exact ends.1

end

variable {held : UInt64 → Prop} {rs : List Request}

theorem Run.good (run : Run held a rs b) (good : a.Good) : b.Good := by
  induction run with
  | nil => exact good
  | cons allowed next _ _ ih => exact ih (step_does good allowed next).good

theorem Run.memory_size (run : Run held a rs b) (good : a.Good) :
    b.memory.size = a.memory.size := by
  induction run with
  | nil => rfl
  | cons allowed next _ _ ih =>
    have does := step_does good allowed next
    exact (ih does.good).trans does.memory_size

/-- A payload that no request gives back stays in use, and reads as its client left it. -/
theorem Run.holds (run : Run held a rs b) (good : a.Good) (hp : held p) {n : Nat}
    (live : a.Live p n) :
    b.Live p n ∧ ∀ i < n, b.memory.word (p.toNat / 8 + i) =
      rs.foldl (fun old r => r.written p i old) (a.memory.word (p.toNat / 8 + i)) := by
  induction run with
  | nil => exact ⟨live, fun _ _ => rfl⟩
  | cons allowed next spared _ ih =>
    have does := step_does good allowed next
    obtain ⟨still, words⟩ := does.held p n live (spared p hp)
    obtain ⟨last, later⟩ := ih does.good still
    exact ⟨last, fun i hi => by rw [later i hi, words i hi, List.foldl_cons]⟩

end Request

/-- The redundant views of the chunks agree. -/
structure InOrder (a : Arena) : Prop where
  /-- The chunks cover the bytes below the top, and each names the size of the one before it. -/
  tiled : Chain a.memory 0 0 a.chunks ∧ span a.chunks = a.top.toNat
  sizes : ∀ c ∈ a.chunks, c.size % 16 = 0 ∧ 32 ≤ c.size
  highest : 0 < a.top → ∃ lower c, a.chunks = lower ++ [c] ∧ a.last.toNat = span lower
  listed_once : a.free.toList.Nodup
  listed : ∀ off, off ∈ a.free ↔ off.toNat ∈ gaps 0 a.chunks
  used : a.inUse.toNat = span (a.chunks.filter (!·.free))
  counted : (a.mallocs - a.frees).toNat = a.chunks.countP (!·.free)
  bounded : a.top ≤ a.size ∧ a.size ≤ a.capacity
  verified : a.verify = .ok none

theorem Good.inOrder {a : Arena} (h : a.Good) : a.InOrder where
  tiled := ⟨h.chain, h.top_eq.symm⟩
  sizes c hc := (h.chain.size_mem c hc).symm
  highest pos := by
    have last := h.last_eq
    obtain empty | ⟨lower, c, chunks⟩ := List.eq_nil_or_concat a.chunks
    · have top := h.top_eq
      rw [UInt64.lt_iff_toNat_lt, top, empty] at pos
      exact absurd pos (Nat.lt_irrefl 0)
    · rw [List.concat_eq_append] at chunks
      refine ⟨lower, c, chunks, ?_⟩
      rw [chunks] at last
      simp only [endBack_append, endBack, span_append, span_cons, span_nil] at last
      omega
  listed_once := by
    have once := (gaps_sorted h.chain).imp fun lt => Nat.ne_of_lt lt
    exact List.Pairwise.of_map (·.toNat) (fun _ _ => mt (congrArg _)) (h.free_perm.nodup_iff.2 once)
  listed off := by
    rw [← h.free_perm.mem_iff, ← Array.mem_toList_iff, List.mem_map_of_injective fun _ _ =>
      UInt64.toNat.inj]
  used := h.inUse_eq
  counted := by
    have short := length_le_span fun c hc => (h.chain.size_mem c hc).1
    have small := h.span_small
    have most := a.chunks.countP_le_length (p := (!·.free))
    rw [h.count_eq, UInt64.add_comm, UInt64.add_sub_cancel, Word.toNat_ofNat_lt (by omega)]
  bounded := by
    refine ⟨UInt64.le_iff_toNat_le.2 h.top_le, UInt64.le_iff_toNat_le.2 ?_⟩
    rw [h.capacity_eq]
    exact h.size_le
  verified := h.verify_eq

open Request in
/-- Every history of a new arena keeps it in order, and leaves it ready for any further request. -/
theorem history_inOrder {m : Memory} {size : UInt64} {a b : Arena} {rs : List Request}
    (small : m.size < 2 ^ 60) (new : ofMemory m size = .ok a) (run : Run (fun _ => False) a rs b) :
    b.InOrder ∧ ∀ r : Request, r.Allowed b → r.Faulty ∨ ∃ c, r.run b = .ok () c := by
  have good := run.good (wf_ofMemory small new).good
  refine ⟨good.inOrder, fun r allowed => ?_⟩
  have ends := run_ends good allowed
  rw [Ends] at ends
  cases answer : r.run b with
  | ok u c => exact .inr ⟨c, rfl⟩
  | error =>
    rw [answer] at ends
    exact .inl ends.2

def oneUsed : Arena :=
  { memory := ⟨32, #[0, 32]⟩, size := 256, top := 32, inUse := 32, mallocs := 1 }

def twoUsed : Arena := { memory := ⟨32, #[0, 32, 0, 0, 32, 48]⟩, size := 256, top := 80, last := 32
                         inUse := 80, mallocs := 2 }

def blank : Arena := { memory := .zeros 32, size := 256 }

theorem new_blank : ofMemory (.zeros 32) 256 = .ok blank := rfl

open Request in
theorem reaches_oneUsed {b : Arena} {rs : List Request} (rest : Run (fun _ => False) oneUsed rs b) :
    Run (fun _ => False) blank (.malloc 16 :: rs) b :=
  .cons trivial (.inl rfl) nofun rest

open Request in
theorem reaches_twoUsed {b : Arena} {rs : List Request} (rest : Run (fun _ => False) twoUsed rs b) :
    Run (fun _ => False) blank (.malloc 16 :: .malloc 24 :: rs) b :=
  reaches_oneUsed (.cons trivial (.inl rfl) nofun rest)

open Request in
/-- Two payloads are handed out and freed, one by a walk, and their chunks go back to the top. -/
theorem history_inOrder_emptied : ∃ a b, ofMemory (.zeros 32) 256 = .ok a ∧
    Run (fun _ => False) a [.malloc 16, .malloc 24, .free 16,
      .walk (fun (_ : Unit) _ _ _ => .ok { value := (), free := true }) (), .sweep] b ∧
      b.InOrder := by
  have run : Run (fun _ => False) blank [.malloc 16, .malloc 24, .free 16,
      .walk (fun (_ : Unit) _ _ _ => .ok { value := (), free := true }) (), .sweep]
      { memory := ⟨32, #[0, 33, 0, 0, 32, 49]⟩, size := 256, mallocs := 2, frees := 2
        coalesced := 2 } := by
    refine reaches_twoUsed ?_
    refine .cons
      ⟨2, by decide⟩ (.inl rfl) nofun ?_
    refine .cons
      trivial (.inl rfl) nofun ?_
    exact .cons trivial (.inl rfl) nofun (.nil _)
  exact ⟨_, _, new_blank, run, (history_inOrder (by decide) new_blank run).1⟩

open Request in
/-- A payload handed out is aligned, large enough, inside the arena, zero and apart from all others;
until it is given back it keeps its size and its words, but for what its client writes. -/
theorem malloc_hands_out {m : Memory} {size n p : UInt64} {a b c : Arena} {rs : List Request}
    (small : m.size < 2 ^ 60) (new : ofMemory m size = .ok a) (run : Run (fun _ => False) a rs b)
    (answer : malloc n b = .ok p c) (hp : p ≠ 0) :
    ∃ k, usable c.memory p = .ok (UInt64.ofNat (8 * k)) ∧ n.toNat ≤ 8 * k ∧ p.toNat % 16 = 0 ∧
      p.toNat + 8 * k ≤ c.size.toNat ∧
      (∀ q l, c.Live q l → q ≠ p → p.toNat + 8 * k ≤ q.toNat - 16 ∨
        q.toNat + 8 * l ≤ p.toNat - 16) ∧
      (∀ i < k, c.memory.word (p.toNat / 8 + i) = 0) ∧
      ∀ rs' d, Run (· = p) c rs' d → usable d.memory p = .ok (UInt64.ofNat (8 * k)) ∧
        ∀ i < k, d.memory.word (p.toNat / 8 + i) =
        rs'.foldl (fun old r => r.written p i old) 0 := by
  have good := run.good (wf_ofMemory small new).good
  obtain ⟨failed, -⟩ | ⟨p', c', cs, k, got, -, wf, takes, enough, -⟩ := malloc_spec good n
  · rw [answer] at failed
    cases failed
    exact absurd rfl hp
  · rw [answer] at got
    cases got
    have live := (takes.live p k).2 (.inr ⟨rfl, rfl⟩)
    have bounds := wf.live_bounds live
    refine ⟨k, wf.usable_eq live, enough, bounds.1, Nat.le_trans bounds.2.2.2 wf.top_le,
      fun q l hq hne => ?_, takes.zero,
      fun rs' d later => ?_⟩
    · have apart := wf.live_apart live hq (.symm hne)
      omega
    · obtain ⟨still, words⟩ := later.holds wf.good rfl live
      refine ⟨(later.good wf.good).usable_eq still, fun i hi => ?_⟩
      rw [words i hi, takes.zero i hi]

open Request in
/-- A payload is written to, and its neighbour is freed and swept. -/
theorem malloc_hands_out_beside :
    ∃ a b c d, ofMemory (.zeros 32) 256 = .ok a ∧ Run (fun _ => False) a [.malloc 16] b ∧
    malloc 24 b = .ok 48 c ∧ Run (· = 48) c [.write 48 1 7, .free 16, .sweep] d ∧
    ∃ k, 24 ≤ 8 * k ∧ usable d.memory 48 = .ok (UInt64.ofNat (8 * k)) ∧ d.memory.word 7 = 7 := by
  have before := reaches_oneUsed (.nil _)
  have answer : malloc 24 oneUsed = .ok 48 twoUsed := rfl
  have after : Run (· = 48) twoUsed [.write 48 1 7, .free 16, .sweep]
      { twoUsed with
        memory := ⟨32, #[0, 33, 0, 0, 32, 48, 0, 7]⟩, free := #[0], inUse := 48
        frees := 1 } := by
    refine .cons ⟨4, by decide⟩ (.inl rfl) (fun _ _ => trivial) ?_
    refine .cons ⟨2, by decide⟩ (.inl rfl) (fun p hp => ?_) (b := { twoUsed with
      memory := ⟨32, #[0, 33, 0, 0, 32, 48, 0, 7]⟩, free := #[0], inUse := 48, frees := 1 }) ?_
    · rw [hp]
      exact (by decide : (16 : UInt64) ≠ 48)
    · exact .cons trivial (.inl rfl) (fun _ _ => trivial) (.nil _)
  obtain ⟨k, -, enough, -, -, -, -, later⟩ :=
    malloc_hands_out (by decide) new_blank before answer (by decide)
  have enough : 24 ≤ 8 * k := enough
  obtain ⟨size, words⟩ := later _ _ after
  exact ⟨_, _, _, _, new_blank, before, answer, after, k, enough, size, words 1 (by omega)⟩

open Request in
/-- In every state that a history leads to, a request is refused exactly if no listed chunk is large
enough and there is no room above the top; then only the count of failures changes. -/
theorem malloc_refused_iff {m : Memory} {size : UInt64} {a b : Arena} {rs : List Request}
    (small : m.size < 2 ^ 60)
    (new : ofMemory m size = .ok a) (run : Run (fun _ => False) a rs b) (n : UInt64) :
    ∃ p c, malloc n b = .ok p c ∧ (p = 0 ↔ ¬ b.Fits n.toNat b.size.toNat) ∧
      (p = 0 → c = { b with failures := b.failures + 1 }) := by
  have good := run.good (wf_ofMemory small new).good
  obtain ⟨failed, misfit⟩ | ⟨p, c, cs, k, got, hp, -, -, -, fits, -⟩ := malloc_spec good n
  · exact ⟨0, _, failed, ⟨fun _ => misfit, fun _ => rfl⟩, fun _ => rfl⟩
  · exact ⟨p, c, got, ⟨fun zero => absurd zero hp, fun misfit => absurd fits misfit⟩,
      fun zero => absurd zero hp⟩

open Request in
/-- The largest request of all is refused, though its rounded size wraps to nothing. -/
theorem malloc_refused_iff_largest :
    ∃ a b c, ofMemory (.zeros 32) 256 = .ok a ∧ Run (fun _ => False) a [.malloc 16] b ∧
    malloc 18446744073709551615 b = .ok 0 c ∧ ¬ b.Fits 18446744073709551615 256 ∧
    c = { b with failures := 1 } := by
  have before := reaches_oneUsed (.nil _)
  obtain ⟨p, c, answer, refused, same⟩ :=
    malloc_refused_iff (by decide) new_blank before 18446744073709551615
  have zero : p = 0 := refused.2 (by
    rintro (⟨off, listed, -⟩ | room)
    · exact absurd listed (Array.not_mem_empty off)
    · exact absurd room (by decide))
  subst zero
  exact ⟨_, _, _, new_blank, before, answer, refused.1 rfl, same rfl⟩

section Walk
variable {β : Type} (visit : β → UInt64 → UInt64 → Memory → Visit β)

/-- The visitor, with a record of its calls. -/
def recorded (x : β × List Call) (p size : UInt64) (m : Memory) :
    Except Fault (Visit (β × List Call)) :=
  let v := visit x.1 p size m
  .ok { v with value := (v.value, x.2 ++ [⟨p, size, v.free, v.stop⟩]) }

theorem tour_recorded (ps : List (UInt64 × UInt64)) (x : β × List Call) :
    Prod.fst <$> tour (recorded visit) ps x =
    tour (fun b p size m => .ok (visit b p size m)) ps x.1 := by
  induction ps generalizing x with
  | nil => rfl
  | cons q ps ih =>
    obtain ⟨p, size⟩ := q
    funext a
    have told : inspect (recorded visit x p size) a = .ok _ a := inspect_ok rfl
    have plain : inspect (fun m => .ok (visit x.1 p size m)) a = .ok _ a := inspect_ok rfl
    rw [tour, tour, map_bind, bind_ok told, bind_ok plain]
    obtain ⟨value, free, stop⟩ := visit x.1 p size a.memory
    have rest : Prod.fst <$> (if stop then pure (value, x.2 ++ [⟨p, size, free, stop⟩])
          else tour (recorded visit) ps (value, x.2 ++ [⟨p, size, free, stop⟩])) =
        if stop then pure value else tour (fun b p size m => .ok (visit b p size m)) ps value := by
      cases stop with
      | true => rfl
      | false => exact ih _
    cases free with
    | false => exact congrFun rest a
    | true => exact congrFun ((map_bind ..).trans (bind_congr fun _ => rest)) a

open Request in
/-- In every state that a history leads to, a walk calls its visitor for the payloads in use, with
their sizes and in address order, up to one at which it stops if it does. What is in use afterwards
is what the visitor did not free. -/
theorem walk_visits {m : Memory} {size : UInt64} {a b : Arena} {rs : List Request}
    (small : m.size < 2 ^ 60)
    (new : ofMemory m size = .ok a) (run : Run (fun _ => False) a rs b) (init : β) :
    ((shown 0 b.chunks).map (·.1)).Pairwise (· < ·) ∧
    (∀ p s, (p, s) ∈ shown 0 b.chunks ↔ (∃ n, b.Live p n) ∧ usable b.memory p = .ok s) ∧
    ∃ value calls c, walk (recorded visit) (init, []) b = .ok (value, calls) c ∧
      walk (fun x p s m => .ok (visit x p s m)) init b = .ok value c ∧
      calls.map (fun k => (k.payload, k.size)) <+: shown 0 b.chunks ∧
      ((∀ k ∈ calls, k.stop = false) →
        calls.map (fun k => (k.payload, k.size)) = shown 0 b.chunks) ∧
      (∀ k ∈ calls.dropLast, k.stop = false) ∧
      (∀ p n, c.Live p n ↔ b.Live p n ∧ ∀ k ∈ calls, k.payload = p → k.free = false) ∧
      (∀ p n i, c.Live p n → i < n →
        c.memory.word (p.toNat / 8 + i) = b.memory.word (p.toNat / 8 + i)) ∧ c.InOrder := by
  have good := run.good (wf_ofMemory small new).good
  refine ⟨good.shown_sorted, fun p s => ?_, ?_⟩
  · rw [good.mem_shown]
    constructor
    · rintro ⟨n, live, rfl⟩
      exact ⟨⟨n, live⟩, good.usable_eq live⟩
    · rintro ⟨⟨n, live⟩, told⟩
      exact ⟨n, live, Except.ok.inj (told.symm.trans (good.usable_eq live))⟩
  · have ends := walk_ends (recorded visit) (I := fun x calls => x.2 = calls) good
      (fun x calls p s m v _ told answer => by cases answer; exact congrArg (· ++ _) told)
        (b := (init, [])) rfl
    rw [Ends] at ends
    cases walked : walk (recorded visit) (init, []) b with
    | error f c =>
      rw [walked] at ends
      obtain ⟨-, x, p, s, m, -, failed⟩ := ends
      cases failed
    | ok x c =>
      rw [walked] at ends
      obtain ⟨calls, told, made, done, shrinks⟩ := ends
      obtain ⟨value, seen⟩ := x
      cases told
      obtain ⟨part, whole, going⟩ := made.shows
      refine ⟨value, seen, c, rfl, ?_, part, whole, going, shrinks.live, shrinks.kept, done.inOrder⟩
      rw [good.walk_eq_tour] at walked
      rw [good.walk_eq_tour, ← tour_recorded visit _ (init, []), map_eq_pure_bind, bind_ok walked]
      rfl

open Request in
/-- Of two payloads the walk frees the first and stops at the second. -/
theorem walk_visits_freeing : ∃ a b value calls c, ofMemory (.zeros 32) 256 = .ok a ∧
    Run (fun _ => False) a [.malloc 16, .malloc 24] b ∧
    walk (recorded fun n _ _ _ => ⟨n + 1, n == 0, n == 1⟩) (0, []) b = .ok (value, calls) c ∧
    calls = [⟨16, 16, true, false⟩, ⟨48, 32, false, true⟩] ∧ c.InOrder := by
  have run := reaches_twoUsed (.nil _)
  have walked : walk (recorded fun n _ _ _ => ⟨n + 1, n == 0, n == 1⟩) (0, []) twoUsed =
      .ok (2, [⟨16, 16, true, false⟩, ⟨48, 32, false, true⟩])
        { twoUsed with
          memory := ⟨32, #[0, 33, 0, 0, 32, 48]⟩, free := #[0], inUse := 48
          frees := 1 } := rfl
  obtain ⟨-, -, value, calls, c, again, -, -, -, -, -, -, order⟩ :=
    walk_visits (fun n _ _ _ => ⟨n + 1, n == 0, n == 1⟩) (by decide) new_blank run 0
  cases walked.symm.trans again
  exact ⟨_, _, _, _, _, new_blank, run, walked, rfl, order⟩

end Walk
end TxHeap.Arena
