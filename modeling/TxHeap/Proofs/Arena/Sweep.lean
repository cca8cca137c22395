import TxHeap.Proofs.Arena.Malloc
import TxHeap.Proofs.Region

/-! Giving payloads back: one, all that a walk picks, and a sweep, whose result as a list of chunks
is `coalesce`. What is in use afterwards was so before, and keeps its words. -/

namespace TxHeap.Arena
open Word

variable {a : Arena} {off p size : UInt64} {cs post pre : List Chunk} {high low : Nat}

/-- Of the payloads in use exactly those that `keep` picks stay, with their words. -/
structure Shrinks (a a' : Arena) (keep : UInt64 → Prop) : Prop where
  live : ∀ q n, a'.Live q n ↔ a.Live q n ∧ keep q
  kept : ∀ q n i, a'.Live q n → i < n →
    a'.memory.word (q.toNat / 8 + i) = a.memory.word (q.toNat / 8 + i)
  memory_size : a'.memory.size = a.memory.size
  mallocs : a'.mallocs = a.mallocs

namespace Shrinks
variable {b c : Arena} {P Q R : UInt64 → Prop}

theorem refl (h : ∀ q n, a.Live q n → P q) : Shrinks a a P :=
  ⟨fun q n => ⟨fun hq => ⟨hq, h q n hq⟩, fun hq => hq.1⟩, fun _ _ _ _ _ => rfl, rfl, rfl⟩

theorem trans (h : Shrinks a b P) (h' : Shrinks b c Q)
    (keep : ∀ q n, a.Live q n → (R q ↔ P q ∧ Q q)) : Shrinks a c R := by
  refine ⟨fun q n => ?_, fun q n i hq hi => ?_, h'.memory_size.trans h.memory_size,
    h'.mallocs.trans h.mallocs⟩
  · rw [h'.live, h.live]
    constructor
    · rintro ⟨⟨hq, hP⟩, hQ⟩
      exact ⟨hq, (keep q n hq).2 ⟨hP, hQ⟩⟩
    · rintro ⟨hq, hR⟩
      obtain ⟨hP, hQ⟩ := (keep q n hq).1 hR
      exact ⟨⟨hq, hP⟩, hQ⟩
  · rw [h'.kept q n i hq hi, h.kept q n i ((h'.live q n).1 hq).1 hi]

end Shrinks

theorem release_ok (h : chunkSize a.memory (p - overhead) = .ok size)
    (hbound : index (p - overhead) + 1 < a.memory.size) :
    release p a = .ok () { a with
      memory := a.memory.write (index (p - overhead) + 1) (size ||| freeBit)
      free := a.free.push (p - overhead)
      frees := a.frees + 1
      inUse := a.inUse - size } := by
  unfold release
  rw [bind_ok (inspect_ok h), bind_ok (setSize_ok hbound _ _)]
  rfl

theorem wf_release (h : Wf a (pre ++ ⟨size.toNat, false⟩ :: post))
    (hoff : off.toNat = span pre) : Wf { a with
        memory := a.memory.write (span pre / 8 + 1) (size ||| freeBit)
        free := a.free.push off
        frees := a.frees + 1
        inUse := a.inUse - size }
      (pre ++ ⟨size.toNat, true⟩ :: post) := by
  have here : (span pre, ⟨size.toNat, false⟩) ∈ placed 0 (pre ++ ⟨size.toNat, false⟩ :: post) := by
    simp
  have bounds := h.chain.placed_bounds here
  have small := h.span_small
  simp only at bounds
  refine
    { chain := ?_
      top_eq := by simpa using h.top_eq
      last_eq := by simpa [endBack_append, endBack] using h.last_eq
      free_perm := ?_
      inUse_eq := ?_
      count_eq := ?_
      top_le := h.top_le
      size_le := by simpa using h.size_le
      size_mod := h.size_mod
      small := by simpa using h.small }
  · refine h.chain.retag rfl ?_ ?_ fun o c hc hne => ?_
    · rw [Nat.zero_add, Memory.word_write, if_pos (by omega)]
      apply UInt64.toNat.inj
      have tag : (⟨size.toNat, true⟩ : Chunk).tag = size.toNat + 1 := rfl
      rw [freeBit, toNat_or_one _ (by omega), tag, toNat_ofNat_lt (by omega)]
    · rw [Nat.zero_add, Memory.word_write, if_neg (by omega)]
    · have places := h.chain.placed_bounds hc
      rw [Memory.word_write, Memory.word_write, if_neg (by omega), if_neg (by omega)]
      exact ⟨rfl, rfl⟩
  · have free := h.free_perm
    simp only [gaps_append, gaps_cons, Bool.false_eq_true, if_false, if_true, List.nil_append,
      Nat.zero_add, Array.toList_push, List.map_append, List.map_cons, List.map_nil, hoff] at free ⊢
    refine (free.append_right _).trans ?_
    rw [List.append_assoc]
    exact List.perm_append_comm.append_left _
  · have used := h.inUse_eq
    simp only [List.filter_append, List.filter_cons, span_append, span_cons, Bool.not_true,
      Bool.not_false, Bool.false_eq_true, if_false, if_true] at used ⊢
    rw [UInt64.toNat_sub_of_le _ _ (UInt64.le_iff_toNat_le.2 (by omega)), used]
    omega
  · have count := h.count_eq
    simp only [List.countP_append, List.countP_cons, Bool.not_true, Bool.not_false,
      Bool.false_eq_true, if_false, if_true, Nat.add_zero] at count ⊢
    rw [count, ← Nat.add_assoc, UInt64.ofNat_add _ 1, UInt64.add_assoc, UInt64.add_comm 1]
    rfl

theorem release_spec (h : Wf a cs) {n : Nat}
    (hcs : cs = pre ++ ⟨8 * n + 16, false⟩ :: post) (hp : p.toNat = span pre + 16) :
    ∃ a', release p a = .ok () a' ∧ Wf a' (pre ++ ⟨8 * n + 16, true⟩ :: post) ∧
      Shrinks a a' (· ≠ p) ∧ ∃ memory, a' = { a with
        memory, free := a.free.push (p - overhead), frees := a.frees + 1, inUse :=
  a.inUse - UInt64.ofNat (8 * n + 16) } := by
  subst hcs
  have here : (span pre, ⟨8 * n + 16, false⟩) ∈ placed 0 (pre ++ ⟨8 * n + 16, false⟩ :: post) := by
    simp
  have bounds := h.chain.placed_bounds here
  have small := h.span_small
  simp only at bounds
  have hoff : (p - overhead).toNat = span pre := by
    rw [UInt64.toNat_sub, hp]
    simp only [overhead, UInt64.reduceToNat]
    omega
  have hsize : (UInt64.ofNat (8 * n + 16)).toNat = 8 * n + 16 := toNat_ofNat_lt (by omega)
  have header : index (p - overhead) = span pre / 8 := by rw [index_eq, hoff]
  have run := release_ok (h.chunkSize_eq (hoff.symm ▸ here)) (by rw [header]; omega)
  rw [← hsize] at h
  have freed := wf_release h hoff
  rw [hsize] at freed h
  rw [header] at run
  refine ⟨_, run, freed, ⟨fun q m => ?_, fun q m i hq hi => ?_, by simp, rfl⟩, _, rfl⟩
  · have gap : (span pre, ⟨8 * n + 16, true⟩) ∈ placed 0
        (pre ++ ⟨8 * n + 16, true⟩ :: post) := by simp
    have other : Live _ q m → q ≠ p := fun live same => freed.not_live_gap gap rfl hp (same ▸ live)
    have same : q.toNat = span pre + 16 ↔ q = p := by rw [← hp, UInt64.toNat_inj]
    rw [freed.live_iff_mem] at other ⊢
    rw [h.live_iff_mem]
    simp only [payloads_append, payloads_cons, Bool.false_eq_true, if_false, if_true,
      List.nil_append, List.mem_append,
      List.mem_singleton, Prod.mk.injEq, Nat.zero_add, same] at other ⊢
    tauto
  · have apart := freed.header_apart hq hi (o := span pre) (c := ⟨8 * n + 16, true⟩) (by simp)
    rw [Memory.word_write, if_neg (by omega)]

section Walk

/-- The payloads in use as a visitor is shown them: where each begins and its bytes. -/
def shown (off : Nat) (cs : List Chunk) : List (UInt64 × UInt64) :=
  (payloads off cs).map fun x => (UInt64.ofNat x.1, UInt64.ofNat (8 * x.2))

theorem Wf.mem_shown {q : UInt64 × UInt64} (h : Wf a cs) :
    q ∈ shown 0 cs ↔ ∃ n, a.Live q.1 n ∧ q.2 = UInt64.ofNat (8 * n) := by
  have small := h.span_small
  rw [shown, List.mem_map]
  constructor
  · rintro ⟨⟨p, n⟩, hp, rfl⟩
    obtain ⟨o, c, hc, -, rfl, -⟩ := mem_payloads.1 hp
    have bounds := h.chain.placed_bounds hc
    refine ⟨n, h.live_iff_mem.2 ?_, rfl⟩
    rwa [toNat_ofNat_lt (by omega)]
  · rintro ⟨n, hq, size⟩
    exact ⟨_, h.live_iff_mem.1 hq, Prod.ext UInt64.ofNat_toNat size.symm⟩

theorem Wf.shown_sorted (h : Wf a cs) : ((shown 0 cs).map (·.1)).Pairwise (· < ·) := by
  have small := h.span_small
  rw [shown, List.map_map, List.pairwise_map, payloads, List.pairwise_filterMap]
  refine (placed_sorted h.chain).imp_of_mem ?_
  rintro ⟨o, c⟩ ⟨o', c'⟩ hx hy lt p hp q hq
  have bounds' := h.chain.placed_bounds hy
  dsimp only at hp hq lt
  split at hp <;> cases hp
  split at hq <;> cases hq
  rw [UInt64.lt_iff_toNat_lt, Function.comp, Function.comp, toNat_ofNat_lt (by omega),
    toNat_ofNat_lt (by omega)]
  omega

variable {β : Type} (visit : β → UInt64 → UInt64 → Memory → Except Fault (Visit β))

/-- Visits the payloads of a list one after the other until the visitor stops. -/
def tour : List (UInt64 × UInt64) → β → ArenaM β
  | [], value => pure value
  | (p, size) :: rest, value => do
    let v ← inspect (visit value p size)
    if v.free then release p
    if v.stop then return v.value else tour rest v.value

/-- A walk visits the payloads that are in use when it begins, whatever is freed on the way. -/
theorem walkFrom_eq_tour {rest : List Chunk} (h : Wf a (pre ++ rest)) (hoff : off.toNat = span pre)
    {fuel : Nat} (hfuel : rest.length < fuel) (b : β) :
    walkFrom visit fuel off b a = tour visit (shown (span pre) rest) b a := by
  induction rest generalizing a pre off fuel b with
  | nil =>
    obtain ⟨n, rfl⟩ : ∃ n, fuel = n + 1 := ⟨fuel - 1, by simp at hfuel; omega⟩
    have hstop : ¬ off < a.top := by
      rw [UInt64.lt_iff_toNat_lt, hoff, h.top_eq]
      simp
    rw [walkFrom, get_bind, if_neg hstop]
    rfl
  | cons c rest ih =>
    obtain ⟨n, rfl⟩ : ∃ n, fuel = n + 1 := ⟨fuel - 1, by simp at hfuel; omega⟩
    have here : (off.toNat, c) ∈ placed 0 (pre ++ c :: rest) := by simp [hoff]
    have bounds := h.chain.placed_bounds here
    have small := h.span_small
    have all := h.top_eq
    have hgo : off < a.top := by
      rw [UInt64.lt_iff_toNat_lt]
      omega
    obtain ⟨size, free⟩ := c
    simp only at bounds
    have word : (UInt64.ofNat size).toNat = size := toNat_ofNat_lt (by omega)
    have hnext : (off + .ofNat size).toNat = span pre + size := by
      rw [UInt64.toNat_add, hoff, word]
      omega
    -- the rest of the walk, from an arena with the same chunks but for this one's tag
    have goOn : ∀ (f : Bool) (a1 : Arena) (b1 : β), Wf a1 (pre ++ ⟨size, f⟩ :: rest) →
        walkFrom visit n (off + .ofNat size) b1 a1 = tour visit
          (shown (span pre + size) rest) b1 a1 := by
      intro f a1 b1 h1
      have tail := ih (show Wf a1 ((pre ++ [⟨size, f⟩]) ++ rest) by simpa using h1)
        (hnext.trans (by simp)) (by simpa using hfuel) b1
      simpa using tail
    rw [walkFrom, get_bind, if_pos hgo, bind_ok (inspect_ok (h.chunkSize_eq here)),
      bind_ok (inspect_ok (h.isFree_eq here))]
    cases free with
    | true =>
      rw [if_pos rfl, goOn true a b h]
      simp [shown]
    | false =>
      have hp : (off + overhead).toNat = span pre + 16 := by
        rw [UInt64.toNat_add, hoff]
        simp only [overhead, UInt64.reduceToNat]
        omega
      have whole : 8 * ((size - 16) / 8) = size - 16 := by omega
      have place : UInt64.ofNat (span pre + 16) = off + overhead := by rw [← hp, UInt64.ofNat_toNat]
      have room := ofNat_sub_overhead bounds.2.1 bounds.2.2.1 (by omega)
      have first : shown (span pre) (⟨size, false⟩ :: rest) =
          (off + overhead, .ofNat size - overhead) :: shown (span pre + size) rest := by
        simp only [shown, payloads_cons, Bool.false_eq_true, if_false, List.cons_append,
          List.nil_append, List.map_cons, place, room]
      rw [if_neg Bool.false_ne_true, first, tour]
      cases answer : visit b (off + overhead) (.ofNat size - overhead) a.memory with
      | error f =>
        have failed : inspect (visit b (off + overhead) (.ofNat size - overhead)) a =
            .error f a := by
          rw [inspect, answer]
        rw [bind_error failed, bind_error failed]
      | ok v =>
        rw [bind_ok (inspect_ok answer), bind_ok (inspect_ok answer)]
        cases v.free with
        | false =>
          simp only [Bool.false_eq_true, if_false]
          split
          · rfl
          · exact goOn false a v.value h
        | true =>
          obtain ⟨a1, released, wf, -⟩ := release_spec h (by rw [whole]; congr; omega) hp
          rw [whole, show size - 16 + 16 = size by omega] at wf
          simp only [if_true]
          rw [bind_ok released, bind_ok released]
          split
          · rfl
          · exact goOn true a1 v.value wf

theorem Wf.walk_eq_tour (h : Wf a cs) (b : β) : walk visit b a = tour visit (shown 0 cs) b a := by
  have short := length_le_span fun c hc => (h.chain.size_mem c hc).1
  rw [walk, get_bind]
  exact walkFrom_eq_tour visit (show Wf a ([] ++ cs) from h) rfl
    (by rw [walkBound, h.top_eq]; omega) b

structure Call where
  payload : UInt64
  size : UInt64
  free : Bool
  stop : Bool

/-- The calls are those for the payloads `ps` in turn: for all of them, or up to one at which the
visitor stopped. -/
inductive Calls : List (UInt64 × UInt64) → List Call → Prop
  | all : Calls [] []
  | stop {p size : UInt64} {ps : List (UInt64 × UInt64)} {free : Bool} :
      Calls ((p, size) :: ps) [⟨p, size, free, true⟩]
  | next {p size : UInt64} {ps : List (UInt64 × UInt64)} {free : Bool} {calls : List Call}
      (rest : Calls ps calls) :
      Calls ((p, size) :: ps) (⟨p, size, free, false⟩ :: calls)

/-- The payloads that a call asked to be freed, and no others, are given back. -/
structure Walked (calls : List Call) (a a' : Arena) : Prop where
  good : a'.Good
  shrinks : Shrinks a a' fun q => ∀ c ∈ calls, c.payload = q → c.free = false

theorem Walked.none (good : a.Good) : Walked [] a a := ⟨good, .refl fun _ _ _ => by rintro _ ⟨⟩⟩

theorem Walked.keep {a' : Arena} {calls : List Call} (h : Walked calls a a') (stop : Bool) :
    Walked (⟨p, size, false, stop⟩ :: calls) a a' :=
  ⟨h.good, (Shrinks.refl fun _ _ _ => trivial).trans h.shrinks fun q n _ => by simp⟩

theorem Walked.drop {b c : Arena} {calls : List Call} (first : Shrinks a b (· ≠ p))
    (h : Walked calls b c) (stop : Bool) :
    Walked (⟨p, size, true, stop⟩ :: calls) a c :=
  ⟨h.good, first.trans h.shrinks fun q n _ => by simp [eq_comm (a := q)]⟩

theorem Calls.shows {ps : List (UInt64 × UInt64)} {calls : List Call} (h : Calls ps calls) :
    calls.map (fun c => (c.payload, c.size)) <+: ps ∧
      ((∀ c ∈ calls, c.stop = false) → calls.map (fun c => (c.payload, c.size)) = ps) ∧
      ∀ c ∈ calls.dropLast, c.stop = false := by
  induction h with
  | all => simp
  | stop => simp
  | next rest ih =>
    obtain ⟨part, whole, going⟩ := ih
    refine ⟨List.cons_prefix_cons.2 ⟨rfl, part⟩, fun h => ?_, fun c hc => ?_⟩
    · rw [List.map_cons, whole fun c hc => h c (.tail _ hc)]
    · rw [List.dropLast_cons_of_ne_nil] at hc <;> grind

variable {I : β → List Call → Prop} {ps : List (UInt64 × UInt64)}

/-- What holds of the value and the calls so far, if every call keeps it, holds at the end of a
tour. -/
theorem tour_ends (good : a.Good) (live : ∀ q ∈ ps, ∃ n, a.Live q.1 n)
    (apart : (ps.map (·.1)).Nodup)
    (keeps : ∀ b calls p size m v, (p, size) ∈ ps → I b calls → visit b p size m = .ok v →
      I v.value (calls ++ [⟨p, size, v.free, v.stop⟩])) {b : β} {before : List Call}
      (start : I b before) :
    Ends (tour visit ps b) a
    (fun b' a' => ∃ calls, I b' (before ++ calls) ∧ Calls ps calls ∧ Walked calls a a')
      fun f a' => (∃ calls, Walked calls a a') ∧ ∃ b p size m, (p, size) ∈ ps ∧
      visit b p size m = .error f := by
  induction ps generalizing a b before with
  | nil => exact ⟨[], by simpa using start, .all, .none good⟩
  | cons q ps ih =>
    obtain ⟨p, size⟩ := q
    rw [List.map_cons, List.nodup_cons] at apart
    obtain ⟨n, hp⟩ := live _ (.head _)
    have others : ∀ q ∈ ps, ∃ n, a.Live q.1 n := fun q hq => live q (.tail _ hq)
    rw [tour]
    cases answer : visit b p size a.memory with
    | error f =>
      have failed : inspect (visit b p size) a = .error f a := by rw [inspect, answer]
      exact .bind (.of_error failed ⟨⟨[], .none good⟩, b, p, size, _, .head _, answer⟩)
    | ok v =>
      refine .bind (.of_ok (inspect_ok answer) ?_)
      have told := keeps b before p size _ v (.head _) start answer
      have rest := fun {a1 : Arena} (good1 : a1.Good) (live1 : ∀ q ∈ ps, ∃ n, a1.Live q.1 n) =>
        ih good1 live1 apart.2 (fun b calls p size m v hp => keeps b calls p size m v
          (.tail _ hp)) told
      obtain ⟨value, free, stop⟩ := v
      cases free with
      | false =>
        cases stop with
        | true => exact ⟨[⟨p, size, false, true⟩], told, .stop, (Walked.none good).keep true⟩
        | false =>
          refine .mono (rest good others) ?_ ?_
          · rintro b' a' ⟨calls, holds, made, walked⟩
            exact ⟨_ :: calls, by simpa using holds, .next made, walked.keep false⟩
          · rintro f a' ⟨⟨calls, walked⟩, b, p, size, m, hp, failed⟩
            exact ⟨⟨_, walked⟩, b, p, size, m, .tail _ hp, failed⟩
      | true =>
        obtain ⟨pre, post, chunks, place, -⟩ := good.split_at_live hp
        obtain ⟨a1, released, wf, shrinks, -⟩ := release_spec good chunks place
        refine .bind (.of_ok released ?_)
        have live1 : ∀ q ∈ ps, ∃ n, a1.Live q.1 n := fun q hq => by
          obtain ⟨k, hk⟩ := others q hq
          refine ⟨k, (shrinks.live _ k).2 ⟨hk, ?_⟩⟩
          rintro rfl
          exact apart.1 (List.mem_map.2 ⟨q, hq, rfl⟩)
        cases stop with
        | true => exact ⟨[⟨p, size, true, true⟩], told, .stop, .drop shrinks (.none wf.good) true⟩
        | false =>
          refine .mono (rest wf.good live1) ?_ ?_
          · rintro b' a' ⟨calls, holds, made, walked⟩
            exact ⟨_ :: calls, by simpa using holds, .next made, .drop shrinks walked false⟩
          · rintro f a' ⟨⟨calls, walked⟩, b, q, s, m, hq, failed⟩
            exact ⟨⟨⟨p, size, true, false⟩ :: calls, .drop shrinks walked false⟩, b, q, s, m,
              .tail _ hq, failed⟩

theorem walk_ends (h : Wf a cs) (keeps : ∀ b calls p size m v, (p, size) ∈ shown 0 cs → I b calls →
      visit b p size m = .ok v → I v.value (calls ++ [⟨p, size, v.free, v.stop⟩])) {b : β}
      (start : I b []) :
    Ends (walk visit b) a (fun b' a' => ∃ calls, I b' calls ∧ Calls (shown 0 cs) calls ∧
      Walked calls a a')
      fun f a' => (∃ calls, Walked calls a a') ∧ ∃ b p size m, (p, size) ∈ shown 0 cs ∧
      visit b p size m = .error f := by
  rw [Ends, h.walk_eq_tour]
  refine tour_ends visit h.good (fun q hq => ?_) (h.shown_sorted.imp fun lt => ?_) keeps start
  · obtain ⟨n, hn, -⟩ := h.mem_shown.1 hq
    exact ⟨n, hn⟩
  · rintro rfl
    exact UInt64.lt_irrefl _ lt

variable {visit} in
/-- A walk that does not halt frees exactly the payloads in use that its visitor picks. -/
theorem walk_spec {pick : UInt64 → Bool} (h : Wf a cs)
    (hvisit : ∀ b p size m, p.toNat < a.top.toNat →
      ∃ b', visit b p size m = .ok { value := b', free := pick p }) (b : β) :
    ∃ b' a' cs', walk visit b a = .ok b' a' ∧ Wf a' cs' ∧
      Shrinks a a' (fun q => pick q = false) := by
  have below : ∀ q ∈ shown 0 cs, q.1.toNat < a.top.toNat := fun q hq => by
    obtain ⟨n, hn, -⟩ := h.mem_shown.1 hq
    have bounds := h.live_bounds hn
    omega
  have ends := walk_ends visit
    (I := fun _ calls => ∀ c ∈ calls, c.free = pick c.payload ∧ c.stop = false) h
    (fun b calls p size m v hp told answer => by
      obtain ⟨b', hb'⟩ := hvisit b p size m (below _ hp)
      cases hb'.symm.trans answer
      exact List.forall_mem_append.2 ⟨told, by simp⟩) (b := b) (by simp)
  rw [Ends] at ends
  cases run : walk visit b a with
  | error =>
    rw [run] at ends
    obtain ⟨-, b, p, size, m, hp, failed⟩ := ends
    obtain ⟨b', hb'⟩ := hvisit b p size m (below _ hp)
    cases hb'.symm.trans failed
  | ok b' a' =>
    rw [run] at ends
    obtain ⟨calls, told, made, good, shrinks⟩ := ends
    refine ⟨b', a', _, rfl, good, (Shrinks.refl fun _ _ _ => trivial).trans shrinks
      fun q n hq => ?_⟩
    have seen := made.shows.2.1 fun c hc => (told c hc).2
    have member : ∃ c ∈ calls, c.payload = q := by
      have := h.mem_shown (q := (q, .ofNat (8 * n))).2 ⟨n, hq, rfl⟩
      rw [← seen] at this
      obtain ⟨c, hc, same⟩ := List.mem_map.1 this
      exact ⟨c, hc, congrArg Prod.fst same⟩
    obtain ⟨c, hc, rfl⟩ := member
    constructor
    · intro kept
      exact ⟨trivial, fun d hd same => (told d hd).1.trans (same ▸ kept)⟩
    · exact fun kept => (told c hc).1.symm.trans (kept.2 c hc rfl)

end Walk

variable {c : Chunk} {rest : List Chunk} {m : Memory} {back fuel off : Nat}

/-- Merges free neighbours and drops the free chunks at the end. -/
def coalesce : List Chunk → List Chunk
  | [] => []
  | c :: cs =>
    if c.free then
      match coalesce cs with
      | [] => []
      | d :: ds => if d.free then ⟨c.size + d.size, true⟩ :: ds else c :: d :: ds
    else c :: coalesce cs

theorem coalesce_used (h : c.free = false) (cs : List Chunk) :
    coalesce (c :: cs) = c :: coalesce cs := by
  simp [coalesce, h]

theorem coalesce_all_free (h : ∀ c ∈ cs, c.free = true) : coalesce cs = [] := by
  induction cs with
  | nil => rfl
  | cons c cs ih => simp [coalesce, h c, ih fun d hd => h d (by simp [hd])]

theorem coalesce_run {d : Chunk} {run : List Chunk} (hc : c.free = true)
    (hrun : ∀ x ∈ run, x.free = true) (hd : d.free = false) :
    coalesce (c :: (run ++ d :: rest)) = ⟨c.size + span run, true⟩ :: coalesce (d :: rest) := by
  induction run generalizing c with
  | nil =>
    obtain ⟨size, free⟩ := c
    subst hc
    simp [coalesce, hd]
  | cons x run ih =>
    have tail := ih (hrun x (by simp)) fun y hy => hrun y (by simp [hy])
    rw [List.cons_append, coalesce, if_pos hc, tail]
    simp

/-- Coalescing keeps the first chunk, gives it back to the top, or merges it with the next. -/
theorem coalesce_cases (c : Chunk) (cs : List Chunk) :
    coalesce (c :: cs) = c :: coalesce cs ∧
    (c.free = true → ∃ d ∈ (coalesce cs).head?, d.free = false) ∨
    c.free = true ∧ coalesce cs = [] ∧ coalesce (c :: cs) = [] ∨
    c.free = true ∧ ∃ d ds, d.free = true ∧ coalesce cs = d :: ds ∧
      coalesce (c :: cs) = ⟨c.size + d.size, true⟩ :: ds := by
  rw [coalesce]
  cases hc : c.free with
  | false => exact .inl ⟨rfl, by simp⟩
  | true =>
    cases next : coalesce cs with
    | nil => exact .inr (.inl ⟨rfl, rfl, rfl⟩)
    | cons d ds =>
      cases hd : d.free with
      | false => exact .inl ⟨by simp [hd], fun _ => ⟨d, rfl, hd⟩⟩
      | true => exact .inr (.inr ⟨rfl, d, ds, hd, rfl, by simp [hd]⟩)

theorem payloads_coalesce (off : Nat) (cs : List Chunk) :
    payloads off (coalesce cs) = payloads off cs := by
  induction cs generalizing off with
  | nil => rfl
  | cons c cs ih =>
    rw [payloads_cons, ← ih]
    obtain ⟨kept, -⟩ | ⟨hc, none, gone⟩ | ⟨hc, d, ds, hd, first, merged⟩ := coalesce_cases c cs
    · rw [kept, payloads_cons]
    · simp [gone, none, hc]
    · simp [merged, first, hc, hd, Nat.add_assoc]

theorem span_coalesce_le (cs : List Chunk) : span (coalesce cs) ≤ span cs := by
  induction cs with
  | nil => simp [coalesce]
  | cons c cs ih =>
    rw [span_cons]
    obtain ⟨kept, -⟩ | ⟨-, -, gone⟩ | ⟨-, d, ds, -, first, merged⟩ := coalesce_cases c cs
    · simpa [kept] using ih
    · simp [gone]
    · rw [first, span_cons] at ih
      simp only [merged, span_cons]
      omega

theorem used_coalesce (cs : List Chunk) : (coalesce cs).filter (!·.free) = cs.filter (!·.free) := by
  induction cs with
  | nil => rfl
  | cons c cs ih =>
    rw [List.filter_cons, ← ih]
    obtain ⟨kept, -⟩ | ⟨hc, none, gone⟩ | ⟨hc, d, ds, hd, first, merged⟩ := coalesce_cases c cs
    · rw [kept, List.filter_cons]
    · simp [gone, none, hc]
    · simp [merged, first, hc, hd]

theorem split_free_run (cs : List Chunk) :
    ∃ run rest, cs = run ++ rest ∧ cs.takeWhile (·.free) = run ∧ (∀ c ∈ run, c.free = true) ∧
      ∀ d ∈ rest.head?, d.free = false := by
  induction cs with
  | nil => exact ⟨[], [], rfl, rfl, by simp, by simp⟩
  | cons c cs ih =>
    cases hc : c.free with
    | false => exact ⟨[], c :: cs, rfl, by simp [hc], by simp, by simp [hc]⟩
    | true =>
      obtain ⟨run, rest, rfl, htake, hrun, hrest⟩ := ih
      exact ⟨c :: run, rest, rfl, by simp [hc, htake], by simpa [hc] using hrun, hrest⟩

theorem freeRun_spec (h : Chain m off back cs) (hfit : off + span cs ≤ 8 * m.size)
    (hsmall : m.size < 2 ^ 60) {top next : UInt64} (htop : top.toNat = off + span cs)
    (hnext : next.toNat = off) (hfuel : cs.length < fuel) (total : UInt64) (count : Nat) :
    freeRun m top fuel next total count = .ok (total + UInt64.ofNat (span (cs.takeWhile (·.free))),
        count + (cs.takeWhile (·.free)).length) := by
  induction cs generalizing off back next fuel total count with
  | nil =>
    obtain ⟨n, rfl⟩ : ∃ n, fuel = n + 1 := ⟨fuel - 1, by simp at hfuel; omega⟩
    have hstop : ¬ next < top := by
      rw [UInt64.lt_iff_toNat_lt, hnext, htop]
      simp
    rw [freeRun, if_neg hstop]
    simp
    rfl
  | cons c cs ih =>
    obtain ⟨n, rfl⟩ : ∃ n, fuel = n + 1 := ⟨fuel - 1, by simp at hfuel; omega⟩
    obtain ⟨hsize, hfree⟩ := h.chunkSize_eq hfit hsmall (o := next) (c := c) (by simp [hnext])
    obtain ⟨-, -, hmin, hmod, hrest⟩ := h
    rw [span_cons] at htop hfit
    have hgo : next < top := by
      rw [UInt64.lt_iff_toNat_lt, hnext, htop]
      omega
    have hword : (UInt64.ofNat c.size).toNat = c.size := toNat_ofNat_lt (by omega)
    rw [freeRun, if_pos hgo, hfree]
    cases hc : c.free with
    | false =>
      rw [List.takeWhile_cons, hc]
      simp
      rfl
    | true =>
      have tail := ih hrest (by omega) (by omega)
        (show (next + UInt64.ofNat c.size).toNat =
          off + c.size by rw [UInt64.toNat_add, hnext, hword]; omega)
        (by simpa using hfuel)
        (total + .ofNat c.size) (count + 1)
      rw [List.takeWhile_cons, hc, hsize]
      simp only [if_true, span_cons, List.length_cons, UInt64.ofNat_add]
      rw [← UInt64.add_assoc, show count + ((cs.takeWhile (·.free)).length + 1) =
        count + 1 + (cs.takeWhile (·.free)).length by omega]
      exact tail

structure Sweeping (a : Arena) (old rest : List Chunk) (p : Progress) : Prop where
  old_chain : Chain a.memory 0 0 old
  rest_chain : ∃ back, Chain a.memory (span old) back rest
  top_eq : a.top.toNat = span old + span rest
  top_le : a.top.toNat ≤ 8 * a.memory.size
  small : a.memory.size < 2 ^ 60
  back_eq : p.back = UInt64.ofNat (endBack 0 old)
  last_eq : p.last.toNat + endBack 0 old = span old
  free_eq : p.free.toList.map (·.toNat) = gaps 0 old

structure Untouched (a a' : Arena) (off : Nat) (cs : List Chunk) : Prop where
  word : ∀ i, (∀ o c, (o, c) ∈ placed off cs → i ≠ o / 8 ∧ i ≠ o / 8 + 1) →
    a'.memory.word i = a.memory.word i
  memory_size : a'.memory.size = a.memory.size
  others : ∃ memory top free, a' = { a with memory, top, free }

namespace Sweeping
variable {b : Arena} {old more : List Chunk} {p : Progress}

theorem step (h : Sweeping a old more p) (hrest : Chain a.memory (span old + c.size) back rest)
    (hspan : span more = c.size + span rest) (hmin : 32 ≤ c.size) (hmod : c.size % 16 = 0)
    {off : UInt64} (hoff : off.toNat = span old) (htop : b.top = a.top)
    (hsize : b.memory.size = a.memory.size) (hback : b.memory.word (span old / 8) = p.back)
    (htag : b.memory.word (span old / 8 + 1) = UInt64.ofNat c.tag)
    (same : ∀ i, i ≠ span old / 8 → i ≠ span old / 8 + 1 → b.memory.word i = a.memory.word i)
    (merged : Nat) :
    Sweeping b (old ++ [c]) rest
      { back := UInt64.ofNat c.size, last := off
        free := if c.free then p.free.push off else p.free, merged } := by
  have top := h.top_eq
  refine
    { old_chain := chain_append.2 ⟨h.old_chain.frame fun o d hd => ?_, ?_⟩
      rest_chain := ⟨back, ?_⟩
      top_eq := by rw [htop]; simp only [span_append, span_cons, span_nil]; omega
      top_le := by rw [htop, hsize]; exact h.top_le
      small := by rw [hsize]; exact h.small
      back_eq := by simp [endBack_append, endBack]
      last_eq := by simp [endBack_append, endBack, hoff]
      free_eq := ?_ }
  · have bounds := h.old_chain.placed_bounds hd
    exact ⟨same _ (by omega) (by omega), same _ (by omega) (by omega)⟩
  · refine ⟨?_, ?_, hmin, hmod, trivial⟩
    · rw [Nat.zero_add, hback, h.back_eq]
    · rw [Nat.zero_add, htag]
  · simp only [span_append, span_cons, span_nil, Nat.add_zero]
    refine hrest.frame fun o d hd => ?_
    have bounds := hrest.placed_bounds hd
    exact ⟨same _ (by omega) (by omega), same _ (by omega) (by omega)⟩
  · have free := h.free_eq
    cases hc : c.free <;> simp [hc, hoff, free]

end Sweeping

theorem Untouched.trans {b c : Arena} {xs ys : List Chunk}
    (hab : Untouched a b off xs) (hbc : Untouched b c (off + span xs) ys) :
    Untouched a c off (xs ++ ys) where
  word i hi := by
    rw [hbc.word i fun o d hd => hi o d (by simp [hd]), hab.word i fun o d hd =>
      hi o d (by simp [hd])]
  memory_size := hbc.memory_size.trans hab.memory_size
  others := by
    obtain ⟨_, _, _, rfl⟩ := hab.others
    obtain ⟨memory, top, free, rfl⟩ := hbc.others
    exact ⟨memory, top, free, rfl⟩

theorem sweepFrom_spec {old : List Chunk} {p : Progress} (h : Sweeping a old rest p)
    {off : UInt64} (hoff : off.toNat = span old) (hfuel : rest.length < fuel) :
    ∃ p' a', sweepFrom fuel off p a = .ok p' a' ∧ Sweeping a' (old ++ coalesce rest) [] p' ∧
      Untouched a a' (span old) rest ∧
      p'.merged + (coalesce rest).length = p.merged + rest.length := by
  induction fuel generalizing a old rest p off with
  | zero => exact absurd hfuel (Nat.not_lt_zero _)
  | succ n ih =>
    have top := h.top_eq
    have top_le := h.top_le
    have small := h.small
    have header : index off = span old / 8 := by rw [index_eq, hoff]
    simp only [sweepFrom, get_bind]
    cases rest with
    | nil =>
      have hstop : ¬ off < a.top := by
        rw [UInt64.lt_iff_toNat_lt, hoff, top]
        simp
      rw [if_neg hstop]
      exact ⟨p, a, rfl, by simpa [coalesce] using h, ⟨fun _ _ => rfl, rfl, _, _, _, rfl⟩, rfl⟩
    | cons c rest =>
      obtain ⟨back, hchain⟩ := h.rest_chain
      obtain ⟨hsize, hfree⟩ :=
        hchain.chunkSize_eq (by omega) small (o := off) (c := c) (by simp [hoff])
      obtain ⟨-, htag, hmin, hmod, hrest⟩ := hchain
      rw [span_cons] at top
      have hgo : off < a.top := by
        rw [UInt64.lt_iff_toNat_lt, hoff, top]
        omega
      have hword : (UInt64.ofNat c.size).toNat = c.size := toNat_ofNat_lt (by omega)
      have hnext : (off + .ofNat c.size).toNat = span old + c.size := by
        rw [UInt64.toNat_add, hoff, hword]
        omega
      rw [if_pos hgo, bind_ok (inspect_ok hsize), bind_ok (inspect_ok hfree)]
      cases hc : c.free with
      | false =>
        simp only [Bool.not_false, if_true]
        rw [bind_ok (setBack_ok (by rw [header]; omega) _)]
        have next := h.step (b := { a with memory := a.memory.write (index off) p.back })
          hrest rfl hmin hmod hoff rfl (by simp)
            (by rw [Memory.word_write, header, if_pos (by omega)])
          (by rw [Memory.word_write, header, if_neg (by omega), htag])
          (fun i hi _ => by rw [Memory.word_write, header, if_neg (by omega)]) p.merged
        rw [hc] at next
        obtain ⟨p', a', hrun, hdone, hkept, hcount⟩ := ih next
          (by rw [hnext]; simp) (by simpa using hfuel)
        refine ⟨p', a', hrun, by simpa [coalesce_used hc] using hdone, ?_, by
          rw [coalesce_used hc]; exact congrArg (· + 1) hcount⟩
        have kept : Untouched a { a with memory := a.memory.write (index off) p.back }
            (span old) [c] := by
          refine ⟨fun i hi => ?_, by simp, _, _, _, rfl⟩
          have := hi (span old) c (by simp)
          rw [Memory.word_write, header, if_neg (by omega)]
        exact kept.trans (by simpa using hkept)
      | true =>
        simp only [Bool.not_true, Bool.false_eq_true, if_false]
        rw [get_bind, bind_ok (inspect_ok (freeRun_spec hrest (by omega) small
          (by omega) hnext (show rest.length < a.top.toNat + 1 by
            have := length_le_span fun d hd => (hrest.size_mem d hd).1
            omega) _ 0))]
        obtain ⟨run, rest, rfl, htake, hrun, hused⟩ := split_free_run rest
        simp only [htake, Nat.zero_add]
        rw [span_append] at top
        have htotal : (UInt64.ofNat c.size + UInt64.ofNat (span run)).toNat =
            c.size + span run := by
          rw [UInt64.toNat_add, hword, toNat_ofNat_lt (by omega)]
          omega
        have hend : (off + (.ofNat c.size + .ofNat (span run))).toNat =
            span old + (c.size + span run) := by
          rw [UInt64.toNat_add, hoff, htotal]
          omega
        obtain ⟨runChain, restChain⟩ := chain_append.1 hrest
        cases rest with
        | nil =>
          have hfull : (off + (.ofNat c.size + .ofNat (span run)) == a.top) = true := by
            rw [beq_iff_eq]
            apply UInt64.toNat.inj
            rw [hend, top]
            simp
          rw [if_pos hfull]
          have gone : coalesce (c :: (run ++ [])) = [] :=
            coalesce_all_free (by simpa [hc] using hrun)
          refine ⟨_, _, rfl, ?_, ⟨fun _ _ => rfl, rfl, _, _, _, rfl⟩, by rw [gone]; simp; omega⟩
          rw [gone, List.append_nil]
          exact
            { old_chain := h.old_chain
              rest_chain := ⟨0, trivial⟩
              top_eq := by simpa using hoff
              top_le := by simp only; omega
              small := small
              back_eq := h.back_eq
              last_eq := h.last_eq
              free_eq := h.free_eq }
        | cons d =>
          have first := restChain.2.2.1
          have hmore : ¬ (off + (.ofNat c.size + .ofNat (span run)) == a.top) = true := by
            rw [beq_iff_eq]
            intro heq
            have := congrArg UInt64.toNat heq
            rw [hend, top, span_cons] at this
            omega
          rw [if_neg hmore, bind_ok (setBack_ok (by rw [header]; omega) _),
            bind_ok (setSize_ok (by rw [header, Memory.size_write]; omega) _ _), modify_bind]
          generalize hb : ({ a with
            memory := (a.memory.write (index off) p.back).write (index off + 1)
              (if true = true then .ofNat c.size + .ofNat (span run) ||| freeBit
                else .ofNat c.size + .ofNat (span run)) } : Arena) = b
          have hmem : b.memory = (a.memory.write (span old / 8) p.back).write (span old / 8 + 1)
              (.ofNat c.size + .ofNat (span run) ||| freeBit) := by
            rw [← hb, header]
            rfl
          have tag : .ofNat c.size + .ofNat (span run) ||| freeBit =
              .ofNat (⟨c.size + span run, true⟩ : Chunk).tag := by
            have runMod := runChain.span_mod
            have value : (⟨c.size + span run, true⟩ : Chunk).tag = c.size + span run + 1 := rfl
            apply UInt64.toNat.inj
            rw [freeBit, toNat_or_one _ (by omega), htotal, value, toNat_ofNat_lt (by omega)]
          have next := h.step (c := ⟨c.size + span run, true⟩)
            (b := { b with free := b.free.setIfInBounds p.free.size off })
            (by simpa [Nat.add_assoc] using restChain) (by simp [Nat.add_assoc])
            (by simp only; omega) (by have := runChain.span_mod; simp only; omega) hoff
            (by rw [← hb]) (by simp [hmem])
            (by
              simp only [hmem]
              rw [Memory.word_write, if_neg (by omega), Memory.word_write, if_pos (by omega)])
            (by simp only [hmem]; rw [Memory.word_write, Memory.size_write, if_pos (by omega), tag])
            (fun i hi hi' => by
              simp only [hmem]
              rw [Memory.word_write, if_neg (by omega), Memory.word_write, if_neg (by omega)])
            (p.merged + run.length)
          obtain ⟨p', a', hrun', hdone, hkept, hcount⟩ := ih next (by rw [hend]; simp)
            (by simp only [List.length_cons, List.length_append] at hfuel ⊢; omega)
          refine ⟨p', a', ?_, ?_, ?_,
            by rw [coalesce_run hc hrun (hused d rfl)]; simp at hcount ⊢; omega⟩
          · rw [← hrun']
            simp [UInt64.ofNat_add]
          · rw [coalesce_run hc hrun (hused d rfl)]
            simpa using hdone
          · have kept : Untouched a { b with free := b.free.setIfInBounds p.free.size off }
                (span old) (c :: run) := by
              refine ⟨fun i hi => ?_, by simp [hmem], _, _, _, by rw [← hb]⟩
              have := hi (span old) c (by simp)
              simp only [hmem]
              rw [Memory.word_write, if_neg (by omega), Memory.word_write, if_neg (by omega)]
            exact kept.trans (by simpa using hkept)

theorem Wf.sweeping (h : Wf a cs) : Sweeping a [] cs {} where
  old_chain := trivial
  rest_chain := ⟨0, h.chain⟩
  top_eq := by simpa using h.top_eq
  top_le := by rw [h.top_eq]; exact h.span_small.2
  small := h.small
  back_eq := rfl
  last_eq := rfl
  free_eq := rfl

theorem sweep_spec (h : Wf a cs) :
    ∃ n a', sweep a = .ok n a' ∧ Wf a' (coalesce cs) ∧ Shrinks a a' (fun _ => True) ∧
      a'.free.toList.map (·.toNat) = gaps 0 (coalesce cs) ∧ n + (coalesce cs).length = cs.length ∧
      (∃ memory top last free, a' =
        { a with memory, top, last, free, coalesced := a.coalesced + UInt64.ofNat n }) ∧
      ∀ i, (∀ o c, (o, c) ∈ placed 0 cs → i ≠ o / 8 ∧ i ≠ o / 8 + 1) →
        a'.memory.word i = a.memory.word i := by
  have short := length_le_span fun c hc => (h.chain.size_mem c hc).1
  obtain ⟨p, b, hrun, done, kept, count⟩ :=
    sweepFrom_spec h.sweeping (show (0 : UInt64).toNat = span [] from rfl)
    (show cs.length < walkBound a by rw [walkBound, h.top_eq]; omega)
  have size := kept.memory_size
  obtain ⟨memory, top, free, rfl⟩ := kept.others
  have hwf : Wf { a with
      memory, top, free := p.free, last := p.last, coalesced := a.coalesced + .ofNat p.merged }
        (coalesce cs) :=
    { h with
      chain := done.old_chain
      top_eq := done.top_eq
      last_eq := done.last_eq
      free_perm := by rw [done.free_eq]; rfl
      inUse_eq := by rw [used_coalesce]; exact h.inUse_eq
      count_eq := by
        rw [List.countP_eq_length_filter, used_coalesce, ← List.countP_eq_length_filter]
        exact h.count_eq
      top_le := (done.top_eq.trans_le (span_coalesce_le cs)).trans (h.top_eq ▸ h.top_le)
      size_le := by rw [size]; exact h.size_le
      small := by rw [size]; exact h.small }
  have live : ∀ q n, Live _ q n ↔ a.Live q n := fun q n => by
    rw [hwf.live_iff_mem, h.live_iff_mem, payloads_coalesce]
  refine ⟨p.merged, _, ?_, hwf,
    ⟨fun q n => by rw [live, and_true], fun q n i hq hi => ?_, size, rfl⟩, done.free_eq,
    count.trans (Nat.zero_add _), ⟨memory, top, _, _, rfl⟩, kept.word⟩
  · unfold sweep
    rw [get_bind, bind_ok hrun]
    rfl
  · exact kept.word _ fun o c hc => h.header_apart ((live q n).1 hq) hi hc

theorem size_releasePages (m : Memory) (lo hi : UInt64) :
    (Region.releasePages m lo hi).size = m.size := by
  unfold Region.releasePages
  generalize Region.pagesIn .usual (UInt64.ofNat m.size * 8) lo hi = pages
  obtain ⟨from', to'⟩ := pages
  simp only
  split <;> simp

theorem Wf.releasePages (h : Wf a cs) (hi : UInt64) :
    Wf { a with memory := Region.releasePages a.memory a.top hi } cs ∧
      Shrinks a { a with memory := Region.releasePages a.memory a.top hi } (fun _ => True) := by
  have small := h.span_small
  have top := h.top_eq
  have begins : Region.start .usual a.top = a.top.toNat := if_pos (by change _ + 2 ^ 12 ≤ _; omega)
  have below : ∀ i, i < a.top.toNat / 8 →
      (Region.releasePages a.memory a.top hi).word i = a.memory.word i := fun i hi' => by
    rw [Region.word_releasePages h.small, begins,
      if_neg (by change ¬ (_ ≤ _ / 2 ^ 12 * 2 ^ 12 ∧ _); omega)]
  have hwf : Wf { a with memory := Region.releasePages a.memory a.top hi } cs := by
    refine h.with_memory (size_releasePages _ _ _) fun o c hc => ?_
    have bounds := h.chain.placed_bounds hc
    exact ⟨below _ (by omega), below _ (by omega)⟩
  refine ⟨hwf, fun q n => ?_, fun q n i hq hi' => below _ ?_, size_releasePages _ _ _, rfl⟩
  · rw [Live, Live, hwf.chunks_eq, h.chunks_eq, and_true]
  · have bounds := hwf.live_bounds hq
    simp only at bounds
    omega

end TxHeap.Arena
