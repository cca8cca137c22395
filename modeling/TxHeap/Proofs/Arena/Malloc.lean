import Mathlib.Data.List.Perm.Basic
import TxHeap.Proofs.Arena.Invariant
import TxHeap.Proofs.Computation

/-! Allocation takes a payload that was not in use, hands it out zeroed, and changes no payload that
is in use. -/

namespace TxHeap.Arena
open Word

variable {a : Arena} {n need off p size : UInt64} {i k o : Nat} {cs post pre : List Chunk}
  {offs : List UInt64}

structure Takes (a a' : Arena) (p : UInt64) (k : Nat) : Prop where
  fresh : ∀ n, ¬ a.Live p n
  live : ∀ q n, a'.Live q n ↔ a.Live q n ∨ q = p ∧ n = k
  zero : ∀ i < k, a'.memory.word (p.toNat / 8 + i) = 0
  kept : ∀ q n i, a.Live q n → i < n →
    a'.memory.word (q.toNat / 8 + i) = a.memory.word (q.toNat / 8 + i)
  memory_size : a'.memory.size = a.memory.size
  mallocs : a'.mallocs = a.mallocs + 1
  frees : a'.frees = a.frees

theorem SamePayloads.takes {b c : Arena} (h : SamePayloads a b) (h' : Takes b c p k) :
    Takes a c p k :=
  ⟨fun n hn => h'.fresh n ((h.live p n).2 hn), fun q n => by rw [h'.live, h.live], h'.zero,
    fun q n i hq hi => (h'.kept q n i ((h.live q n).2 hq) hi).trans (h.kept q n i hq hi),
    h'.memory_size.trans h.memory_size, by rw [h'.mallocs, h.mallocs], h'.frees.trans h.frees⟩

theorem store_ok (h : i < a.memory.size) (v : UInt64) :
    store i v a = .ok () { a with memory := a.memory.write i v } := by
  simp [store, h]

theorem setBack_ok (h : index off < a.memory.size) (v : UInt64) :
    setBack off v a = .ok () { a with memory := a.memory.write (index off) v } :=
  store_ok h v

theorem setSize_ok (h : index off + 1 < a.memory.size) (v : UInt64) (free : Bool) :
    setSize off v free a =
      .ok () { a with
        memory := a.memory.write (index off + 1) (if free then v ||| freeBit else v) } :=
  store_ok h _

theorem inspect_ok {α : Type} {f : Memory → Except Fault α} {r : α}
    (h : f a.memory = .ok r) : inspect f a = .ok r a := by
  simp [inspect, h]

theorem clearPayload_ok (h : index (off + overhead) ≤ index (off + size))
    (h' : index (off + size) ≤ a.memory.size) :
    clearPayload off size a = .ok () { a with
        memory := a.memory.clear (index (off + overhead)) (index (off + size)) } := by
  simp [clearPayload, h, h']

def needed (n : Nat) : Nat := max 32 ((n + 15) / 16 * 16 + 16)

/-- A listed chunk is large enough for a payload of `n` bytes, or there is room for one between the
top and `limit`. -/
def Fits (a : Arena) (n limit : Nat) : Prop :=
  (∃ off ∈ a.free, ∃ size, chunkSize a.memory off = .ok size ∧ needed n ≤ size.toNat) ∨
    a.top.toNat + needed n ≤ limit

theorem toNat_chunkFor (h : n.toNat < 2 ^ 63) : (chunkFor n).toNat = needed n.toNat := by
  have up :=
    toNat_alignUp n alignment 4 (by decide) rfl (by omega)
  have sum : (alignUp n alignment + overhead).toNat = (n.toNat + 15) / 16 * 16 + 16 := by
    rw [UInt64.toNat_add, up]
    simp only [overhead, UInt64.reduceToNat]
    omega
  have least : minChunk.toNat = 32 := rfl
  unfold chunkFor needed
  simp only [UInt64.lt_iff_toNat_lt, sum, least]
  split
  · rw [least]
    omega
  · rw [sum]
    omega

theorem firstFit_spec (h : Wf a cs) (need : UInt64) (i : Nat)
    (hoffs : ∀ off ∈ offs, off.toNat ∈ gaps 0 cs) :
    (firstFit a.memory need i offs = .ok none ∧
      ∀ off ∈ offs, ∀ c, (off.toNat, c) ∈ placed 0 cs → c.size < need.toNat) ∨
    ∃ j off size, firstFit a.memory need i offs = .ok (some (i + j, off, size)) ∧
      offs[j]? = some off ∧ (off.toNat, ⟨size.toNat, true⟩) ∈ placed 0 cs ∧
      need.toNat ≤ size.toNat := by
  induction offs generalizing i with
  | nil => exact .inl ⟨rfl, by simp⟩
  | cons off rest ih =>
    obtain ⟨c, hc, hfree⟩ := mem_gaps.1 (hoffs off (by simp))
    have bounds := h.chain.placed_bounds hc
    have small := h.span_small
    have hsize : (UInt64.ofNat c.size).toNat = c.size := toNat_ofNat_lt (by omega)
    have unfold : firstFit a.memory need i (off :: rest) =
        if .ofNat c.size < need then firstFit a.memory need (i + 1) rest
        else .ok (some (i, off, .ofNat c.size)) := by
      rw [firstFit, h.chunkSize_eq hc]
      rfl
    rw [unfold]
    by_cases hlt : .ofNat c.size < need
    · rw [if_pos hlt]
      rw [UInt64.lt_iff_toNat_lt, hsize] at hlt
      obtain ⟨hnone, hall⟩ | ⟨j, off', size, hfit, hget, hmem, hle⟩ :=
        ih (i + 1) fun o ho => hoffs o (by simp [ho])
      · refine .inl ⟨hnone, fun o ho d hd => ?_⟩
        obtain rfl | ho := List.mem_cons.1 ho
        · obtain ⟨-, rfl⟩ | apart | apart := h.placed_apart hc hd
          · exact hlt
          · omega
          · have := h.chain.placed_bounds hd
            omega
        · exact hall o ho d hd
      · exact .inr ⟨j + 1, off', size, by rw [hfit, Nat.add_right_comm, Nat.add_assoc],
          hget, hmem, hle⟩
    · rw [if_neg hlt]
      rw [UInt64.lt_iff_toNat_lt, hsize] at hlt
      refine .inr ⟨0, off, .ofNat c.size, rfl, rfl, ?_, by omega⟩
      obtain ⟨size, free⟩ := c
      rwa [hsize, ← hfree]

theorem firstFit_congr {m m' : Memory}
    (same : ∀ off ∈ offs, chunkSize m off = chunkSize m' off) (i : Nat) :
    firstFit m need i offs = firstFit m' need i offs := by
  induction offs generalizing i with
  | nil => rfl
  | cons off rest ih =>
    rw [firstFit, firstFit, same off (.head _), ih fun o ho => same o (.tail _ ho)]

def cutMemory (m : Memory) (top off size need : UInt64) : Memory :=
  let m := m.write (Word.index (off + need)) need
  let m := m.write (Word.index (off + need) + 1) ((size - need) ||| freeBit)
  if off + size < top then m.write (Word.index (off + size)) (size - need) else m

theorem size_cutMemory (m : Memory) (top off size need : UInt64) :
    (cutMemory m top off size need).size = m.size := by
  unfold cutMemory
  split <;> simp

def stamp (m : Memory) (o : Nat) (size : UInt64) : Memory :=
  (m.write (o / 8 + 1) size).clear (o / 8 + 2) ((o + size.toNat) / 8)

@[simp] theorem size_stamp (m : Memory) (o : Nat) (size : UInt64) :
    (stamp m o size).size = m.size := by simp [stamp]

theorem word_stamp (m : Memory) (o : Nat) (inside : (o + need.toNat) / 8 ≤ m.size)
    (hmin : 32 ≤ need.toNat) (i : Nat) :
    (stamp m o need).word i = if o / 8 + 2 ≤ i ∧ i < (o + need.toNat) / 8 then 0
      else if i = o / 8 + 1 then need else m.word i := by
  rw [stamp, Memory.word_clear, Memory.word_write]
  congr 2
  apply propext
  omega

theorem split_ok (hrest : index (off + need) + 1 < a.memory.size)
    (hnext : off + size < a.top → index (off + size) < a.memory.size) :
    split off size need a = .ok () { a with
        memory := cutMemory a.memory a.top off size need
        last := if off + size < a.top then a.last else off + need
        free := sortOffsets (a.free.push (off + need)) } := by
  unfold split
  rw [bind_ok (setBack_ok (by omega) need), bind_ok (setSize_ok (by simpa using hrest) _ true)]
  simp only [get_bind, if_true]
  by_cases hlt : off + size < a.top
  · rw [if_pos hlt, bind_ok (setBack_ok (by simpa using hnext hlt) _)]
    simp [cutMemory, hlt]
  · rw [if_neg hlt]
    simp [cutMemory, hlt]

/-- A free chunk whose first part is put to use. Only its words change, and the one that tells the
next chunk its size. -/
theorem takes_of_gap {a' : Arena} {rest : List Chunk} {n s : Nat}
    (h : Wf a (pre ++ ⟨s, true⟩ :: post)) (h' : Wf a' (pre ++ ((⟨n, false⟩ :: rest) ++ post)))
    (hspan : n + span rest = s) (hrest : ∀ c ∈ rest, c.free = true) (hp : p.toNat = span pre + 16)
    (zero : ∀ i < (n - 16) / 8, a'.memory.word (p.toNat / 8 + i) = 0)
    (kept : ∀ i, i < span pre / 8 ∨ (span pre + s) / 8 < i → a'.memory.word i = a.memory.word i)
    (hmem : a'.memory.size = a.memory.size) (hmallocs : a'.mallocs = a.mallocs + 1)
    (hfrees : a'.frees = a.frees) : Takes a a' p ((n - 16) / 8) := by
  have here : (span pre, ⟨s, true⟩) ∈ placed 0 (pre ++ ⟨s, true⟩ :: post) := by simp
  refine ⟨fun n => h.not_live_gap here rfl hp, fun q n => ?_, zero, fun q n i hq hi => kept _ ?_,
    hmem, hmallocs, hfrees⟩
  · have same : q.toNat = span pre + 16 ↔ q = p := by rw [← hp, UInt64.toNat_inj]
    rw [h'.live_iff_mem, h.live_iff_mem]
    simp only [List.cons_append, payloads_append, payloads_cons, payloads_of_free hrest,
      Bool.false_eq_true, if_false, if_true,
      List.nil_append, List.mem_append, List.mem_cons, Prod.mk.injEq, Nat.zero_add, same,
        Nat.add_assoc, ← hspan]
    tauto
  · obtain ⟨o, c, hc, hf, hqo, rfl⟩ := h.live_iff.1 hq
    obtain ⟨-, rfl⟩ | apart | apart := h.placed_apart here hc
    · simp at hf
    · simp only at apart
      omega
    · omega

theorem perm_of_eraseIdx {xs ys : List Nat}
    (hget : offs[i]? = some off) (h : (offs.map (·.toNat)).Perm (xs ++ off.toNat :: ys)) :
    ((offs.eraseIdx i).map (·.toNat)).Perm (xs ++ ys) := by
  obtain ⟨hi, rfl⟩ := List.getElem?_eq_some_iff.1 hget
  have whole := (List.getElem_cons_eraseIdx_perm hi).map (·.toNat)
  exact (whole.trans (h.trans List.perm_middle)).cons_inv

theorem perm_sortOffsets (offs : Array UInt64) : (sortOffsets offs).toList.Perm offs.toList := by
  simpa [sortOffsets] using List.mergeSort_perm offs.toList _

theorem word_cutMemory {m : Memory} {top : UInt64} (hcut : (off + need).toNat = o + need.toNat)
    (hnext : (off + size).toNat = o + size.toNat) (hroom : o + size.toNat ≤ 8 * m.size)
    (htop : top.toNat ≤ 8 * m.size) (hfit : need.toNat + 32 ≤ size.toNat) (i : Nat) :
    (cutMemory m top off size need).word i =
      if i = (o + size.toNat) / 8 ∧ o + size.toNat < top.toNat then size - need
      else if i = (o + need.toNat) / 8 + 1 then (size - need) ||| freeBit
      else if i = (o + need.toNat) / 8 then need else m.word i := by
  unfold cutMemory
  simp only [UInt64.lt_iff_toNat_lt, index_eq, hcut, hnext]
  split <;> simp only [Memory.word_write, Memory.size_write] <;> grind

section
variable (h : Wf a (pre ++ ⟨size.toNat, true⟩ :: post))
include h

theorem Wf.uses {m : List Chunk} (fits : n.toNat ≤ size.toNat)
    (used : span (m.filter (!·.free)) = n.toNat) (one : m.countP (!·.free) = 1) :
    (a.inUse + n).toNat = span ((pre ++ (m ++ post)).filter (!·.free)) ∧
      a.mallocs + 1 = a.frees + UInt64.ofNat ((pre ++ (m ++ post)).countP (!·.free)) := by
  have small := h.span_small
  have before := h.inUse_eq
  have count := h.count_eq
  have pre_le := span_filter_le (fun c => !c.free) pre
  have post_le := span_filter_le (fun c => !c.free) post
  simp only [List.filter_append, List.filter_cons, span_append, span_cons, List.countP_append,
    List.countP_cons, Bool.not_true,
    Bool.false_eq_true, if_false, Nat.add_zero, used, one] at before small count ⊢
  refine ⟨?_, ?_⟩
  · rw [UInt64.toNat_add, before]
    omega
  · rw [count, Nat.add_left_comm, Nat.add_comm 1, UInt64.ofNat_add _ 1, ← UInt64.add_assoc]
    rfl

theorem wf_cut {offs : Array UInt64} (hoff : off.toNat = span pre)
    (hmod : need.toNat % 16 = 0) (hmin : 32 ≤ need.toNat) (hfit : need.toNat + 32 ≤ size.toNat)
    (hoffs : (offs.toList.map (·.toNat)).Perm (gaps 0 pre ++ gaps (span pre + size.toNat) post)) :
    Wf { a with
        memory := stamp (cutMemory a.memory a.top off size need) (span pre) need
        last := if off + size < a.top then a.last else off + need
        free := sortOffsets (offs.push (off + need))
        inUse := a.inUse + need
        mallocs := a.mallocs + 1 }
      (pre ++ ((⟨need.toNat, false⟩ :: [⟨size.toNat - need.toNat, true⟩]) ++ post)) := by
  have here : (span pre, ⟨size.toNat, true⟩) ∈ placed 0 (pre ++ ⟨size.toNat, true⟩ :: post) := by
    simp
  have bounds := h.chain.placed_bounds here
  have small := h.span_small
  have top := h.top_eq
  simp only at bounds
  have hnext : (off + size).toNat = span pre + size.toNat := by
    rw [UInt64.toNat_add, hoff]
    omega
  have hcut : (off + need).toNat = span pre + need.toNat := by
    rw [UInt64.toNat_add, hoff]
    omega
  have hleft : (size - need).toNat = size.toNat - need.toNat := by
    rw [UInt64.toNat_sub_of_le]
    rw [UInt64.le_iff_toNat_le]
    omega
  obtain ⟨before, hback, htag, -, -, after⟩ := chain_append.1 h.chain
  have word := word_cutMemory hcut hnext (by omega)
    (show a.top.toNat ≤ 8 * a.memory.size by omega) hfit
  have word' := word_stamp (cutMemory a.memory a.top off size need) (span pre)
    (by rw [size_cutMemory]; omega) hmin
  simp only [word] at word'
  have outside : ∀ i, i ≤ span pre / 8 ∨ (span pre + size.toNat) / 8 < i →
      (stamp (cutMemory a.memory a.top off size need) (span pre) need).word i =
        a.memory.word i := by
    intro i hi
    rw [word', if_neg (by omega), if_neg (by omega), if_neg (by omega), if_neg (by omega),
      if_neg (by omega)]
  have left : .ofNat (size.toNat - need.toNat) = size - need :=
    UInt64.toNat.inj (by rw [toNat_ofNat_lt (by omega), hleft])
  have leftTag : .ofNat (size.toNat - need.toNat + 1) = (size - need) ||| freeBit := by
    apply UInt64.toNat.inj
    rw [freeBit, toNat_or_one _ (by omega), hleft, toNat_ofNat_lt (by omega)]
  have uses := h.uses (m := [⟨need.toNat, false⟩, ⟨size.toNat - need.toNat, true⟩]) (n := need)
    (by omega) (by simp) (by simp)
  refine
    { chain := ?_
      top_eq := by
        simp only [List.cons_append, List.nil_append, span_append, span_cons] at top ⊢
        omega
      last_eq := ?_
      free_perm := ?_
      inUse_eq := uses.1
      count_eq := uses.2
      top_le := h.top_le
      size_le := by simpa [size_cutMemory] using h.size_le
      size_mod := h.size_mod
      small := by simpa [size_cutMemory] using h.small }
  · refine Chain.replace (show Chain a.memory 0 0
      (pre ++ ([⟨size.toNat, true⟩] ++ post)) from h.chain) (by simp; omega)
      ?_ ?_ ?_
    · intro o c hc
      have := before.placed_bounds hc
      exact ⟨outside _ (by omega), outside _ (by omega)⟩
    · simp only [Chain, Nat.zero_add]
      refine ⟨?_, ?_, hmin, hmod, ?_, ?_, by omega, by omega, trivial⟩
      · rw [outside _ (by omega), ← hback, Nat.zero_add]
      · rw [word', if_neg (by omega), if_pos rfl]
        simp [Chunk.tag]
      · rw [word', if_neg (by omega), if_neg (by omega), if_neg (by omega),
          if_neg (by omega), if_pos rfl]
        simp
      · rw [word', if_neg (by omega), if_neg (by omega), if_neg (by omega), if_pos rfl, ← leftTag]
        simp [Chunk.tag]
    · intro o c hc
      have bounds' := after.placed_bounds (by simpa using hc)
      have total : span (pre ++ ⟨size.toNat, true⟩ :: post) =
          span pre + size.toNat + span post := by
        simp [Nat.add_assoc]
      simp only [Nat.zero_add, span_cons, span_nil, Nat.add_zero] at bounds' ⊢
      refine ⟨outside _ (by omega), ?_⟩
      split
      · next heq =>
        rw [heq, word', if_neg (by omega), if_neg (by omega), if_pos (by omega), ← left]
        rfl
      · exact outside _ (by omega)
  · have last := h.last_eq
    simp only [List.cons_append, List.nil_append, span_append, span_cons, endBack_append, endBack]
      at top last ⊢
    cases post with
    | nil =>
      rw [if_neg (by rw [UInt64.lt_iff_toNat_lt, hnext, top]; simp)]
      simp only [endBack, span_nil, hcut]
      omega
    | cons =>
      have first := after.2.2.1
      rw [if_pos (by rw [UInt64.lt_iff_toNat_lt, hnext, top, span_cons]; omega)]
      simp only [endBack, span_cons] at last ⊢
      omega
  · have sorted := (perm_sortOffsets (offs.push (off + need))).map (·.toNat)
    refine sorted.trans ?_
    simp only [Array.toList_push, List.map_append, List.map_cons, List.map_nil, hcut,
      List.cons_append, List.nil_append, gaps_append, gaps_cons, Nat.zero_add]
    rw [show span pre + need.toNat + (size.toNat - need.toNat) = span pre + size.toNat by omega]
    refine (hoffs.append_right _).trans ?_
    rw [List.append_assoc]
    exact (List.perm_append_comm).append_left _

theorem wf_whole {offs : Array UInt64}
    (hoffs : (offs.toList.map (·.toNat)).Perm (gaps 0 pre ++ gaps (span pre + size.toNat) post)) :
    Wf { a with
        memory := stamp a.memory (span pre) size
        free := offs
        inUse := a.inUse + size
        mallocs := a.mallocs + 1 }
      (pre ++ ((⟨size.toNat, false⟩ :: []) ++ post)) := by
  have bounds := h.chain.placed_bounds (o := span pre) (c := ⟨size.toNat, true⟩) (by simp)
  have small := h.span_small
  have top := h.top_eq
  simp only at bounds
  have word := word_stamp a.memory (span pre) (show (_ + size.toNat) / 8 ≤ _ by omega) (by omega)
  obtain ⟨before, -, -, -, -, after⟩ := chain_append.1 h.chain
  have uses := h.uses (m := [⟨size.toNat, false⟩]) le_rfl (by simp) (by simp)
  refine
    { chain := ?_
      top_eq := by simpa using top
      last_eq := by simpa [endBack_append, endBack] using h.last_eq
      free_perm := by simpa using hoffs
      inUse_eq := uses.1
      count_eq := uses.2
      top_le := h.top_le
      size_le := by simpa using h.size_le
      size_mod := h.size_mod
      small := by simpa using h.small }
  refine h.chain.retag rfl ?_ ?_ fun o c hc hne => ?_
  · rw [Nat.zero_add, word, if_neg (by omega), if_pos rfl]
    simp [Chunk.tag]
  · rw [Nat.zero_add, word, if_neg (by omega), if_neg (by omega)]
  · have here : (span pre, ⟨size.toNat, true⟩) ∈ placed 0 (pre ++ ⟨size.toNat, true⟩ :: post) := by
      simp
    obtain same | apart | apart := h.placed_apart here hc
    · omega
    · have := h.chain.placed_bounds hc
      simp only at apart
      rw [word, word, if_neg (by omega), if_neg (by omega), if_neg (by omega), if_neg (by omega)]
      exact ⟨rfl, rfl⟩
    · have := h.chain.placed_bounds hc
      rw [word, word, if_neg (by omega), if_neg (by omega), if_neg (by omega), if_neg (by omega)]
      exact ⟨rfl, rfl⟩

end

/-- `x` hands out a payload of `k` words at `p`, and which words there are besides the headers does
not matter. -/
def Serves (x : ArenaM UInt64) (a : Arena) (cs : List Chunk) (p : UInt64) (k : Nat) : Prop :=
  ∃ (s : Arena) (cs' : List Chunk), s.size = a.size ∧ ∀ m, Wf { a with memory := m } cs →
    ∃ m', x { a with memory := m } = .ok p { s with memory := m' } ∧
      Wf { s with memory := m' } cs' ∧
      Takes { a with memory := m } { s with memory := m' } p k

theorem Serves.congr {x y : ArenaM UInt64} (h : Serves y a cs p k)
    (same : ∀ m, Wf { a with memory := m } cs →
      x { a with memory := m } = y { a with memory := m }) : Serves x a cs p k := by
  obtain ⟨s, cs', size, serves⟩ := h
  exact ⟨s, cs', size, fun m hm => by rw [same m hm]; exact serves m hm⟩

theorem takeFree_spec (h : Wf a cs)
    (hget : a.free.toList[i]? = some off) (hc : (off.toNat, ⟨size.toNat, true⟩) ∈ placed 0 cs)
    (hmod : need.toNat % 16 = 0) (hmin : 32 ≤ need.toNat) (hfit : need.toNat ≤ size.toNat) :
    ∃ k, need.toNat ≤ 8 * k + 16 ∧ Serves (takeFree need i off size) a cs (off + overhead) k := by
  obtain ⟨pre, post, rfl, hoff⟩ := split_at_placed hc
  rw [Nat.zero_add] at hoff
  have bounds := h.chain.placed_bounds hc
  simp only [hoff] at bounds
  have small := h.span_small
  have hp : (off + overhead).toNat = span pre + 16 := by
    rw [UInt64.toNat_add, hoff]
    simp only [overhead, UInt64.reduceToNat]
    omega
  have hcut : (off + need).toNat = span pre + need.toNat := by
    rw [UInt64.toNat_add, hoff]
    omega
  have hnext : (off + size).toNat = span pre + size.toNat := by
    rw [UInt64.toNat_add, hoff]
    omega
  have hoffs : ((a.free.eraseIdxIfInBounds i).toList.map (·.toNat)).Perm
      (gaps 0 pre ++ gaps (span pre + size.toNat) post) := by
    rw [Array.toList_eraseIdxIfInBounds]
    refine perm_of_eraseIdx hget ?_
    simpa [hoff] using h.free_perm
  have hleft :=
    UInt64.toNat_sub_of_le _ _ (UInt64.le_iff_toNat_le.2 hfit)
  have lo : index (off + overhead) = span pre / 8 + 2 := by
    rw [index_eq, hp]
    omega
  have header : index off = span pre / 8 := by rw [index_eq, hoff]
  by_cases hlarge : size - need ≥ minChunk
  · have room : need.toNat + 32 ≤ size.toNat := by
      have : minChunk.toNat ≤ (size - need).toNat := UInt64.le_iff_toNat_le.1 hlarge
      rw [hleft] at this
      simp only [minChunk, overhead, alignment, UInt64.reduceAdd, UInt64.reduceToNat] at this
      omega
    refine ⟨(need.toNat - 16) / 8, by omega, { a with
      last := if off + size < a.top then a.last else off + need
      free := sortOffsets ((a.free.eraseIdxIfInBounds i).push (off + need))
      inUse := a.inUse + need
      mallocs := a.mallocs + 1 },
        pre ++ ((⟨need.toNat, false⟩ :: [⟨size.toNat - need.toNat, true⟩]) ++ post), rfl,
      fun m h => ?_⟩
    have small := h.span_small
    simp only at small
    have cut := wf_cut h hoff hmod hmin room hoffs
    have word := word_cutMemory hcut hnext (by omega)
      (show a.top.toNat ≤ 8 * m.size by have := h.top_eq; simp only at this; omega) room
    simp only [takeFree, modify_bind, hlarge, if_true]
    rw [bind_ok (split_ok (by rw [index_eq, hcut]; simp only; omega)
        (fun hlt => by
          rw [UInt64.lt_iff_toNat_lt, hnext, h.top_eq]
            at hlt; rw [index_eq, hnext]; simp only; omega)),
      bind_ok (setSize_ok (by rw [header, size_cutMemory]; simp only; omega) _ _),
      bind_ok (clearPayload_ok (by rw [lo, index_eq, hcut]; omega)
        (by rw [index_eq, hcut, Memory.size_write, size_cutMemory]; simp only; omega))]
    simp only [allocated, modify_bind, pure_run, if_false, Bool.false_eq_true, lo, header,
      index_eq, hcut]
    refine ⟨_, rfl, cut, ?_⟩
    refine takes_of_gap h cut (by simp; omega) (by simp) hp (fun i hi => ?_) (fun i hi => ?_)
      (by simp [size_cutMemory]) rfl rfl
    · simp only
      rw [Memory.word_clear, if_pos (by omega)]
    · simp only
      rw [Memory.word_clear, if_neg (by omega), Memory.word_write, if_neg (by omega), word,
        if_neg (by omega), if_neg (by omega), if_neg (by omega)]
  · refine ⟨(size.toNat - 16) / 8, by omega, { a with
      free := a.free.eraseIdxIfInBounds i
      inUse := a.inUse + size
      mallocs := a.mallocs + 1 }, pre ++ ((⟨size.toNat, false⟩ :: []) ++ post), rfl, fun m h => ?_⟩
    have small := h.span_small
    simp only at small
    have whole := wf_whole h hoffs
    simp only [takeFree, modify_bind, hlarge, if_false]
    rw [bind_ok (setSize_ok (by rw [header]; simp only; omega) _ _),
      bind_ok (clearPayload_ok (by rw [lo, index_eq, hnext]; omega)
        (by rw [index_eq, hnext, Memory.size_write]; simp only; omega))]
    simp only [allocated, modify_bind, pure_run, if_false, Bool.false_eq_true, lo, header,
      index_eq, hnext]
    refine ⟨_, rfl, whole, ?_⟩
    refine takes_of_gap h whole (by simp) (by simp) hp (fun i hi => ?_) (fun i hi => ?_)
      (by simp) rfl rfl
    · simp only
      rw [Memory.word_clear, if_pos (by omega)]
    · simp only
      rw [Memory.word_clear, if_neg (by omega), Memory.word_write, if_neg (by omega)]

theorem mem_placed_last (off back : Nat) (h : cs ≠ []) :
    ∃ c, c.size = endBack back cs ∧ (off + span cs - endBack back cs, c) ∈ placed off cs := by
  induction cs generalizing off back with
  | nil => exact absurd rfl h
  | cons d ds ih =>
    cases ds with
    | nil => exact ⟨d, rfl, by simp [endBack]⟩
    | cons =>
      obtain ⟨c, hsize, hc⟩ := ih (off + d.size) d.size (by simp)
      refine ⟨c, hsize, ?_⟩
      rw [placed_cons, span_cons, ← Nat.add_assoc]
      exact .tail _ hc

theorem wf_top (h : Wf a cs) (hmod : need.toNat % 16 = 0) (hmin : 32 ≤ need.toNat)
    (hroom : span cs + need.toNat ≤ a.size.toNat) :
    Wf { a with
        memory := stamp (a.memory.write (span cs / 8) (UInt64.ofNat (endBack 0 cs))) (span cs) need
        last := a.top
        top := a.top + need
        inUse := a.inUse + need
        mallocs := a.mallocs + 1 }
      (cs ++ [⟨need.toNat, false⟩]) := by
  have small := h.small
  have size_le := h.size_le
  have htop : (a.top + need).toNat = span cs + need.toNat := by
    rw [UInt64.toNat_add, h.top_eq]
    omega
  have word := word_stamp (a.memory.write (span cs / 8) (.ofNat (endBack 0 cs))) (span cs)
    (by rw [Memory.size_write]; omega) hmin
  simp only [Memory.word_write] at word
  refine
    { chain := chain_append.2 ⟨h.chain.frame fun o c hc => ?_, ?_, ?_, hmin, hmod, trivial⟩
      top_eq := by simpa using htop
      last_eq := by simp [endBack_append, endBack, h.top_eq]
      free_perm := by simpa using h.free_perm
      inUse_eq := ?_
      count_eq := ?_
      top_le := by rwa [htop]
      size_le := by simpa using h.size_le
      size_mod := h.size_mod
      small := by simpa using h.small }
  · have bounds := h.chain.placed_bounds hc
    rw [word, word, if_neg (by omega), if_neg (by omega), if_neg (by omega), if_neg (by omega),
      if_neg (by omega), if_neg (by omega)]
    exact ⟨rfl, rfl⟩
  · rw [Nat.zero_add, word, if_neg (by omega), if_neg (by omega), if_pos ⟨rfl, by omega⟩]
  · rw [Nat.zero_add, word, if_neg (by omega), if_pos rfl]
    simp [Chunk.tag]
  · have used_le := span_filter_le (fun c => !c.free) cs
    simp only [List.filter_append, List.filter_cons, List.filter_nil, span_append,
      span_cons, span_nil,
      Bool.not_false, if_true]
    rw [UInt64.toNat_add, h.inUse_eq]
    omega
  · simp only [List.countP_append, List.countP_cons, List.countP_nil, Bool.not_false, if_true]
    rw [h.count_eq, UInt64.ofNat_add _ (0 + 1), ← UInt64.add_assoc]
    rfl

theorem takeTop_ok {back : UInt64} (hback : a.top > 0 → chunkSize a.memory a.last = .ok back)
    (hzero : ¬ a.top > 0 → back = 0) (hlo : index a.top + 1 < a.memory.size)
    (hle : index (a.top + overhead) ≤ index (a.top + need))
    (hhi : index (a.top + need) ≤ a.memory.size) :
    takeTop need a = .ok (a.top + overhead) { a with
      memory := ((a.memory.write (index a.top) back).write (index a.top + 1) need).clear
        (index (a.top + overhead)) (index (a.top + need))
      last := a.top
      top := a.top + need
      inUse := a.inUse + need
      mallocs := a.mallocs + 1 } := by
  unfold takeTop
  simp only [get_bind]
  by_cases hpos : a.top > 0
  · rw [if_pos hpos, bind_ok (inspect_ok (hback hpos)), bind_ok (setBack_ok (by omega) _),
      bind_ok (setSize_ok (by simpa using hlo) _ _),
        bind_ok (clearPayload_ok hle (by simpa using hhi))]
    rfl
  · rw [if_neg hpos, pure_bind_run, ← hzero hpos, bind_ok (setBack_ok (by omega) _),
      bind_ok (setSize_ok (by simpa using hlo) _ _),
        bind_ok (clearPayload_ok hle (by simpa using hhi))]
    rfl

theorem takeTop_spec (hmod : need.toNat % 16 = 0) (hmin : 32 ≤ need.toNat)
    (hroom : span cs + need.toNat ≤ a.size.toNat) :
    ∃ k, need.toNat ≤ 8 * k + 16 ∧ Serves (takeTop need) a cs (a.top + overhead) k := by
  refine ⟨(need.toNat - 16) / 8, by omega, { a with
    last := a.top
    top := a.top + need
    inUse := a.inUse + need
    mallocs := a.mallocs + 1 }, cs ++ [⟨need.toNat, false⟩], rfl, fun m h => ?_⟩
  have small := h.small
  have size_le := h.size_le
  have top := h.top_eq
  have last := h.last_eq
  simp only at small size_le top last
  have hp : (a.top + overhead).toNat = span cs + 16 := by
    rw [UInt64.toNat_add, top]
    simp only [overhead, UInt64.reduceToNat]
    omega
  have htop : (a.top + need).toNat = span cs + need.toNat := by
    rw [UInt64.toNat_add, top]
    omega
  have hpos : a.top > 0 ↔ 0 < span cs := by rw [gt_iff_lt, UInt64.lt_iff_toNat_lt, top]; rfl
  have hback : a.top > 0 → chunkSize m a.last = .ok (.ofNat (endBack 0 cs)) := by
    intro h0
    have hne : cs ≠ [] := by
      rintro rfl
      exact absurd (hpos.1 h0) (Nat.lt_irrefl _)
    obtain ⟨c, hsize, hc⟩ := mem_placed_last 0 0 hne
    rw [show 0 + span cs - endBack 0 cs = a.last.toNat by omega] at hc
    rw [h.chunkSize_eq hc, hsize]
  have hzero : ¬ a.top > 0 → UInt64.ofNat (endBack 0 cs) = 0 := by
    intro h0
    rw [hpos] at h0
    rw [show endBack 0 cs = 0 by omega]
    rfl
  have lo : index (a.top + overhead) = span cs / 8 + 2 := by
    rw [index_eq, hp]
    omega
  have header : index a.top = span cs / 8 := by rw [index_eq, top]
  have hi : index (a.top + need) = (span cs + need.toNat) / 8 := by rw [index_eq, htop]
  have run := takeTop_ok (a := { a with memory := m }) hback hzero (by simp only; omega)
    (by simp only; omega)
    (show index (a.top + need) ≤ m.size by omega)
  have whole := wf_top h hmod hmin hroom
  rw [header, lo, hi, ← stamp] at run
  refine ⟨_, run, whole, fun n hn => ?_, fun q n => ?_, fun i hi => ?_, fun q n i hq hi => ?_,
    by simp, rfl, rfl⟩
  · have bounds := h.live_bounds hn
    simp only at bounds
    omega
  · rw [whole.live_iff_mem, h.live_iff_mem, ← UInt64.toNat_inj, hp]
    simp
  · simp only
    rw [stamp, Memory.word_clear, if_pos (by omega)]
  · have bounds := h.live_bounds hq
    simp only at bounds ⊢
    rw [stamp, Memory.word_clear, if_neg (by omega), Memory.word_write, if_neg (by omega),
      Memory.word_write, if_neg (by omega)]

theorem Wf.chunkSize_listed (h : Wf a cs) (listed : off ∈ a.free) :
    ∃ c, (off.toNat, c) ∈ placed 0 cs ∧ chunkSize a.memory off = .ok (UInt64.ofNat c.size) ∧
      (UInt64.ofNat c.size).toNat = c.size ∧ c.size ≤ a.top.toNat := by
  obtain ⟨c, hc, -⟩ := mem_gaps.1
    (h.free_perm.subset (List.mem_map_of_mem (Array.mem_toList_iff.2 listed)))
  have bounds := h.chain.placed_bounds hc
  have small := h.span_small
  have top := h.top_eq
  exact ⟨c, hc, h.chunkSize_eq hc, toNat_ofNat_lt (by omega), by omega⟩

/-- An allocation succeeds exactly if something fits. One that fails is counted, and that is all. -/
theorem malloc_serves (h : Wf a cs) (n : UInt64) :
    (∀ m, Wf { a with memory := m } cs → malloc n { a with memory := m } =
      .ok 0 { a with memory := m, failures := a.failures + 1 }) ∧ ¬ a.Fits n.toNat a.size.toNat ∨
    ∃ p k, n.toNat ≤ 8 * k ∧ a.Fits n.toNat a.size.toNat ∧ Serves (malloc n) a cs p k := by
  have small := h.small
  have size_le := h.size_le
  have top := h.top_eq
  have top_le := h.top_le
  have least : n.toNat + 16 ≤ needed n.toNat ∧ 32 ≤ needed n.toNat ∧ needed n.toNat % 16 = 0 := by
    unfold needed
    omega
  by_cases hbig : n > a.size
  · refine .inl ⟨fun m _ => ?_, ?_⟩
    · simp only [malloc, get_bind]
      rw [if_pos hbig]
      rfl
    · rw [gt_iff_lt, UInt64.lt_iff_toNat_lt] at hbig
      rintro (⟨off, listed, size, found, enough⟩ | room)
      · obtain ⟨c, -, told, exact, below⟩ := h.chunkSize_listed listed
        cases told.symm.trans found
        omega
      · omega
  · have run : ∀ m, Wf { a with memory := m } cs →
        ∀ {r}, firstFit a.memory (chunkFor n) 0 a.free.toList = .ok r →
        inspect (firstFit · (chunkFor n) 0 a.free.toList) { a with memory := m } = .ok r
          { a with memory := m } := by
      intro m hm r fit
      refine inspect_ok ((firstFit_congr (fun off hoff => ?_) 0).trans fit)
      obtain ⟨c, hc, told, -⟩ := h.chunkSize_listed (Array.mem_toList_iff.1 hoff)
      exact (hm.chunkSize_eq hc).trans told.symm
    have fair := hbig
    rw [gt_iff_lt, UInt64.lt_iff_toNat_lt] at fair
    have need : (chunkFor n).toNat = needed n.toNat := toNat_chunkFor (by omega)
    have most : needed n.toNat ≤ a.size.toNat + 16 ∨ needed n.toNat = 32 := by
      have mod := h.size_mod
      unfold needed
      omega
    rw [← need] at most least
    have listed : ∀ off ∈ a.free.toList, off.toNat ∈ gaps 0 cs := fun off hoff =>
      h.free_perm.subset (List.mem_map_of_mem hoff)
    obtain ⟨hnone, none⟩ | ⟨j, off, size, hfit, hget, hmem, hneed⟩ :=
      firstFit_spec h (chunkFor n) 0 listed
    · have hsum : (a.top + chunkFor n).toNat = span cs + (chunkFor n).toNat := by
        rw [UInt64.toNat_add, top]
        omega
      by_cases hfull : a.top + chunkFor n > a.size
      · refine .inl ⟨fun m hm => ?_, ?_⟩
        · simp only [malloc, get_bind]
          rw [if_neg hbig, get_bind, bind_ok (run m hm hnone)]
          simp only [get_bind]
          rw [if_pos hfull]
          rfl
        · rw [gt_iff_lt, UInt64.lt_iff_toNat_lt, hsum] at hfull
          rintro (⟨off, hoff, size, found, enough⟩ | room)
          · obtain ⟨c, hc, told, exact, -⟩ := h.chunkSize_listed hoff
            cases told.symm.trans found
            have short := none off (Array.mem_toList_iff.2 hoff) c hc
            omega
          · omega
      · have room := hfull
        rw [gt_iff_lt, UInt64.lt_iff_toNat_lt, hsum] at room
        obtain ⟨k, hk, serves⟩ := takeTop_spec least.2.2 least.2.1
          (show span cs + (chunkFor n).toNat ≤ a.size.toNat by omega)
        refine .inr ⟨_, k, by omega, .inr (by omega), serves.congr fun m hm => ?_⟩
        simp only [malloc, get_bind]
        rw [if_neg hbig, get_bind, bind_ok (run m hm hnone)]
        simp only [get_bind]
        rw [if_neg hfull]
    · obtain ⟨k, hk, serves⟩ := takeFree_spec h hget hmem least.2.2 least.2.1 hneed
      have told := h.chunkSize_eq hmem
      rw [UInt64.ofNat_toNat] at told
      rw [Nat.zero_add] at hfit
      refine .inr ⟨_, k, by omega,
        .inl ⟨off, Array.mem_toList_iff.1 (List.mem_of_getElem? hget), size, told, by omega⟩,
        serves.congr fun m hm => ?_⟩
      simp only [malloc, get_bind]
      rw [if_neg hbig, get_bind, bind_ok (run m hm hfit)]

theorem malloc_spec (h : Wf a cs) (n : UInt64) :
    malloc n a = .ok 0 { a with failures := a.failures + 1 } ∧ ¬ a.Fits n.toNat a.size.toNat ∨
    ∃ p a' cs' k, malloc n a = .ok p a' ∧ p ≠ 0 ∧ Wf a' cs' ∧ Takes a a' p k ∧ n.toNat ≤ 8 * k ∧
      a.Fits n.toNat a.size.toNat ∧ a'.size = a.size := by
  refine (malloc_serves h n).imp (.imp_left fun failed => failed a.memory h) ?_
  rintro ⟨p, k, enough, fits, s, cs', same, serves⟩
  obtain ⟨m, run, wf, takes⟩ := serves a.memory h
  refine ⟨p, _, cs', k, run, ?_, wf, takes, enough, fits, same⟩
  rintro rfl
  have bounds := wf.live_bounds ((takes.live _ k).2 (.inr ⟨rfl, rfl⟩))
  simp at bounds

end TxHeap.Arena
