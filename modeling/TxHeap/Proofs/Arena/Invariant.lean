import TxHeap.Arena.Sweep
import TxHeap.Proofs.Word

/-! The chunks of an arena as a list, and the payloads in use: where they are, that they are apart,
and that writing inside one leaves the chunks alone. -/

namespace TxHeap.Arena
open Word

variable {o off : Nat} {c : Chunk} {post pre : List Chunk}

structure Chunk where
  /-- Bytes, headers included. -/
  size : Nat
  free : Bool
deriving DecidableEq, Repr

def Chunk.tag (c : Chunk) : Nat := if c.free then c.size + 1 else c.size

theorem Chunk.tag_bounds (c : Chunk) : c.size ≤ c.tag ∧ c.tag ≤ c.size + 1 := by
  unfold tag
  split <;> omega

def span (cs : List Chunk) : Nat := (cs.map (·.size)).sum

/-- Chunks that follow one another from `off` on, each with the byte it begins at. -/
def placed : Nat → List Chunk → List (Nat × Chunk)
  | _, [] => []
  | off, c :: cs => (off, c) :: placed (off + c.size) cs

def endBack (back : Nat) : List Chunk → Nat
  | [] => back
  | c :: cs => endBack c.size cs

/-- The header words from byte `off` on describe `cs`, after a chunk of `back` bytes. -/
def Chain (m : Memory) : Nat → Nat → List Chunk → Prop
  | _, _, [] => True
  | off, back, c :: cs =>
    m.word (off / 8) = UInt64.ofNat back ∧ m.word (off / 8 + 1) = UInt64.ofNat c.tag ∧
      32 ≤ c.size ∧ c.size % 16 = 0 ∧ Chain m (off + c.size) c.size cs

@[simp] theorem span_nil : span [] = 0 := rfl

@[simp] theorem span_cons (c : Chunk) (cs : List Chunk) : span (c :: cs) = c.size + span cs := rfl

@[simp] theorem span_append (xs ys : List Chunk) : span (xs ++ ys) = span xs + span ys := by
  simp [span]

theorem span_filter_le (p : Chunk → Bool) (cs : List Chunk) : span (cs.filter p) ≤ span cs := by
  induction cs with
  | nil => simp
  | cons =>
    rw [List.filter_cons]
    split <;> simp only [span_cons] <;> omega

@[simp] theorem placed_nil (off : Nat) : placed off [] = [] := rfl

@[simp] theorem placed_cons (off : Nat) (c : Chunk) (cs : List Chunk) :
    placed off (c :: cs) = (off, c) :: placed (off + c.size) cs := rfl

@[simp] theorem placed_append (off : Nat) (xs ys : List Chunk) :
    placed off (xs ++ ys) = placed off xs ++ placed (off + span xs) ys := by
  induction xs generalizing off with
  | nil => rfl
  | cons c cs ih => simp [ih, Nat.add_assoc]

theorem split_at_placed {cs : List Chunk} (h : (o, c) ∈ placed off cs) :
    ∃ pre post, cs = pre ++ c :: post ∧ o = off + span pre := by
  induction cs generalizing off with
  | nil => simp at h
  | cons d ds ih =>
    obtain same | h := List.mem_cons.1 h
    · obtain ⟨rfl, rfl⟩ := Prod.mk.inj same
      exact ⟨[], ds, rfl, rfl⟩
    · obtain ⟨pre, post, rfl, rfl⟩ := ih h
      exact ⟨d :: pre, post, rfl, by simp [Nat.add_assoc]⟩

theorem endBack_append (back : Nat) (xs ys : List Chunk) :
    endBack back (xs ++ ys) = endBack (endBack back xs) ys := by
  induction xs generalizing back with
  | nil => rfl
  | cons c cs ih => exact ih c.size

theorem chain_append {m : Memory} {back : Nat} {xs ys : List Chunk} : Chain m off back (xs ++ ys) ↔
      Chain m off back xs ∧ Chain m (off + span xs) (endBack back xs) ys := by
  induction xs generalizing off back with
  | nil => simp [Chain, endBack]
  | cons c cs ih => simp [Chain, endBack, ih, Nat.add_assoc, and_assoc]

namespace Chain
variable {m m' : Memory} {back : Nat} {cs : List Chunk}

section
variable (h : Chain m off back cs)
include h

theorem frame (same : ∀ o c, (o, c) ∈ placed off cs →
      m'.word (o / 8) = m.word (o / 8) ∧ m'.word (o / 8 + 1) = m.word (o / 8 + 1)) :
    Chain m' off back cs := by
  induction cs generalizing off back with
  | nil => trivial
  | cons c cs ih =>
    obtain ⟨hback, htag, hmin, hmod, hrest⟩ := h
    obtain ⟨sback, stag⟩ := same off c (by simp)
    refine ⟨sback.trans hback, stag.trans htag, hmin, hmod, ih hrest fun o d ho => ?_⟩
    exact same o d (by simp [ho])

theorem size_mem : ∀ c ∈ cs, 32 ≤ c.size ∧ c.size % 16 = 0 := by
  induction cs generalizing off back with
  | nil => simp
  | cons d ds ih =>
    obtain ⟨-, -, hmin, hmod, hrest⟩ := h
    intro c hc
    obtain rfl | hc := List.mem_cons.1 hc
    · exact ⟨hmin, hmod⟩
    · exact ih hrest c hc

theorem span_mod : span cs % 16 = 0 := by
  induction cs generalizing off back with
  | nil => rfl
  | cons c cs ih =>
    obtain ⟨-, -, -, hmod, hrest⟩ := h
    have tail := ih hrest
    rw [span_cons]
    omega

theorem placed_bounds (hc : (o, c) ∈ placed off cs) :
    off ≤ o ∧ 32 ≤ c.size ∧ c.size % 16 = 0 ∧ o + c.size ≤ off + span cs ∧ o % 16 = off % 16 := by
  obtain ⟨pre, post, rfl, rfl⟩ := split_at_placed hc
  have sizes := h.size_mem c (by simp)
  have before := (chain_append.1 h).1.span_mod
  simp only [span_append, span_cons]
  omega

theorem headers_eq (h' : Chain m' off back cs) (hc : (o, c) ∈ placed off cs) :
    m'.word (o / 8) = m.word (o / 8) ∧ m'.word (o / 8 + 1) = m.word (o / 8 + 1) := by
  obtain ⟨pre, post, rfl, rfl⟩ := split_at_placed hc
  have old := (chain_append.1 h).2
  have new := (chain_append.1 h').2
  exact ⟨new.1.trans old.1.symm, new.2.1.trans old.2.1.symm⟩

theorem words (hc : (o, c) ∈ placed off cs) : m.word (o / 8 + 1) = UInt64.ofNat c.tag := by
  obtain ⟨pre, post, rfl, rfl⟩ := split_at_placed hc
  exact (chain_append.1 h).2.2.1

theorem chunkSize_eq (hfit : off + span cs ≤ 8 * m.size)
    (hsmall : m.size < 2 ^ 60) {o : UInt64} (hc : (o.toNat, c) ∈ placed off cs) :
    chunkSize m o = .ok (UInt64.ofNat c.size) ∧ isFree m o = .ok c.free := by
  have bounds := h.placed_bounds hc
  have tag := c.tag_bounds
  have inside : o.toNat / 8 + 1 < m.size := by omega
  have word : sizeWord m o = .ok (.ofNat c.tag) := by
    rw [sizeWord, Memory.read?, index_eq, if_pos inside, h.words hc]
  have size : (.ofNat c.tag &&& ~~~freeBit) = .ofNat c.size := by
    apply UInt64.toNat.inj
    have even := toNat_and_not_one (UInt64.ofNat c.tag)
    rw [toNat_ofNat_lt (by omega)] at even
    rw [freeBit, even, toNat_ofNat_lt (by omega)]
    unfold Chunk.tag
    split <;> omega
  have free : ((.ofNat c.tag &&& freeBit) != 0) = c.free := by
    have odd := toNat_and_one (.ofNat c.tag)
    rw [toNat_ofNat_lt (by omega)] at odd
    have bit : (UInt64.ofNat c.tag &&& 1) = UInt64.ofNat (c.tag % 2) := by
      apply UInt64.toNat.inj
      rw [odd, toNat_ofNat_lt (by omega)]
    rw [freeBit, bit]
    unfold Chunk.tag
    cases c.free
    · simp [show c.size % 2 = 0 by omega]
    · simp [show (c.size + 1) % 2 = 1 by omega]
  rw [chunkSize, isFree, word, ← size, ← free]
  exact ⟨rfl, rfl⟩

end

/-- Chunks inside a chain may be exchanged for others that cover the same bytes, if the chunk
after them is told. -/
theorem replace {old new : List Chunk} (h : Chain m off back (pre ++ (old ++ post)))
    (hspan : span new = span old)
    (hpre : ∀ o c, (o, c) ∈ placed off pre →
      m'.word (o / 8) = m.word (o / 8) ∧ m'.word (o / 8 + 1) = m.word (o / 8 + 1))
    (hnew : Chain m' (off + span pre) (endBack back pre) new)
    (hpost : ∀ o c, (o, c) ∈ placed (off + span pre + span old) post →
      m'.word (o / 8 + 1) = m.word (o / 8 + 1) ∧
        m'.word (o / 8) = if o = off + span pre + span old then
          UInt64.ofNat (endBack (endBack back pre) new) else m.word (o / 8)) :
    Chain m' off back (pre ++ (new ++ post)) := by
  obtain ⟨before, rest⟩ := chain_append.1 h
  obtain ⟨-, after⟩ := chain_append.1 rest
  refine chain_append.2 ⟨before.frame hpre, chain_append.2 ⟨hnew, ?_⟩⟩
  rw [hspan]
  cases post with
  | nil => trivial
  | cons d =>
    obtain ⟨-, htag, hmin, hmod, tail⟩ := after
    obtain ⟨stag, sback⟩ := hpost _ d (.head _)
    rw [if_pos rfl] at sback
    refine ⟨sback, stag.trans htag, hmin, hmod, tail.frame fun o c hc => ?_⟩
    have bounds := tail.placed_bounds hc
    obtain ⟨stag, sback⟩ := hpost o c (by simp [hc])
    rw [if_neg (by omega)] at sback
    exact ⟨sback, stag⟩

theorem retag {d : Chunk} (h : Chain m off back (pre ++ c :: post)) (hsize : d.size = c.size)
    (htag : m'.word ((off + span pre) / 8 + 1) = UInt64.ofNat d.tag)
    (hback : m'.word ((off + span pre) / 8) = m.word ((off + span pre) / 8))
    (same : ∀ o e, (o, e) ∈ placed off (pre ++ c :: post) → o ≠ off + span pre →
      m'.word (o / 8) = m.word (o / 8) ∧ m'.word (o / 8 + 1) = m.word (o / 8 + 1)) :
    Chain m' off back (pre ++ d :: post) := by
  obtain ⟨before, here⟩ := chain_append.1 h
  have after := here.2.2.2.2
  refine replace (h) (show span [d] = span [c] by simp [hsize]) (fun o e ho => ?_) ?_
    fun o e ho => ?_
  · have bounds := before.placed_bounds ho
    exact same o e (by simp [ho]) (by omega)
  · exact ⟨hback.trans here.1, htag, hsize ▸ here.2.2.1, hsize ▸ here.2.2.2.1, trivial⟩
  · have bounds := after.placed_bounds (by simpa using ho)
    have hmin := here.2.2.1
    obtain ⟨sback, stag⟩ := same o e (by simp at ho; simp [ho]) (by omega)
    refine ⟨stag, ?_⟩
    split
    · next heq =>
      cases post with
      | nil => simp at ho
      | cons =>
        subst heq
        rw [sback]
        have first := after.1
        simpa [endBack, hsize] using first
    · exact sback

end Chain

variable {i k n : Nat} {cs : List Chunk} {p : UInt64} {m : Memory} {a : Arena}

/-- The chunks that the size words show from byte `off` on. -/
def chunksFrom (m : Memory) (top : Nat) : Nat → Nat → List Chunk
  | 0, _ => []
  | n + 1, off =>
    if off < top then
      let w := (m.word (off / 8 + 1)).toNat
      ⟨w / 2 * 2, w % 2 == 1⟩ :: chunksFrom m top n (off + w / 2 * 2)
    else []

def chunks (a : Arena) : List Chunk := chunksFrom a.memory a.top.toNat a.top.toNat 0

/-- The payloads in use: the byte each begins at and its number of words. -/
def payloads (off : Nat) (cs : List Chunk) : List (Nat × Nat) :=
  (placed off cs).filterMap fun (o, c) => if c.free then none else some (o + 16, (c.size - 16) / 8)

def gaps (off : Nat) (cs : List Chunk) : List Nat :=
  (placed off cs).filterMap fun (o, c) => if c.free then some o else none

/-- A payload of `n` words that begins at `p` is in use. -/
def Live (a : Arena) (p : UInt64) (n : Nat) : Prop := (p.toNat, n) ∈ payloads 0 a.chunks

instance (a : Arena) (p : UInt64) (n : Nat) : Decidable (a.Live p n) :=
  inferInstanceAs (Decidable (_ ∈ _))

/-- The arena is in order and its chunks are `cs`. -/
structure Wf (a : Arena) (cs : List Chunk) : Prop where
  chain : Chain a.memory 0 0 cs
  top_eq : a.top.toNat = span cs
  last_eq : a.last.toNat + endBack 0 cs = span cs
  free_perm : (a.free.toList.map (·.toNat)).Perm (gaps 0 cs)
  inUse_eq : a.inUse.toNat = span (cs.filter (!·.free))
  count_eq : a.mallocs = a.frees + UInt64.ofNat (cs.countP (!·.free))
  top_le : a.top.toNat ≤ a.size.toNat
  size_le : a.size.toNat ≤ 8 * a.memory.size
  size_mod : a.size.toNat % 16 = 0
  small : a.memory.size < 2 ^ 60

@[simp] theorem gaps_nil (off : Nat) : gaps off [] = [] := rfl

@[simp] theorem gaps_cons (off : Nat) (c : Chunk) (cs : List Chunk) :
    gaps off (c :: cs) = (if c.free then [off] else []) ++ gaps (off + c.size) cs := by
  cases h : c.free <;> simp [gaps, h]

@[simp] theorem gaps_append (off : Nat) (xs ys : List Chunk) :
    gaps off (xs ++ ys) = gaps off xs ++ gaps (off + span xs) ys := by
  simp [gaps]

@[simp] theorem payloads_nil (off : Nat) : payloads off [] = [] := rfl

@[simp] theorem payloads_cons (off : Nat) (c : Chunk) (cs : List Chunk) : payloads off (c :: cs) =
      (if c.free then [] else [(off + 16, (c.size - 16) / 8)]) ++ payloads (off + c.size) cs := by
  cases h : c.free <;> simp [payloads, h]

@[simp] theorem payloads_append (off : Nat) (xs ys : List Chunk) :
    payloads off (xs ++ ys) = payloads off xs ++ payloads (off + span xs) ys := by
  simp [payloads]

theorem payloads_of_free (h : ∀ c ∈ cs, c.free = true) (off : Nat) : payloads off cs = [] := by
  induction cs generalizing off with
  | nil => rfl
  | cons c cs ih => simp [h c, ih fun d hd => h d (.tail c hd)]

theorem mem_payloads {p : Nat} : (p, n) ∈ payloads off cs ↔
      ∃ o c, (o, c) ∈ placed off cs ∧ c.free = false ∧ p = o + 16 ∧ n = (c.size - 16) / 8 := by
  simp only [payloads, List.mem_filterMap, Prod.exists]
  constructor
  · rintro ⟨o, c, hc, h⟩
    cases hf : c.free <;> simp [hf] at h
    exact ⟨o, c, hc, hf, h.1.symm, h.2.symm⟩
  · rintro ⟨o, c, hc, hf, rfl, rfl⟩
    exact ⟨o, c, hc, by simp [hf]⟩

theorem mem_gaps : o ∈ gaps off cs ↔ ∃ c, (o, c) ∈ placed off cs ∧ c.free = true := by
  simp only [gaps, List.mem_filterMap, Prod.exists]
  constructor
  · rintro ⟨o', c, hc, h⟩
    cases hf : c.free <;> simp [hf] at h
    exact ⟨c, h ▸ hc, hf⟩
  · rintro ⟨c, hc, hf⟩
    exact ⟨o, c, hc, by simp [hf]⟩

theorem chunksFrom_eq {back : Nat} (h : Chain m off back cs) (hsmall : off + span cs < 2 ^ 64)
    (hn : cs.length ≤ n) :
    chunksFrom m (off + span cs) n off = cs := by
  induction cs generalizing off back n with
  | nil => cases n <;> simp [chunksFrom]
  | cons c cs ih =>
    obtain ⟨-, htag, hmin, hmod, hrest⟩ := h
    obtain ⟨k, rfl⟩ : ∃ k, n = k + 1 := ⟨n - 1, by simp at hn; omega⟩
    rw [span_cons] at hsmall ⊢
    have hword : (m.word (off / 8 + 1)).toNat = c.tag := by
      rw [htag, toNat_ofNat_lt (by have := c.tag_bounds; omega)]
    have hsize : c.tag / 2 * 2 = c.size := by unfold Chunk.tag; split <;> omega
    have hfree : (c.tag % 2 == 1) = c.free := by
      unfold Chunk.tag
      cases c.free <;> simp <;> omega
    have tail := ih hrest (by omega) (by simpa using hn)
    simp only [chunksFrom, hword, hsize, hfree]
    rw [if_pos (by omega), ← Nat.add_assoc, tail]

theorem length_le_span (h : ∀ c ∈ cs, 32 ≤ c.size) : 32 * cs.length ≤ span cs := by
  induction cs with
  | nil => simp
  | cons c cs ih =>
    have head := h c (by simp)
    have tail := ih fun d hd => h d (by simp [hd])
    simp only [List.length_cons, span_cons]
    omega

theorem ofNat_sub_overhead {n : Nat} (hmin : 32 ≤ n) (hmod : n % 16 = 0) (small : n < 2 ^ 63) :
    UInt64.ofNat n - overhead = UInt64.ofNat (8 * ((n - 16) / 8)) := by
  apply UInt64.toNat.inj
  rw [UInt64.toNat_sub, toNat_ofNat_lt (by omega), toNat_ofNat_lt (by omega)]
  simp only [overhead, UInt64.reduceToNat]
  omega

theorem placed_sorted {back : Nat} (h : Chain m off back cs) :
    (placed off cs).Pairwise (·.1 < ·.1) := by
  induction cs generalizing off back with
  | nil => exact .nil
  | cons c cs ih =>
    obtain ⟨-, -, hmin, -, rest⟩ := h
    refine List.pairwise_cons.2 ⟨fun x hx => ?_, ih rest⟩
    have := rest.placed_bounds hx
    omega

namespace Wf
section
variable (h : Wf a cs)
include h

theorem span_small : span cs < 2 ^ 63 ∧ span cs ≤ 8 * a.memory.size := by
  have := h.top_eq
  have := h.top_le
  have := h.size_le
  have := h.small
  omega

theorem chunks_eq : a.chunks = cs := by
  have small := h.span_small
  have short := length_le_span fun c hc => (h.chain.size_mem c hc).1
  have found := chunksFrom_eq h.chain (n := a.top.toNat) (by omega) (by rw [h.top_eq]; omega)
  rwa [Nat.zero_add, ← h.top_eq] at found

theorem live_iff_mem : a.Live p n ↔ (p.toNat, n) ∈ payloads 0 cs := by rw [Live, h.chunks_eq]

theorem live_iff : a.Live p n ↔
      ∃ o c, (o, c) ∈ placed 0 cs ∧ c.free = false ∧ p.toNat = o + 16 ∧ n = (c.size - 16) / 8 :=
  h.live_iff_mem.trans mem_payloads

theorem live_eq {a' : Arena} (h' : Wf a' cs) (p : UInt64) (n : Nat) : a'.Live p n ↔ a.Live p n := by
  rw [Live, Live, h.chunks_eq, h'.chunks_eq]

theorem split_at_live (hp : a.Live p n) :
    ∃ pre post, cs = pre ++ ⟨8 * n + 16, false⟩ :: post ∧ p.toNat = span pre + 16 ∧ 2 ≤ n := by
  obtain ⟨o, ⟨size, free⟩, hc, hf, hpo, rfl⟩ := h.live_iff.1 hp
  have bounds := h.chain.placed_bounds hc
  obtain ⟨pre, post, hcs, ho⟩ := split_at_placed hc
  simp only at hf bounds
  subst hf
  simp only
  refine ⟨pre, post, ?_, by omega, by omega⟩
  rw [hcs, show 8 * ((size - 16) / 8) + 16 = size by omega]

theorem chunkSize_eq {off : UInt64} (hc : (off.toNat, c) ∈ placed 0 cs) :
    chunkSize a.memory off = .ok (UInt64.ofNat c.size) := by
  have small := h.span_small
  exact (h.chain.chunkSize_eq (by omega) h.small hc).1

theorem isFree_eq {off : UInt64} (hc : (off.toNat, c) ∈ placed 0 cs) :
    isFree a.memory off = .ok c.free := by
  have small := h.span_small
  exact (h.chain.chunkSize_eq (by omega) h.small hc).2

theorem placed_apart {o' : Nat} {c' : Chunk} (hc : (o, c) ∈ placed 0 cs)
    (hc' : (o', c') ∈ placed 0 cs) : (o = o' ∧ c = c') ∨ o + c.size ≤ o' ∨ o' + c'.size ≤ o := by
  obtain ⟨pre, post, hcs, rfl⟩ := split_at_placed hc
  have chain := h.chain
  rw [hcs] at hc' chain
  obtain ⟨before, here, -, hmin, -, after⟩ := chain_append.1 chain
  simp only [placed_append, placed_cons, List.mem_append, List.mem_cons, Prod.mk.injEq] at hc'
  rcases hc' with hc' | ⟨rfl, rfl⟩ | hc'
  · have := before.placed_bounds hc'
    omega
  · exact .inl ⟨rfl, rfl⟩
  · have := after.placed_bounds hc'
    omega

theorem not_live_gap (hc : (o, c) ∈ placed 0 cs) (free : c.free = true) (hp : p.toNat = o + 16) :
    ¬ a.Live p n := by
  intro live
  obtain ⟨o', c', hc', used, hp', -⟩ := h.live_iff.1 live
  have bounds := h.chain.placed_bounds hc
  have bounds' := h.chain.placed_bounds hc'
  obtain ⟨-, rfl⟩ | apart | apart := h.placed_apart hc hc'
  · rw [free] at used
    cases used
  · omega
  · omega

theorem live_bounds (hp : a.Live p n) : p.toNat % 16 = 0 ∧ 16 ≤ p.toNat ∧ 2 ≤ n ∧
    p.toNat + 8 * n ≤ a.top.toNat := by
  obtain ⟨pre, post, rfl, hpre, hn⟩ := h.split_at_live hp
  have before := (chain_append.1 h.chain).1.span_mod
  have top := h.top_eq
  simp only [span_append, span_cons] at top
  omega

theorem live_unique (hp : a.Live p n) (hq : a.Live p k) : n = k := by
  obtain ⟨o, c, hc, hf, hpo, rfl⟩ := h.live_iff.1 hp
  obtain ⟨o', c', hc', hf', hpo', rfl⟩ := h.live_iff.1 hq
  have bounds := h.chain.placed_bounds hc
  have bounds' := h.chain.placed_bounds hc'
  obtain ⟨-, rfl⟩ | apart | apart := h.placed_apart hc hc'
  · rfl
  · omega
  · omega

theorem live_apart {q : UInt64} (hp : a.Live p n) (hq : a.Live q k) (hne : p ≠ q) :
    p.toNat + 8 * n + 16 ≤ q.toNat ∨ q.toNat + 8 * k + 16 ≤ p.toNat := by
  obtain ⟨o, c, hc, hf, hpo, rfl⟩ := h.live_iff.1 hp
  obtain ⟨o', c', hc', hf', hpo', rfl⟩ := h.live_iff.1 hq
  have bounds := h.chain.placed_bounds hc
  have bounds' := h.chain.placed_bounds hc'
  obtain ⟨rfl, -⟩ | apart | apart := h.placed_apart hc hc'
  · exact absurd (UInt64.toNat.inj (hpo.trans hpo'.symm)) hne
  · omega
  · omega

theorem usable_eq (hp : a.Live p n) : usable a.memory p = .ok (UInt64.ofNat (8 * n)) := by
  obtain ⟨o, c, hc, hf, hpo, rfl⟩ := h.live_iff.1 hp
  have bounds := h.chain.placed_bounds hc
  have small := h.span_small
  have off : (p - overhead).toNat = o := by
    rw [UInt64.toNat_sub, hpo]
    simp only [overhead, UInt64.reduceToNat]
    omega
  have sub := ofNat_sub_overhead bounds.2.1 bounds.2.2.1 (by omega)
  rw [usable, h.chunkSize_eq (off.symm ▸ hc), ← sub]
  rfl

theorem with_memory (hsize : m.size = a.memory.size) (same : ∀ o c, (o, c) ∈ placed 0 cs →
      m.word (o / 8) = a.memory.word (o / 8) ∧ m.word (o / 8 + 1) = a.memory.word (o / 8 + 1)) :
    Wf { a with memory := m } cs :=
  { h with
    chain := h.chain.frame same
    size_le := by simpa [hsize] using h.size_le
    small := by simpa [hsize] using h.small }

theorem header_apart (hp : a.Live p n) (hi : i < n) (hc : (o, c) ∈ placed 0 cs) :
    p.toNat / 8 + i ≠ o / 8 ∧ p.toNat / 8 + i ≠ o / 8 + 1 := by
  obtain ⟨o', c', hc', hf, hpo, rfl⟩ := h.live_iff.1 hp
  obtain ⟨rfl, rfl⟩ | apart | apart := h.placed_apart hc hc' <;> omega

theorem write_live (hp : a.Live p n) (hi : i < n)
    (v : UInt64) : Wf { a with memory := a.memory.write (p.toNat / 8 + i) v } cs := by
  refine h.with_memory (Memory.size_write _ _ _) fun o c hc => ?_
  have apart := h.header_apart hp hi hc
  rw [Memory.word_write, Memory.word_write, if_neg (by omega), if_neg (by omega)]
  exact ⟨rfl, rfl⟩

theorem capacity_eq : a.capacity.toNat = 8 * a.memory.size := by
  have small := h.small
  rw [capacity, UInt64.toNat_mul, toNat_ofNat_lt (by omega)]
  simp only [UInt64.reduceToNat]
  omega

theorem resize {n : UInt64} (hcap : alignDown n alignment ≤ a.capacity)
    (htop : a.top ≤ alignDown n alignment) : Wf { a with size := alignDown n alignment } cs := by
  rw [UInt64.le_iff_toNat_le] at hcap htop
  have down := toNat_alignDown n alignment 4 (by decide) rfl
  exact
    { h with
      top_le := htop
      size_le := by rw [h.capacity_eq] at hcap; exact hcap
      size_mod := by simp only [down]; omega }

end
end Wf

def Good (a : Arena) : Prop := Wf a a.chunks

theorem Wf.good (h : Wf a cs) : a.Good := by
  rwa [Good, h.chunks_eq]

structure SamePayloads (a a' : Arena) : Prop where
  live : ∀ q n, a'.Live q n ↔ a.Live q n
  kept : ∀ q n i, a.Live q n → i < n →
    a'.memory.word (q.toNat / 8 + i) = a.memory.word (q.toNat / 8 + i)
  memory_size : a'.memory.size = a.memory.size
  mallocs : a'.mallocs = a.mallocs
  frees : a'.frees = a.frees

theorem wf_ofMemory {size : UInt64} (hsmall : m.size < 2 ^ 60) (h : ofMemory m size = .ok a) :
    Wf a [] := by
  have down := toNat_alignDown size alignment 4 (by decide) rfl
  simp only [ofMemory] at h
  split at h
  · cases h
  · split at h
    · cases h
    · next hfit =>
      cases h
      rw [gt_iff_lt, UInt64.lt_iff_toNat_lt, UInt64.toNat_mul, toNat_ofNat_lt (by omega)] at hfit
      simp only [UInt64.reduceToNat] at hfit
      exact
        { chain := trivial
          top_eq := rfl
          last_eq := rfl
          free_perm := .refl _
          inUse_eq := rfl
          count_eq := rfl
          top_le := Nat.zero_le _
          size_le := by simp only; omega
          size_mod := by simp only [down]; omega
          small := hsmall }

end TxHeap.Arena
