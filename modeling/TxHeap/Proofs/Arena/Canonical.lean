import TxHeap.Proofs.Arena.History

/-! What a sweep arrives at. Every free chunk is followed by one in use, the free list is in address
order, sweeping again changes nothing, and no request is refused that could be served before. -/

namespace TxHeap.Arena
variable {a b : Arena} {cs : List Chunk}

/-- Every free chunk is followed by one in use: no two neighbours are free, nor is the highest
chunk. -/
def Settled : List Chunk → Prop
  | [] => True
  | c :: cs => (c.free = true → ∃ d ∈ cs.head?, d.free = false) ∧ Settled cs

theorem settled_coalesce (cs : List Chunk) : Settled (coalesce cs) := by
  induction cs with
  | nil => trivial
  | cons c cs ih =>
    obtain ⟨kept, used⟩ | ⟨-, -, gone⟩ | ⟨-, d, ds, hd, first, merged⟩ := coalesce_cases c cs
    · rw [kept]
      exact ⟨used, ih⟩
    · rw [gone]
      trivial
    · rw [first] at ih
      rw [merged]
      exact ⟨fun _ => ih.1 hd, ih.2⟩

theorem size_le_span {c : Chunk} (hc : c ∈ cs) : c.size ≤ span cs := by
  obtain ⟨xs, ys, rfl⟩ := List.append_of_mem hc
  rw [span_append, span_cons]
  omega

/-- A free chunk is part of one that is no smaller, or of what the top gains. -/
theorem coalesce_room {c : Chunk} (hc : c ∈ cs) (free : c.free = true) :
    (∃ d ∈ coalesce cs, d.free = true ∧ c.size ≤ d.size) ∨
    span (coalesce cs) + c.size ≤ span cs := by
  induction cs with
  | nil => cases hc
  | cons x xs ih =>
    obtain ⟨kept, -⟩ | ⟨-, -, gone⟩ | ⟨-, d, ds, hd, first, merged⟩ := coalesce_cases x xs
    · rw [kept, span_cons, span_cons]
      obtain rfl | hc := List.mem_cons.1 hc
      · exact .inl ⟨c, .head _, free, le_rfl⟩
      · obtain ⟨e, he, found⟩ | gained := ih hc
        · exact .inl ⟨e, List.mem_cons_of_mem x he, found⟩
        · exact .inr (by omega)
    · rw [gone, span_nil, Nat.zero_add]
      exact .inr (size_le_span hc)
    · rw [first, span_cons] at ih
      rw [merged, span_cons, span_cons]
      obtain rfl | hc := List.mem_cons.1 hc
      · exact .inl ⟨_, .head _, rfl, Nat.le_add_right ..⟩
      · obtain ⟨e, he, found, le⟩ | gained := ih hc
        · obtain rfl | he := List.mem_cons.1 he
          · exact .inl ⟨_, .head _, rfl, le.trans (Nat.le_add_left ..)⟩
          · exact .inl ⟨e, .tail _ he, found, le⟩
        · exact .inr (by simp only; omega)

theorem coalesce_settled (settled : Settled cs) : coalesce cs = cs := by
  induction cs with
  | nil => rfl
  | cons c cs ih =>
    have same := ih settled.2
    obtain ⟨kept, -⟩ | ⟨hc, none, -⟩ | ⟨hc, d, ds, hd, first, -⟩ := coalesce_cases c cs
    · rw [kept, same]
    · obtain ⟨d, found, -⟩ := settled.1 hc
      rw [← same, none] at found
      cases found
    · obtain ⟨d', found, used⟩ := settled.1 hc
      rw [← same, first] at found
      cases found
      cases hd.symm.trans used

/-- Nothing that can be read of the arenas differs. -/
structure Same (a b : Arena) : Prop where
  fields : { b with memory := a.memory } = a
  memory_size : b.memory.size = a.memory.size
  words : ∀ i, b.memory.word i = a.memory.word i

theorem Wf.ends_eq (h : Wf a cs) (h' : Wf b cs)
    (listed : b.free.toList.map (·.toNat) = a.free.toList.map (·.toNat)) :
    b.top = a.top ∧ b.last = a.last ∧ b.free = a.free :=
  ⟨UInt64.toNat.inj (h'.top_eq.trans h.top_eq.symm),
    UInt64.toNat.inj (Nat.add_right_cancel (h'.last_eq.trans h.last_eq.symm)),
    Array.toList_inj.1 (List.map_injective_iff.2 (fun _ _ => UInt64.toNat.inj) listed)⟩

theorem Wf.sweep_again (h : Wf a cs) (settled : Settled cs)
    (listed : a.free.toList.map (·.toNat) = gaps 0 cs) :
    ∃ b, sweep a = .ok 0 b ∧ Same a b := by
  obtain ⟨n, b, run, wf, shrinks, listed', count, others, word⟩ := sweep_spec h
  rw [coalesce_settled settled] at wf listed' count
  obtain rfl : n = 0 := by omega
  obtain ⟨top, last, free⟩ := h.ends_eq wf (listed'.trans listed.symm)
  refine ⟨b, run, ?_, shrinks.memory_size, fun i => ?_⟩
  · obtain ⟨memory, _, _, _, rfl⟩ := others
    cases top
    cases last
    cases free
    simp
  · by_cases header : ∃ o c, (o, c) ∈ placed 0 cs ∧ (i = o / 8 ∨ i = o / 8 + 1)
    · obtain ⟨o, c, hc, rfl | rfl⟩ := header
      · exact (h.chain.headers_eq wf.chain hc).1
      · exact (h.chain.headers_eq wf.chain hc).2
    · exact word i fun o c hc => not_or.1 fun at' => header ⟨o, c, hc, at'⟩

/-- What a request could be served from before a sweep, there is after it. -/
theorem Wf.fits_swept (h : Wf a cs) (h' : Wf b (coalesce cs)) (size : b.size = a.size) {n : Nat}
    (fits : a.Fits n a.size.toNat) : b.Fits n b.size.toNat := by
  have lower := span_coalesce_le cs
  have top := h.top_eq
  have top' := h'.top_eq
  have top_le := h.top_le
  rw [size]
  obtain ⟨off, listed, s, told, enough⟩ | room := fits
  · obtain ⟨c, hc, free⟩ :=
      mem_gaps.1 (h.free_perm.subset (List.mem_map_of_mem (Array.mem_toList_iff.2 listed)))
    have small := h.span_small
    have bounds := h.chain.placed_bounds hc
    cases told.symm.trans (h.chunkSize_eq hc)
    rw [Word.toNat_ofNat_lt (by omega)] at enough
    obtain ⟨pre, post, rfl, -⟩ := split_at_placed hc
    obtain ⟨d, hd, gap, larger⟩ | gained := coalesce_room (show c ∈ pre ++ c :: post by simp) free
    · obtain ⟨xs, ys, split⟩ := List.append_of_mem hd
      have place : (span xs, d) ∈ placed 0 (coalesce (pre ++ c :: post)) := by simp [split]
      obtain ⟨off', found, at'⟩ :=
        List.mem_map.1 (h'.free_perm.symm.subset (mem_gaps.2 ⟨d, place, gap⟩))
      have bounds' := h'.chain.placed_bounds place
      refine .inl ⟨off', Array.mem_toList_iff.1 found, _, h'.chunkSize_eq (at'.symm ▸ place), ?_⟩
      rw [Word.toNat_ofNat_lt (by omega)]
      omega
    · exact .inr (by omega)
  · exact .inr (by omega)

open Request in
/-- In every state that a history leads to, a sweep leaves the arena settled and its payloads alone,
counts the chunks that are gone, need not be repeated, and loses no room. -/
theorem sweep_settles {m : Memory} {size : UInt64} {a b : Arena} {rs : List Request}
    (small : m.size < 2 ^ 60) (new : ofMemory m size = .ok a) (run : Run (fun _ => False) a rs b) :
    ∃ n c, sweep b = .ok n c ∧ Settled c.chunks ∧
      c.free.toList.Pairwise (· < ·) ∧ c.free.toList.map (·.toNat) = gaps 0 c.chunks ∧
      (∀ p k, c.Live p k ↔ b.Live p k) ∧
      (∀ p k i, b.Live p k → i < k →
        c.memory.word (p.toNat / 8 + i) = b.memory.word (p.toNat / 8 + i)) ∧
      c.inUse = b.inUse ∧ n + c.chunks.length = b.chunks.length ∧
      (∃ d, sweep c = .ok 0 d ∧ Same c d) ∧
      ∀ k p b', malloc k b = .ok p b' → p ≠ 0 → ∃ q c', malloc k c = .ok q c' ∧ q ≠ 0 := by
  have good := run.good (wf_ofMemory small new).good
  obtain ⟨n, c, swept, wf, shrinks, listed, count, ⟨_, _, _, _, others⟩, -⟩ := sweep_spec good
  have settled := settled_coalesce b.chunks
  have live : ∀ p k, c.Live p k ↔ b.Live p k := fun p k => by rw [shrinks.live, and_true]
  have sorted : c.free.toList.Pairwise (· < ·) := by
    have gaps := gaps_sorted wf.chain
    rw [← listed, List.pairwise_map] at gaps
    exact gaps.imp UInt64.lt_iff_toNat_lt.2
  have used : c.inUse = b.inUse := by
    apply UInt64.toNat.inj
    rw [wf.inUse_eq, good.inUse_eq, used_coalesce]
  refine ⟨n, c, swept, ?_, sorted, ?_, live,
    fun p k i hp hi => shrinks.kept p k i ((live p k).2 hp) hi, used, ?_,
    wf.sweep_again settled listed, fun k p b' got hp => ?_⟩
  · rw [wf.chunks_eq]
    exact settled
  · rw [wf.chunks_eq, listed]
  · rw [wf.chunks_eq, count]
  · obtain ⟨failed, -⟩ | ⟨-, -, -, -, -, -, -, -, -, fits, -⟩ := malloc_spec good k
    · cases failed.symm.trans got
      exact absurd rfl hp
    · obtain ⟨-, misfit⟩ | ⟨q, c', -, -, served, hq, -⟩ := malloc_spec wf k
      · exact absurd (good.fits_swept wf (by rw [others]) fits) misfit
      · exact ⟨q, c', served, hq⟩

open Request in
/-- Two neighbours, freed the higher first, become one chunk before a payload in use. -/
theorem sweep_settles_merging : ∃ a b n c, ofMemory (.zeros 32) 256 = .ok a ∧
    Run (fun _ => False) a [.malloc 16, .malloc 24, .malloc 16, .free 48, .free 16] b ∧
    sweep b = .ok n c ∧ Settled c.chunks ∧ n + c.chunks.length = 3 ∧ ∃ d, sweep c = .ok 0 d ∧
    Same c d := by
  have run : Run (fun _ => False) blank [.malloc 16, .malloc 24, .malloc 16, .free 48, .free 16]
      { memory := ⟨32, #[0, 33, 0, 0, 32, 49, 0, 0, 0, 0, 48, 32]⟩, size := 256
        top := 112, last := 80, free := #[32, 0], inUse := 32, mallocs := 3, frees := 2 } := by
    refine reaches_twoUsed (.cons (b := { twoUsed with
      memory := ⟨32, #[0, 32, 0, 0, 32, 48, 0, 0, 0, 0, 48, 32]⟩, top := 112
      last := 80, inUse := 112, mallocs := 3 }) trivial (.inl rfl) (by rintro _ ⟨⟩) ?_)
    refine .cons (b := { twoUsed with
      memory := ⟨32, #[0, 32, 0, 0, 32, 49, 0, 0, 0, 0, 48, 32]⟩, top := 112
      last := 80, free := #[32], inUse := 64, mallocs := 3, frees := 1 })
      ⟨4, by decide⟩ (.inl rfl) (by rintro _ ⟨⟩) ?_
    exact .cons ⟨2, by decide⟩ (.inl rfl) (by rintro _ ⟨⟩) (.nil _)
  obtain ⟨n, c, swept, settled, -, -, -, -, -, count, again, -⟩ :=
    sweep_settles (by decide) new_blank run
  exact ⟨_, _, n, c, new_blank, run, swept, settled, count, again⟩

end TxHeap.Arena
