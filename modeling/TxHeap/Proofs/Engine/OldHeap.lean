import TxHeap.Engine.OldHeap
import TxHeap.Proofs.Arena.Sweep
import TxHeap.Proofs.Engine.State

/-! The old heap of an engine: which references name a chunk, and what reading, writing and
allocating do to its words. -/

namespace TxHeap
variable {a : Arena} {need size : UInt64} {fuel : Nat}

/-- The layout sees nothing but the words it is shown. -/
def Layout.Honest (l : Layout) : Prop :=
  ∀ v v' : View, v'.length = v.length → (∀ i < v.length, v'.word i = v.word i) →
    l.size v' = l.size v ∧ l.slots v' = l.slots v

def Ref.span (r : Ref) (n : Nat) : Span := ⟨r.bits.toNat / 8, n⟩

@[simp] theorem Ref.span_length (r : Ref) (n : Nat) : (r.span n).length = n := rfl

namespace Engine

def Room (e : Engine) (r : Ref) (n : Nat) : Prop := e.arena.Live r.bits n

def wordAt (e : Engine) (r : Ref) (i : Nat) : UInt64 := e.arena.memory.word (r.bits.toNat / 8 + i)

def putWord (e : Engine) (r : Ref) (i : Nat) (v : UInt64) : Engine :=
  e.setArena { e.arena with memory := e.arena.memory.write (r.bits.toNat / 8 + i) v }

def putWords (e : Engine) (r : Ref) (i : Nat) : List UInt64 → Engine
  | [] => e
  | v :: rest => (e.putWord r i v).putWords r (i + 1) rest

def OnlyHeap (e e' : Engine) : Prop := e'.toEngineTables = { e.toEngineTables with log := e'.log }

variable {e e' e'' : Engine} {r q : Ref} {n m i j : Nat} {v : UInt64}

namespace OnlyHeap

theorem trans (h : OnlyHeap e e') (h' : OnlyHeap e' e'') : OnlyHeap e e'' := by
  rw [OnlyHeap, h', h]

theorem txn (h : OnlyHeap e e') (x : TxnId) : e'.txn x = e.txn x := by
  rw [Engine.txn, Engine.txn, h]

theorem thread (h : OnlyHeap e e') (t : ThreadId) : e'.thread t = e.thread t := by
  rw [Engine.thread, Engine.thread, h]

theorem segment (h : OnlyHeap e e') (k : SegmentId) : e'.segment k = e.segment k := by
  rw [Engine.segment, Engine.segment, h]

end OnlyHeap

@[simp] theorem putWord_toEngineTables (e : Engine) (r : Ref) (i : Nat) (v : UInt64) :
    (e.putWord r i v).toEngineTables = e.toEngineTables := rfl

@[simp] theorem putWords_toEngineTables (e : Engine) (r : Ref) (i : Nat) (words : List UInt64) :
    (e.putWords r i words).toEngineTables = e.toEngineTables := by
  induction words generalizing e i with
  | nil => rfl
  | cons v rest ih => rw [putWords, ih, putWord_toEngineTables]

section Bounds
variable (h : e.arena.Good) (hr : e.Room r n)
include h hr

theorem room_bounds :
    r.bits.toNat % 16 = 0 ∧ 16 ≤ r.bits.toNat ∧ 2 ≤ n ∧
    r.bits.toNat + 8 * n ≤ 8 * e.arena.memory.size := by
  have bounds := h.live_bounds hr
  have small := h.span_small
  have top := h.top_eq
  omega

theorem room_unique (hr' : e.Room r m) : n = m := h.live_unique hr hr'

theorem oldWords_eq : e.oldWords r = .ok (r.span n) := by
  have bounds := room_bounds h hr
  have small := h.small
  have hi : Word.index (r.bits + UInt64.ofNat (8 * n)) = r.bits.toNat / 8 + n := by
    rw [Word.index_eq, UInt64.toNat_add, Word.toNat_ofNat_lt (by omega)]
    omega
  have inside : r.bits.toNat / 8 ≤ r.bits.toNat / 8 + n ∧
      r.bits.toNat / 8 + n ≤ e.arena.memory.size := by
    omega
  have length : r.bits.toNat / 8 + n - r.bits.toNat / 8 = n := by omega
  rw [oldWords, h.usable_eq hr]
  simp only [Bind.bind, Except.bind, hi, Word.index_eq, inside, and_self, if_true, length]
  rfl

theorem oldSpan_ok : oldSpan r e = .ok (r.span n) e := inspectEngine_ok (oldWords_eq h hr)

theorem header_ok : header r e = .ok (e.wordAt r 0) e := by
  have bounds := room_bounds h hr
  refine inspectEngine_ok ?_
  rw [Memory.read?, Word.index_eq, if_pos (by omega)]
  rfl

theorem setOld_ok (hm : m ≤ n) (hi : i < m) (v : UInt64) :
    setOld (r.span m) i v e = .ok () (e.putWord r i v) := by
  have bounds := room_bounds h hr
  unfold setOld
  rw [if_pos (show i < (r.span m).length from hi)]
  exact onArena_ok (Arena.store_ok (by simp only [Ref.span]; omega) v)

theorem setHeader_ok (v : UInt64) : setHeader r v e = .ok () (e.putWord r 0 v) := by
  have bounds := room_bounds h hr
  refine onArena_ok ?_
  rw [Word.index_eq]
  exact Arena.store_ok (by omega) v

theorem good_putWord (hi : i < n) (v : UInt64) : (e.putWord r i v).arena.Good :=
  (h.write_live hr hi v).good

theorem room_putWord (hi : i < n) (v : UInt64) : (e.putWord r i v).Room q m ↔ e.Room q m :=
  h.live_eq (h.write_live hr hi v) q.bits m

theorem wordAt_putWord (hi : i < n) (hq : e.Room q m) (hj : j < m) :
    (e.putWord r i v).wordAt q j = if q = r ∧ j = i then v else e.wordAt q j := by
  have bounds' := room_bounds h hq
  have written := Memory.word_write e.arena.memory (r.bits.toNat / 8 + i) (q.bits.toNat / 8 + j) v
  rw [wordAt, putWord, setArena_arena, written]
  by_cases hqr : q = r
  · subst hqr
    by_cases hji : j = i
    · rw [if_pos (by omega), if_pos ⟨rfl, hji⟩]
    · rw [if_neg (by omega), if_neg (fun heq => hji heq.2)]
      rfl
  · have hne : r.bits ≠ q.bits := fun heq => hqr (congrArg Ref.mk heq.symm)
    have apart := h.live_apart hr hq hne
    rw [if_neg (by omega), if_neg (fun heq => hqr heq.1)]
    rfl

end Bounds

theorem getOld_ok (hi : i < n) : getOld (r.span n) i e = .ok (e.wordAt r i) e :=
  inspectEngine_ok (if_pos hi)

theorem getYoung_ok {k : SegmentId} {s : Span} (hi : i < s.length) :
    getYoung k s i e = .ok (e.youngWord k s i) e :=
  inspectEngine_ok (if_pos hi)

theorem ends_sizeIn (view : Engine → View) (e : Engine) : Ends (sizeIn view) e
      (fun size e' => e' = e ∧ e.layout.size (view e) = .ok size ∧ 16 ≤ size.toNat ∧
        size.toNat % 8 = 0 ∧ size.toNat / 8 ≤ (view e).length)
      fun _ e' => e' = e := by
  change Ends (inspectEngine (fun e => e.layout.size (view e)) >>= _) e _ _
  refine .bind (.imp (ends_inspectEngine _ e) ?_)
  rintro size e' ⟨rfl, hsize⟩
  split
  · exact rfl
  · next hgood =>
    simp only [not_or, UInt64.not_lt, not_not, Nat.not_lt, gt_iff_lt] at hgood
    obtain ⟨least, whole, fits⟩ := hgood
    refine ⟨rfl, hsize, ?_, ?_, ?_⟩
    · exact UInt64.le_iff_toNat_le.1 least
    · simpa using congrArg UInt64.toNat whole
    · simpa using fits

theorem oldObject_eq (h : e.arena.Good) (hr : e.Room r n) :
    oldObject r e = (inspectEngine (fun e => e.layout.size (e.oldView (r.span n))) >>= fun size =>
      if size < Settings.minObject ∨ size % 8 ≠ 0 ∨ (size / 8).toNat > n then
        raise (.badSize size (n * 8))
      else pure (r.span (size / 8).toNat)) e := by
  unfold oldObject
  rw [bind_ok (oldSpan_ok h hr)]
  cases hs : e.layout.size (e.oldView (r.span n)) with
  | error f =>
    have failed : inspectEngine (fun e => e.layout.size (e.oldView (r.span n))) e = .error
        (.fault f) e :=
      inspectEngine_error hs
    rw [bind_error failed]
    refine bind_error ?_
    unfold sizeIn
    rw [get_bind, bind_error failed]
  | ok size =>
    have found : inspectEngine (fun e => e.layout.size (e.oldView (r.span n))) e = .ok size e :=
      inspectEngine_ok hs
    rw [bind_ok found]
    by_cases hbad : size < Settings.minObject ∨ size % 8 ≠ 0 ∨ (size / 8).toNat > n
    · rw [if_pos hbad]
      refine bind_error ?_
      unfold sizeIn
      rw [get_bind, bind_ok found]
      exact congrFun (if_pos hbad) e
    · rw [if_neg hbad]
      refine bind_ok ?_
      unfold sizeIn
      rw [get_bind, bind_ok found]
      exact congrFun (if_neg hbad) e

theorem oldObject_congr {e1 : Engine} (h : e.arena.Good) (h1 : e1.arena.Good) (hr : e.Room r n)
    (hr1 : e1.Room r n) (layout : e1.layout = e.layout) (honest : e.layout.Honest)
    (same : ∀ i < n, e1.wordAt r i = e.wordAt r i) {s : Span} (found : oldObject r e1 = .ok s e1) :
    oldObject r e = .ok s e := by
  have size := (honest (e.oldView (r.span n)) (e1.oldView (r.span n)) rfl same).1
  rw [oldObject_eq h hr]
  rw [oldObject_eq h1 hr1] at found
  cases hs : e.layout.size (e.oldView (r.span n)) with
  | error =>
    rw [bind_error (inspectEngine_error (by rw [layout, size, hs]))] at found
    cases found
  | ok v =>
    rw [bind_ok (inspectEngine_ok (by rw [layout, size, hs]))] at found
    rw [bind_ok (inspectEngine_ok hs)]
    split at found
    · cases found
    · next hgood =>
      cases found
      rw [if_neg hgood]
      rfl

theorem ends_oldObject (e : Engine) (r : Ref) :
    Ends (oldObject r) e (fun s e' => e' = e ∧ oldObject r e = .ok s e ∧
        ∀ n, e.arena.Good → e.Room r n → ∃ m, s = r.span m ∧ 2 ≤ m ∧ m ≤ n)
      fun _ e' => e' = e := by
  have found : Ends (oldObject r) e
      (fun s e' => e' = e ∧ ∀ n, e.arena.Good → e.Room r n → ∃ m, s = r.span m ∧ 2 ≤ m ∧ m ≤ n)
      fun _ e' => e' = e := by
    refine .bind (.imp (ends_inspectEngine _ e) ?_)
    rintro s e' ⟨rfl, hs⟩
    refine .bind (.imp (ends_sizeIn _ e') ?_)
    rintro size e' ⟨rfl, -, least, -, fits⟩
    refine .pure ⟨rfl, fun n good hr => ?_⟩
    rw [oldWords_eq good hr] at hs
    obtain rfl := Except.ok.inj hs
    exact ⟨_, rfl, by rw [UInt64.toNat_div]; simp only [UInt64.reduceToNat]; omega, by
      rwa [UInt64.toNat_div]⟩
  unfold Ends at found ⊢
  split at found
  · next s e' hrun =>
    obtain ⟨rfl, shape⟩ := found
    exact ⟨rfl, hrun, shape⟩
  · exact found

structure Overwrites (e e' : Engine) (r : Ref) (f : Nat → UInt64) : Prop where
  tables : e'.toEngineTables = e.toEngineTables
  good : e'.arena.Good
  room : ∀ q m, e'.Room q m ↔ e.Room q m
  here : ∀ n i, e.Room r n → i < n → e'.wordAt r i = f i
  other : ∀ q m i, e.Room q m → i < m → q ≠ r → e'.wordAt q i = e.wordAt q i
  memory_size : e'.arena.memory.size = e.arena.memory.size
  mallocs : e'.arena.mallocs = e.arena.mallocs
  frees : e'.arena.frees = e.arena.frees

theorem Overwrites.refl (h : e.arena.Good) : Overwrites e e r (e.wordAt r) :=
  ⟨rfl, h, fun _ _ => .rfl, fun _ _ _ _ => rfl, fun _ _ _ _ _ _ => rfl, rfl, rfl, rfl⟩

theorem Overwrites.trans {f g : Nat → UInt64} (h : Overwrites e e' r f)
    (h' : Overwrites e' e'' r g) :
    Overwrites e e'' r g :=
  ⟨h'.tables.trans h.tables, h'.good, fun q m => (h'.room q m).trans (h.room q m),
    fun n i hr hi => h'.here n i ((h.room r n).2 hr) hi,
    fun q m i hq hi hne => (h'.other q m i ((h.room q m).2 hq) hi hne).trans
      (h.other q m i hq hi hne),
    h'.memory_size.trans h.memory_size, h'.mallocs.trans h.mallocs, h'.frees.trans h.frees⟩

theorem overwrites_putWord (h : e.arena.Good) (hr : e.Room r n) (hi : i < n) (v : UInt64) :
    Overwrites e (e.putWord r i v) r fun j => if j = i then v else e.wordAt r j where
  tables := rfl
  good := good_putWord h hr hi v
  room _ _ := room_putWord h hr hi v
  here m j hr' hj := by
    rw [wordAt_putWord h hr hi hr' hj]
    simp
  other q m j hq hj hne := by rw [wordAt_putWord h hr hi hq hj, if_neg fun heq => hne heq.1]
  memory_size := by simp [putWord]
  mallocs := rfl
  frees := rfl

theorem copyFrom_ok (h : e.arena.Good) (hr : e.Room r n) (words : List UInt64) {i : Nat}
    (hfit : i + words.length ≤ n) :
    copyFrom (r.span n) i words e = .ok () (e.putWords r i words) ∧
    Overwrites e (e.putWords r i words) r fun j =>
        if i ≤ j then (words[j - i]?).getD (e.wordAt r j) else e.wordAt r j := by
  induction words generalizing e i with
  | nil =>
    refine ⟨rfl, ?_⟩
    simp only [putWords, List.getElem?_nil, Option.getD_none, ite_self]
    exact .refl h
  | cons v rest ih =>
    simp only [List.length_cons] at hfit
    have first := overwrites_putWord h hr (i := i) (by omega) v
    obtain ⟨hrun, later⟩ := ih first.good ((first.room r n).2 hr) (i := i + 1) (by omega)
    constructor
    · rwa [copyFrom, bind_ok (setOld_ok h hr (Nat.le_refl n) (by omega) v)]
    · have both := first.trans later
      refine { both with here := fun m j hr' hj => ?_ }
      have before := first.here m j hr' hj
      rw [putWords, both.here m j hr' hj, before]
      rcases Nat.lt_trichotomy j i with hlt | rfl | hlt
      · rw [if_neg (by omega), if_neg (by omega), if_neg (by omega)]
      · rw [if_neg (by omega), if_pos rfl, if_pos le_rfl, Nat.sub_self]
        rfl
      · rw [if_pos (by omega), if_neg (by omega), if_pos (by omega),
          show j - i = (j - (i + 1)) + 1 by omega, List.getElem?_cons_succ]

def grownSize (a : Arena) (need : UInt64) : UInt64 :=
  let floor := a.top + need + Arena.overhead + Arena.alignment
  let next := if a.size * 2 < floor then floor else a.size * 2
  if next > a.capacity then a.capacity else next

theorem growFor_eq (e : Engine) (need : UInt64) :
    growFor need e = (if grownSize e.arena need ≤ e.arena.size then pure false else do
      let grown ← onArena (modifyGet (Arena.resize (grownSize e.arena need)))
      if !grown then return false
      logInfo .arenaResize (-1) [("from", .uint e.arena.size), ("to", .uint (← get).arena.size)]
      return true : EngineM Bool) e := by
  unfold growFor
  simp only [get_bind]
  change (if grownSize e.arena need ≤ e.arena.size then _ else _ : EngineM Bool) e = _
  by_cases h : grownSize e.arena need ≤ e.arena.size
  · rw [if_pos h, if_pos h]
  · rw [if_neg h, if_neg h]
    simp only [grownSize]

section
variable (h : e.arena.Good) (even : e.arena.memory.size % 2 = 0)
  (small : e.arena.memory.size ≤ 2 ^ 44) (hsize : size.toNat < 2 ^ 60)
include h even small hsize

theorem toNat_grownSize : (grownSize e.arena size).toNat =
    min (8 * e.arena.memory.size)
    (max (2 * e.arena.size.toNat) (e.arena.top.toNat + size.toNat + 32)) := by
  have capacity := h.capacity_eq
  have fits := h.size_le
  have top := h.top_le
  have floor : (e.arena.top + size + Arena.overhead + Arena.alignment).toNat =
      e.arena.top.toNat + size.toNat + 32 := by
    simp only [UInt64.toNat_add, Arena.overhead, Arena.alignment, UInt64.reduceToNat]
    omega
  have double : (e.arena.size * 2).toNat = 2 * e.arena.size.toNat := by
    rw [UInt64.toNat_mul]
    simp only [UInt64.reduceToNat]
    omega
  simp only [grownSize, UInt64.lt_iff_toNat_lt, gt_iff_lt, floor, double]
  split <;> split
  · rw [capacity]
    omega
  · rw [floor]
    omega
  · rw [capacity]
    omega
  · rw [double]
    omega

/-- The heap grows far enough for a chunk of `size` bytes above the top, or as far as it can. -/
theorem growFor_spec : growFor size e = .ok false e ∧ e.arena.size.toNat = 8 * e.arena.memory.size ∨
    ∃ e' n, growFor size e = .ok true e' ∧ OnlyHeap e e' ∧ e'.arena = { e.arena with size := n } ∧
    e'.arena.Good ∧
      e.arena.size.toNat ≤ n.toNat ∧ e.arena.size.toNat < 8 * e.arena.memory.size ∧
      (n.toNat = 8 * e.arena.memory.size ∨
        e.arena.top.toNat + Arena.needed size.toNat ≤ n.toNat) := by
  have grown := toNat_grownSize h even small hsize
  have capacity := h.capacity_eq
  have fits := h.size_le
  have top := h.top_le
  have aligned := h.top_eq ▸ h.chain.span_mod
  rw [growFor_eq]
  generalize grownSize e.arena size = next at grown
  by_cases most : next ≤ e.arena.size
  · rw [if_pos most]
    rw [UInt64.le_iff_toNat_le] at most
    exact .inl ⟨rfl, by omega⟩
  · have down := Word.toNat_alignDown next Arena.alignment 4 (by decide) rfl
    rw [if_neg most]
    rw [UInt64.le_iff_toNat_le] at most
    have larger : e.arena.size.toNat ≤ (Word.alignDown next Arena.alignment).toNat := by omega
    have room : ¬ (Word.alignDown next Arena.alignment > e.arena.capacity ∨
        Word.alignDown next Arena.alignment < e.arena.top) := by
      rw [gt_iff_lt, UInt64.lt_iff_toNat_lt, UInt64.lt_iff_toNat_lt]
      omega
    have resized : (modifyGet (Arena.resize next) : ArenaM Bool) e.arena =
        .ok true { e.arena with size := Word.alignDown next Arena.alignment } := by
      rw [modifyGet_run, Arena.resize]
      simp only [room, if_false]
    rw [bind_ok (onArena_ok resized)]
    rw [not_or, gt_iff_lt, UInt64.not_lt, UInt64.not_lt] at room
    refine .inr ⟨_, _, rfl, rfl, rfl, (Arena.Wf.resize h room.1 room.2).good, larger, by omega, ?_⟩
    unfold Arena.needed
    omega

/-- One attempt succeeds, or nothing fits; then the heap is as large as it can be, or the next finds
it grown. -/
theorem mallocWithin_step (fuel : Nat) :
    (∃ r n e', mallocWithin size (fuel + 1) e = .ok r e' ∧ r ≠ .null ∧ OnlyHeap e e' ∧
      e'.arena.Good ∧ size.toNat ≤ 8 * n ∧
      e.arena.Takes e'.arena r.bits n ∧ e.arena.Fits size.toNat e.arena.size.toNat ∧
      e'.arena.size = e.arena.size) ∨
    ¬ e.arena.Fits size.toNat e.arena.size.toNat ∧ ∃ e' n, OnlyHeap e e' ∧ e'.arena.Good ∧
      e'.arena = { e.arena with size := n, failures := e.arena.failures + 1 } ∧
      e.arena.size.toNat ≤ n.toNat ∧
      (mallocWithin size (fuel + 1) e = .ok .null e' ∧ e.arena.size.toNat =
        8 * e.arena.memory.size ∨
        mallocWithin size (fuel + 1) e = mallocWithin size fuel e' ∧
          e.arena.size.toNat < 8 * e.arena.memory.size ∧
          (n.toNat = 8 * e.arena.memory.size ∨
            e.arena.top.toNat + Arena.needed size.toNat ≤ n.toNat)) := by
  obtain ⟨full, misfit⟩ | ⟨p, a, cs, n, hok, hp, wf, takes, hn, fits, same⟩ :=
    Arena.malloc_spec h size
  · have wf : Arena.Wf { e.arena with failures := e.arena.failures + 1 } e.arena.chunks :=
      { h with }
    rw [mallocWithin, bind_ok (onArena_ok full), if_neg (by simp)]
    refine .inr ⟨misfit, ?_⟩
    obtain ⟨stays, all⟩ | ⟨e1, n, grows, only, arena, good, larger, short, far⟩ :=
      growFor_spec (e := e.setArena { e.arena with failures := e.arena.failures + 1 }) wf.good
        even small hsize
    · rw [bind_ok stays]
      exact ⟨e.setArena { e.arena with failures := e.arena.failures + 1 }, e.arena.size, rfl,
        wf.good, rfl, le_rfl,
        .inl ⟨rfl, all⟩⟩
    · rw [bind_ok grows]
      exact ⟨e1, n, only, good, arena, larger, .inr ⟨rfl, short, far⟩⟩
  · rw [mallocWithin, bind_ok (onArena_ok hok), if_pos hp]
    exact .inl ⟨⟨p⟩, n, e.setArena a, rfl, fun heq => hp (congrArg Ref.bits heq), rfl, wf.good, hn,
      takes, fits, same⟩

/-- Allocation in the old heap takes two attempts at most: it gives a new chunk if one fits into all
that is reserved, else nothing visible changes. -/
theorem mallocWithin_spec (fuel : Nat) :
    ∃ e', OnlyHeap e e' ∧ e'.arena.Good ∧ e.arena.size.toNat ≤ e'.arena.size.toNat ∧
    ((mallocWithin size (fuel + 2) e = .ok .null e' ∧ e.arena.SamePayloads e'.arena ∧
        ¬ e.arena.Fits size.toNat (8 * e.arena.memory.size)) ∨
      ∃ r n, mallocWithin size (fuel + 2) e = .ok r e' ∧ r ≠ .null ∧ size.toNat ≤ 8 * n ∧
      e.arena.Takes e'.arena r.bits n ∧
        e.arena.Fits size.toNat (8 * e.arena.memory.size)) := by
  have wider : ∀ {limit}, limit ≤ 8 * e.arena.memory.size → e.arena.Fits size.toNat limit →
      e.arena.Fits size.toNat (8 * e.arena.memory.size) :=
        fun most => .imp_right fun room => room.trans most
  have keeps : ∀ {a : Arena} {n m : UInt64}, a.Good →
      a = { e.arena with size := n, failures := m } → e.arena.SamePayloads a := by
    rintro a n m good rfl
    have wf : Arena.Wf { e.arena with size := n, failures := m } e.arena.chunks := by
      have same : Arena.chunks { e.arena with size := n, failures := m } = e.arena.chunks := rfl
      rwa [Arena.Good, same] at good
    exact ⟨fun q n => h.live_eq wf q n, fun _ _ _ _ _ => rfl, rfl, rfl, rfl⟩
  obtain ⟨r, n, e', run, hr, only, good, hn, takes, fits, same⟩ |
      ⟨misfit, e1, n, only, good, arena, larger, ⟨run, all⟩ | ⟨run, short, far⟩⟩ :=
    mallocWithin_step h even small hsize (fuel + 1)
  · exact ⟨e', only, good, by rw [same], .inr ⟨r, n, run, hr, hn, takes, wider h.size_le fits⟩⟩
  · exact ⟨e1, only, good, by rwa [arena], .inl ⟨run, keeps good arena, all ▸ misfit⟩⟩
  · have most : n.toNat ≤ 8 * e.arena.memory.size := by
      have le := good.size_le
      rwa [arena] at le
    have memory : e1.arena.memory = e.arena.memory := by rw [arena]
    obtain ⟨r, k, e', run', hr, only', good', hn, takes, fits, same⟩ |
        ⟨misfit', e2, k, only', good', arena', larger', ⟨run', all⟩ | ⟨run', short', far'⟩⟩ :=
      mallocWithin_step good (by rwa [memory]) (by rwa [memory]) hsize fuel
    · refine ⟨e', only.trans only', good', by rwa [same, arena],
        .inr ⟨r, k, run.trans run', hr, hn, (keeps good arena).takes takes, ?_⟩⟩
      rw [arena] at fits
      exact wider most fits
    · rw [arena] at misfit' all arena' larger'
      exact ⟨e2, only.trans only', good', by rw [arena']; exact larger.trans larger',
        .inl ⟨run.trans run', keeps good' arena', fun fits => misfit' (all ▸ fits)⟩⟩
    · rw [arena] at misfit' short'
      obtain all | room := far
      · exact absurd all (Nat.ne_of_lt short')
      · exact absurd (.inr room) misfit'

theorem mallocOld_spec : ∃ e', OnlyHeap e e' ∧ e'.arena.Good ∧
      ((mallocOld size e = .ok .null e' ∧ e.arena.SamePayloads e'.arena) ∨
        ∃ r n, mallocOld size e = .ok r e' ∧ r ≠ .null ∧ size.toNat ≤ 8 * n ∧
        e.arena.Takes e'.arena r.bits n) := by
  obtain ⟨e', only, good, -, ⟨run, keeps, -⟩ | ⟨r, n, run, hr, hn, takes, -⟩⟩ :=
    mallocWithin_spec h even small hsize 64
  · exact ⟨e', only, good, .inl ⟨run, keeps⟩⟩
  · exact ⟨e', only, good, .inr ⟨r, n, run, hr, hn, takes⟩⟩

end
end Engine
end TxHeap
