import TxHeap.Engine.Audit
import TxHeap.Proofs.Engine.OldHeap

/-! What holds of an engine whenever no call runs: which objects are shared, what a transaction has
read, copied and created, how threads, transactions and segments belong together. A new engine is
so. -/

namespace TxHeap
variable {s s' : Segment} {made : Array Ref} {e e' : Engine}

namespace Engine

def Allocated (e : Engine) (r : Ref) : Prop := ∃ n, e.Room r n

def Private (e : Engine) (r : Ref) : Prop := ∃ x, r ∈ (e.txn x).created

/-- An old object that any transaction may read. -/
def Shared (e : Engine) (r : Ref) : Prop := e.Allocated r ∧ ¬ e.Private r

def version (e : Engine) (r : Ref) : UInt64 := versionOf (e.wordAt r 0)

def Active (e : Engine) (x : TxnId) : Prop := (e.txn x).phase.isActive = true

def Young (e : Engine) (k : SegmentId) (y : Ref) : Prop :=
  y.isYoung = true ∧ y.segment = k ∧ y.offset ∈ (e.segment k).objects

/-- A reference that thread `t` may use: null, shared, or its running transaction's own. -/
def Usable (e : Engine) (t : ThreadId) (r : Ref) : Prop := r = .null ∨ e.Shared r ∨
    ∃ x, (e.thread t).txn = some x ∧ (r ∈ (e.txn x).created ∨ e.Young (e.txn x).segment r)

section Decidable
variable {r : Ref}

theorem allocated_iff : e.Allocated r ↔
    ∃ p ∈ Arena.payloads 0 e.arena.chunks, p.1 = r.bits.toNat := by
  constructor
  · exact fun ⟨n, h⟩ => ⟨_, h, rfl⟩
  · rintro ⟨⟨p, n⟩, hp, rfl⟩
    exact ⟨n, hp⟩

theorem private_iff : e.Private r ↔ ∃ x, x < e.txns.size ∧ r ∈ (e.txn x).created := by
  refine ⟨fun ⟨x, h⟩ => ⟨x, Nat.lt_of_not_le fun out => ?_, h⟩, fun ⟨x, _, h⟩ => ⟨x, h⟩⟩
  rw [txn, getD_out out] at h
  exact absurd h (Array.not_mem_empty r)

instance : Decidable (e.Allocated r) := decidable_of_iff' _ allocated_iff

instance : Decidable (e.Private r) := decidable_of_iff' _ private_iff

instance : Decidable (e.Shared r) := inferInstanceAs (Decidable (_ ∧ _))

instance (x : TxnId) : Decidable (e.Active x) := inferInstanceAs (Decidable (_ = true))

instance (k : SegmentId) : Decidable (e.Young k r) := inferInstanceAs (Decidable (_ ∧ _))

instance (t : ThreadId) : Decidable (e.Usable t r) :=
  inferInstanceAs (Decidable (_ ∨ _ ∨ ∃ x, (e.thread t).txn = some x ∧ _))

end Decidable
end Engine

/-- A nursery: what is in use comes first, the rest is zero. A young object begins with zero or,
once moved, a reference to one of `made`. -/
structure NurseryOk (s : Segment) (made : Array Ref) : Prop where
  aligned : s.used.toNat % 8 = 0
  fits : s.used.toNat ≤ 8 * s.nursery.size
  small : 8 * s.nursery.size < 2 ^ 40
  object : ∀ o ∈ s.objects, o.toNat % 8 = 0 ∧ o.toNat < s.used.toNat
  rest : ∀ i, s.used.toNat / 8 ≤ i → s.nursery.word i = 0
  header : ∀ o ∈ s.objects, s.nursery.word (o.toNat / 8) = 0 ∨
    ∃ r ∈ made, s.nursery.word (o.toNat / 8) = Ref.forwardedBit ||| r.bits

theorem NurseryOk.congr (h : NurseryOk s made) (used : s'.used = s.used)
    (nursery : s'.nursery = s.nursery) (objects : s'.objects = s.objects) :
    NurseryOk s' made := by
  refine ⟨?_, ?_, ?_, ?_, ?_, ?_⟩
  · rw [used]; exact h.aligned
  · rw [used, nursery]; exact h.fits
  · rw [nursery]; exact h.small
  · rw [used, objects]; exact h.object
  · rw [used, nursery]; exact h.rest
  · rw [nursery, objects]; exact h.header

theorem NurseryOk.alike (h : NurseryOk s made) (same : s.Alike s') : NurseryOk s' made :=
  h.congr same.used same.nursery same.objects

structure Txn.Continues (tx tx' : Txn) : Prop where
  thread : tx'.thread = tx.thread
  segment : tx'.segment = tx.segment
  phase : tx'.phase = tx.phase
  readVersion : tx'.readVersion = tx.readVersion
  stackAtBegin : tx'.stackAtBegin = tx.stackAtBegin
  reason : tx'.reason = tx.reason
  reads : ∀ p ∈ tx.reads, p ∈ tx'.reads

theorem Txn.Continues.refl (tx : Txn) : tx.Continues tx :=
  ⟨rfl, rfl, rfl, rfl, rfl, rfl, fun _ hp => hp⟩

theorem Txn.Continues.trans {a b c : Txn} (h : a.Continues b) (h' : b.Continues c) :
    a.Continues c :=
  ⟨h'.thread.trans h.thread, h'.segment.trans h.segment, h'.phase.trans h.phase,
    h'.readVersion.trans h.readVersion, h'.stackAtBegin.trans h.stackAtBegin,
    h'.reason.trans h.reason, fun p hp => h'.reads p (h.reads p hp)⟩

/-- The records of a transaction are the same, the words of its private copies apart. -/
structure Txn.Blanks (tx tx' : Txn) : Prop where
  keeps : tx.Continues tx'
  reads : tx'.reads = tx.reads
  created : tx'.created = tx.created
  writes : tx'.writes.toList.map (fun p => (p.1, p.2.size)) = tx.writes.toList.map fun p =>
    (p.1, p.2.size)

theorem Txn.Blanks.refl (tx : Txn) : tx.Blanks tx := ⟨.refl tx, rfl, rfl, rfl⟩

theorem Txn.Blanks.of_eq {tx tx' : Txn} (h : tx' = tx) : tx.Blanks tx' := h ▸ .refl tx

theorem Txn.Blanks.trans {a b c : Txn} (h : a.Blanks b) (h' : b.Blanks c) : a.Blanks c :=
  ⟨h.keeps.trans h'.keeps, h'.reads.trans h.reads, h'.created.trans h.created,
    h'.writes.trans h.writes⟩

def Txn.Holds (tx : Txn) (r : Ref) : Prop :=
  r ∈ tx.stackAtBegin ∨ (∃ v, (r, v) ∈ tx.reads) ∨ r ∈ tx.created ∨ ∃ c, (r, c) ∈ tx.writes

/-- The segments are the same, but some words of the nursery may have been zeroed. -/
structure Segment.Blanks (s s' : Segment) : Prop where
  owner : s'.owner = s.owner
  used : s'.used = s.used
  objects : s'.objects = s.objects
  weakrefs : s'.weakrefs = s.weakrefs
  size : s'.nursery.size = s.nursery.size
  word : ∀ i, s'.nursery.word i = s.nursery.word i ∨ s'.nursery.word i = 0

theorem Segment.Blanks.trans {a b c : Segment} (h : a.Blanks b) (h' : b.Blanks c) : a.Blanks c :=
  ⟨h'.owner.trans h.owner, h'.used.trans h.used, h'.objects.trans h.objects,
    h'.weakrefs.trans h.weakrefs, h'.size.trans h.size, fun i => by
      obtain same | zero := h'.word i
      · rw [same]
        exact h.word i
      · exact .inr zero⟩

theorem Segment.Alike.blanks (h : s.Alike s') : s.Blanks s' :=
  ⟨h.owner, h.used, h.objects, h.weakrefs, by rw [h.nursery], fun i => .inl (by rw [h.nursery])⟩

theorem Segment.Blanks.nurseryOk {made : Array Ref} (h : s.Blanks s')
    (ok : NurseryOk s made) : NurseryOk s' made := by
  refine ⟨?_, ?_, ?_, ?_, fun i hi => ?_, fun o ho => ?_⟩
  · rw [h.used]; exact ok.aligned
  · rw [h.used, h.size]; exact ok.fits
  · rw [h.size]; exact ok.small
  · rw [h.used, h.objects]; exact ok.object
  · rw [h.used] at hi
    obtain same | zero := h.word i
    · rw [same]
      exact ok.rest i hi
    · exact zero
  · rw [h.objects] at ho
    obtain same | zero := h.word (o.toNat / 8)
    · rw [same]
      exact ok.header o ho
    · exact .inl zero

namespace Engine

structure TxnOk (e : Engine) (x : TxnId) : Prop where
  reads : ∀ r v, (r, v) ∈ (e.txn x).reads → e.Shared r ∧ v ≤ e.version r ∧ v ≤ (e.txn x).readVersion
  writes : ∀ r c, (r, c) ∈ (e.txn x).writes →
    (∃ v, (r, v) ∈ (e.txn x).reads) ∧ 2 ≤ c.size ∧ ∃ n, e.Room r n ∧ c.size ≤ n
  keys : ((e.txn x).writes.toList.map (·.1)).Nodup
  created : ∀ r ∈ (e.txn x).created, e.Allocated r
  nodup : (e.txn x).created.toList.Nodup
  apart : ∀ y, y ≠ x → ∀ r ∈ (e.txn x).created, r ∉ (e.txn y).created
  start : ∀ r ∈ (e.txn x).stackAtBegin, r = .null ∨ e.Shared r
  readVersion : (e.txn x).readVersion ≤ e.clock
  inevitable : (e.txn x).phase = .inevitable →
    (e.txn x).readVersion = e.clock ∧ ∀ r v, (r, v) ∈ (e.txn x).reads → v = e.version r
  nursery : NurseryOk (e.segment (e.txn x).segment) (e.txn x).created

/-- How threads, transactions and segments belong together. -/
structure LifeOk (e : Engine) : Prop where
  txn : ∀ t x, (e.thread t).txn = some x → e.Active x ∧ (e.txn x).thread = t ∧
    (e.thread t).segment = some (e.txn x).segment ∧ (e.thread t).registered = true
  thread : ∀ x, e.Active x → (e.thread (e.txn x).thread).txn = some x
  holds : ∀ t k, (e.thread t).segment = some k → (e.thread t).txn.isSome ∧
    (e.segment k).owner = some t
  owner : ∀ k t, (e.segment k).owner = some t → (e.thread t).segment = some k
  free : ∀ k, (e.segment k).owner = none → (e.segment k).used = 0 ∧ (e.segment k).objects = #[] ∧
    (e.segment k).weakrefs = #[] ∧ NurseryOk (e.segment k) #[]
  ended : ∀ x, ¬ e.Active x → (e.txn x).created = #[]
  inevitable : ∀ x, e.inevitable = some x ↔ (e.txn x).phase = .inevitable

structure HeapOk (e : Engine) : Prop where
  good : e.arena.Good
  small : e.arena.memory.size ≤ 2 ^ 44
  even : e.arena.memory.size % 2 = 0
  clock : e.clock.toNat < 2 ^ 63
  header : ∀ r, e.Shared r → e.wordAt r 0 = headerFor (e.version r) ∧ e.version r ≤ e.clock
  weakrefs : e.weakrefs.Nodup ∧ ∀ w ∈ e.weakrefs, e.Shared w

def WeakOk (e : Engine) (k : SegmentId) : Prop :=
  ∀ w ∈ (e.segment k).weakrefs, ∃ t x, (e.segment k).owner = some t ∧ (e.thread t).txn = some x ∧
    (w ∈ (e.txn x).created ∨ e.Young k w)

structure Core (e : Engine) : Prop where
  heap : e.HeapOk
  life : e.LifeOk
  txns : ∀ x, e.Active x → e.TxnOk x
  stackOk : ∀ t, (e.thread t).registered = true → ∀ r ∈ (e.thread t).stack, e.Usable t r
  segments : e.segments.size ≤ 0x3fffff
  honest : e.layout.Honest

/-- The state in which a call finds an engine. If the mutex is held, the call that took it failed.
There is a version left for one more commit. -/
structure Inv (e : Engine) : Prop where
  core : e.Core
  ticks : e.clock.toNat + 1 < 2 ^ 63
  weak : .engine ∉ e.locked → ∀ k, e.WeakOk k
  locks : ∀ t, .stack t ∈ e.locked → .engine ∈ e.locked

namespace Alike
variable {r : Ref} {x : TxnId} {t : ThreadId} {k : SegmentId}

section
variable (h : Alike e e')
include h

theorem room (r : Ref) (n : Nat) : e'.Room r n ↔ e.Room r n := by
  rw [Room, Room, h.arena]

theorem wordAt (r : Ref) (i : Nat) : e'.wordAt r i = e.wordAt r i := by
  rw [Engine.wordAt, Engine.wordAt, h.arena]

theorem version (r : Ref) : e'.version r = e.version r := by
  rw [Engine.version, Engine.version, h.wordAt]

theorem allocated : e'.Allocated r ↔ e.Allocated r := by
  simp only [Allocated, h.room]

theorem shared : e'.Shared r ↔ e.Shared r := by
  simp only [Shared, Private, h.allocated, h.txn]

theorem active : e'.Active x ↔ e.Active x := by
  rw [Active, Active, h.txn]

theorem young : e'.Young k r ↔ e.Young k r := by
  rw [Young, Young, (h.segment k).objects]

theorem usable : e'.Usable t r ↔ e.Usable t r := by
  simp only [Usable, h.shared, h.thread, h.txn, h.young]

end
end Alike

section Passing
variable {y : TxnId} (ok : e.TxnOk y) (same : (e.txn y).Blanks (e'.txn y))
  (segment : (e.segment (e.txn y).segment).Blanks (e'.segment (e.txn y).segment))
  (shared : ∀ r, e.Shared r → (e.txn y).Holds r → e'.Shared r)
  (room : ∀ r n, e.Room r n → e.Shared r ∨ r ∈ (e.txn y).created → (e.txn y).Holds r → e'.Room r n)
  (apart : ∀ z, z ≠ y → ∀ r ∈ (e.txn y).created, r ∉ (e'.txn z).created)
include ok same segment shared room apart

theorem TxnOk.pass (version : ∀ r, e.Shared r → e'.Shared r → e.version r ≤ e'.version r)
    (clock : e.clock ≤ e'.clock)
    (inevitable : (e.txn y).phase = .inevitable →
      e'.clock = e.clock ∧ ∀ r, e.Shared r → e'.Shared r → e'.version r = e.version r) :
      e'.TxnOk y where
  reads r v hr := by
    rw [same.reads] at hr
    obtain ⟨hs, old, bound⟩ := ok.reads r v hr
    have hs' := shared r hs (.inr (.inl ⟨v, hr⟩))
    rw [same.keeps.readVersion]
    exact ⟨hs', UInt64.le_trans old (version r hs hs'), bound⟩
  writes r c hr := by
    have hmem : (r, c.size) ∈ (e'.txn y).writes.toList.map fun p => (p.1, p.2.size) :=
      List.mem_map.2 ⟨(r, c), by simpa using hr, rfl⟩
    rw [same.writes, List.mem_map] at hmem
    obtain ⟨⟨q, d⟩, hd, heq⟩ := hmem
    obtain ⟨rfl, hsize⟩ := Prod.mk.inj heq
    obtain ⟨⟨v, hv⟩, least, n, hn, most⟩ := ok.writes q d (by simpa using hd)
    rw [same.reads]
    rw [hsize] at least most
    exact ⟨⟨v, hv⟩, least, n, room q n hn (.inl (ok.reads q v hv).1) (.inr (.inl ⟨v, hv⟩)), most⟩
  keys := by
    have pairs := congrArg (List.map Prod.fst) same.writes
    rw [List.map_map, List.map_map] at pairs
    exact pairs ▸ ok.keys
  created r hr := by
    rw [same.created] at hr
    obtain ⟨n, hn⟩ := ok.created r hr
    exact ⟨n, room r n hn (.inr hr) (.inr (.inr (.inl hr)))⟩
  nodup := by rw [same.created]; exact ok.nodup
  apart z hz r hr := apart z hz r (same.created ▸ hr)
  start r hr := by
    rw [same.keeps.stackAtBegin] at hr
    exact (ok.start r hr).imp id fun hs => shared r hs (.inl hr)
  readVersion := by rw [same.keeps.readVersion]; exact UInt64.le_trans ok.readVersion clock
  inevitable hp := by
    rw [same.keeps.phase] at hp
    obtain ⟨sameClock, sameVersion⟩ := inevitable hp
    obtain ⟨now, fresh⟩ := ok.inevitable hp
    rw [same.keeps.readVersion, same.reads]
    refine ⟨now.trans sameClock.symm, fun r v hr => ?_⟩
    have hs := (ok.reads r v hr).1
    rw [sameVersion r hs (shared r hs (.inr (.inl ⟨v, hr⟩)))]
    exact fresh r v hr
  nursery := by
    rw [same.keeps.segment, same.created]
    exact segment.nurseryOk ok.nursery

theorem TxnOk.carry (clock : e'.clock = e.clock)
    (version : ∀ r, e.Shared r → e'.Shared r → e'.version r = e.version r) : e'.TxnOk y :=
  ok.pass same segment shared room apart (fun r hs hs' => version r hs hs' ▸ UInt64.le_refl _)
    (clock ▸ UInt64.le_refl _)
    fun _ => ⟨clock, version⟩

end Passing

theorem TxnOk.alike {x : TxnId} (h : e.TxnOk x) (same : Alike e e') : e'.TxnOk x :=
  h.carry (.of_eq (same.txn x)) (same.segment _).blanks (fun _ hs _ => same.shared.2 hs)
    (fun r n hn _ _ => (same.room r n).2 hn)
    (fun z hz r hr => by rw [same.txn]; exact h.apart z hz r hr) same.clock fun r _ _ =>
      same.version r

theorem LifeOk.owned {x : TxnId} (h : e.LifeOk) (hx : e.Active x) :
    (e.segment (e.txn x).segment).owner = some (e.txn x).thread :=
  (h.holds _ _ (h.txn _ x (h.thread x hx)).2.2.1).2

theorem LifeOk.free_blanks {k : SegmentId} (h : e.LifeOk)
    (same : (e.segment k).Blanks (e'.segment k))
    (hk : (e'.segment k).owner = none) : (e'.segment k).used = 0 ∧ (e'.segment k).objects = #[] ∧
      (e'.segment k).weakrefs = #[] ∧ NurseryOk (e'.segment k) #[] := by
  obtain ⟨used, objects, weakrefs, nursery⟩ := h.free k (same.owner ▸ hk)
  exact ⟨same.used.trans used, same.objects.trans objects, same.weakrefs.trans weakrefs,
    same.nurseryOk nursery⟩

theorem LifeOk.congr (h : e.LifeOk)
    (thread : ∀ t, (e'.thread t).txn = (e.thread t).txn ∧
      (e'.thread t).segment = (e.thread t).segment ∧
      ((e.thread t).txn.isSome → (e'.thread t).registered = (e.thread t).registered))
    (txn : ∀ x, (e'.txn x).thread = (e.txn x).thread ∧ (e'.txn x).segment = (e.txn x).segment ∧
      (e'.Active x ↔ e.Active x) ∧ (¬ e.Active x → (e'.txn x).created = (e.txn x).created))
    (owner : ∀ k, (e'.segment k).owner = (e.segment k).owner)
    (free : ∀ k, (e'.segment k).owner = none → (e'.segment k).used = 0 ∧
      (e'.segment k).objects = #[] ∧
      (e'.segment k).weakrefs = #[] ∧ NurseryOk (e'.segment k) #[])
    (inevitable : ∀ x, e'.inevitable = some x ↔ (e'.txn x).phase = .inevitable) : e'.LifeOk where
  txn t x hx := by
    rw [(thread t).1] at hx
    rw [(txn x).2.2.1, (txn x).1, (txn x).2.1, (thread t).2.1, (thread t).2.2 (hx ▸ rfl)]
    exact h.txn t x hx
  thread x hx := by
    rw [(txn x).1, (thread _).1]
    exact h.thread x ((txn x).2.2.1.1 hx)
  holds t k hk := by
    rw [(thread t).1, owner]
    exact h.holds t k ((thread t).2.1 ▸ hk)
  owner k t hk := by
    rw [(thread t).2.1]
    exact h.owner k t (owner k ▸ hk)
  free := free
  ended x hx := by
    rw [(txn x).2.2.1] at hx
    rw [(txn x).2.2.2 hx]
    exact h.ended x hx
  inevitable := inevitable

theorem LifeOk.alike (h : e.LifeOk) (same : Alike e e') : e'.LifeOk := by
  refine h.congr (fun t => ?_) (fun x => ?_) (fun k => (same.segment k).owner)
    (fun k => h.free_blanks (same.segment k).blanks) ?_
  · rw [same.thread]
    exact ⟨rfl, rfl, fun _ => rfl⟩
  · rw [same.txn]
    exact ⟨rfl, rfl, same.active, fun _ => rfl⟩
  · simp only [same.inevitable, same.txn]
    exact h.inevitable

theorem HeapOk.alike (h : e.HeapOk) (same : Alike e e') : e'.HeapOk := by
  refine ⟨?_, ?_, ?_, ?_, ?_, ?_⟩
  · rw [same.arena]; exact h.good
  · rw [same.arena]; exact h.small
  · rw [same.arena]; exact h.even
  · rw [same.clock]; exact h.clock
  · simp only [same.shared, same.wordAt, same.version, same.clock]; exact h.header
  · simp only [same.weakrefs, same.shared]; exact h.weakrefs

theorem WeakOk.alike {k : SegmentId} (h : e.WeakOk k) (same : Alike e e') : e'.WeakOk k := by
  simp only [WeakOk, (same.segment k).weakrefs, (same.segment k).owner, same.thread,
    same.txn, same.young]
  exact h

theorem Core.alike (h : e.Core) (same : Alike e e') : e'.Core where
  heap := h.heap.alike same
  life := h.life.alike same
  txns x hx := (h.txns x (same.active.1 hx)).alike same
  stackOk := by simp only [same.thread, same.usable]; exact h.stackOk
  segments := by rw [same.segments_size]; exact h.segments
  honest := by rw [same.layout]; exact h.honest

end Engine

variable {s settings : Settings} {layout : Layout} {log : Option Event.Log} {ownsLog : Bool}

theorem Region.reserve_memory {size : UInt64} {region : Region} (h : reserve size = .ok region) :
    region.memory.size ≤ 2 ^ 44 ∧ region.memory.size % 2 = 0 := by
  have whole : (Word.alignUp size Paging.usual.size).toNat % 4096 = 0 := by
    rw [Word.alignUp, Word.toNat_alignDown _ Paging.usual.size 12 (by decide) rfl]
    omega
  unfold reserve at h
  dsimp only at h
  split at h
  · cases h
  split at h
  · cases h
  split at h
  · cases h
  next bound =>
  cases h
  rw [ge_iff_le, UInt64.not_le, UInt64.lt_iff_toNat_lt] at bound
  change _ < 0x800000000000 at bound
  rw [Memory.size_zeros, UInt64.toNat_div]
  simp only [UInt64.reduceToNat]
  omega

theorem Settings.validate_bounds (h : s.validate = .ok ()) :
    s.segments.toNat ≤ 0x3fffff ∧ 8 * (s.nursery / 8).toNat < 2 ^ 40 := by
  unfold validate at h
  split at h
  · cases h
  next segments =>
  split at h
  · cases h
  next nursery =>
  have most := (not_or.1 (not_or.1 nursery).2).2
  rw [gt_iff_lt, UInt64.not_lt, UInt64.le_iff_toNat_le] at most
  simp only [maxNursery, maxSegments, UInt64.reduceToNat] at most segments
  rw [UInt64.toNat_div]
  simp only [UInt64.reduceToNat]
  omega

theorem Settings.validate_segments (h : s.validate = .ok ()) : 0 < s.segments.toNat := by
  unfold validate at h
  split at h
  · cases h
  next segments =>
  omega

namespace Engine

structure New (e : Engine) : Prop where
  arena : ∃ size, Arena.ofMemory e.arena.memory size = .ok e.arena
  small : e.arena.memory.size ≤ 2 ^ 44
  even : e.arena.memory.size % 2 = 0
  segments : ∃ n m, e.segments = Array.replicate n { nursery := .zeros m } ∧ n ≤ 0x3fffff ∧
    8 * m < 2 ^ 40
  threads : e.threads = #[]
  txns : e.txns = #[]
  clock : e.clock = 0
  inevitable : e.inevitable = none
  weakrefs : e.weakrefs = []
  prebuilt : e.prebuilt = #[]
  locked : e.locked = []

theorem create_new (h : create layout settings log ownsLog = .ok e) : e.New := by
  unfold create at h
  simp only [bind, Except.bind] at h
  split at h
  · cases h
  next valid =>
  split at h
  · cases h
  next region reserved =>
  split at h
  · cases h
  next arena made =>
  cases h
  obtain ⟨segments, nursery⟩ := Settings.validate_bounds valid
  obtain ⟨small, even⟩ := Region.reserve_memory reserved
  have made : Arena.ofMemory region.memory settings.arena = .ok arena := by
    cases ofMemory : Arena.ofMemory region.memory settings.arena with
    | error =>
      rw [ofMemory] at made
      cases made
    | ok =>
      rw [ofMemory] at made
      cases made
      rfl
  have memory : arena.memory = region.memory := by
    unfold Arena.ofMemory at made
    dsimp only at made
    split at made
    · cases made
    split at made
    · cases made
    cases made
    rfl
  rw [← memory] at made small even
  exact ⟨⟨_, made⟩, small, even, ⟨_, _, rfl, segments, nursery⟩, rfl, rfl, rfl, rfl, rfl, rfl, rfl⟩

structure Unused (e : Engine) : Prop where
  new : e.New
  seat : 0 < e.segments.size
  asleep : e.asleep = []
  pauser : e.pauser = none
  foreign : e.foreign = []

theorem create_unused (h : create layout settings log ownsLog = .ok e) : e.Unused := by
  have new := create_new h
  unfold create at h
  simp only [bind, Except.bind] at h
  split at h
  · cases h
  next valid =>
  split at h
  · cases h
  split at h
  · cases h
  cases h
  refine ⟨new, ?_, rfl, rfl, rfl⟩
  rw [Array.size_replicate]
  exact Settings.validate_segments valid

/-- A small engine with room for two transactions, whose objects have one word and no references. -/
def small : Engine :=
  { settings := { segments := 2, nursery := 64, arena := 256, reserve := 256, large := 64
                  major := 256 }
    layout := .fixed 16 []
    segments := Array.replicate 2 { nursery := .zeros 8 }
    majorThreshold := 256
    arena := { memory := .zeros 512, size := 256 } }

theorem small_created : create (.fixed 16 []) small.settings none false = .ok small := by rfl

theorem small_unused : small.Unused := create_unused small_created

theorem small_honest : small.layout.Honest := fun _ _ _ _ => ⟨rfl, rfl⟩

namespace New
variable (h : e.New)
include h

theorem wf : e.arena.Wf [] := by
  obtain ⟨size, made⟩ := h.arena
  have small := h.small
  exact Arena.wf_ofMemory (by omega) made

theorem thread (t : ThreadId) : e.thread t = {} := by
  rw [Engine.thread, h.threads]
  rfl

theorem inactive (x : TxnId) : ¬ e.Active x := by
  rw [Active, txn, h.txns]
  exact Bool.false_ne_true

theorem created (x : TxnId) : (e.txn x).created = #[] := by
  rw [txn, h.txns]
  rfl

theorem not_shared (r : Ref) : ¬ e.Shared r := by
  rintro ⟨⟨n, room⟩, -⟩
  rw [Room, Arena.Live, h.wf.chunks_eq] at room
  cases room

theorem segment (k : SegmentId) : ∃ n, e.segment k = { nursery := .zeros n } ∧ 8 * n < 2 ^ 40 := by
  obtain ⟨n, m, segments, -, small⟩ := h.segments
  rw [Engine.segment, segments, Array.getD_eq_getD_getElem?, Array.getElem?_replicate]
  split
  · exact ⟨m, rfl, small⟩
  · exact ⟨0, rfl, by decide⟩

theorem life : e.LifeOk where
  txn t x hx := by
    rw [h.thread] at hx
    cases hx
  thread x hx := absurd hx (h.inactive x)
  holds t k hk := by
    rw [h.thread] at hk
    cases hk
  owner k t ht := by
    obtain ⟨n, here, -⟩ := h.segment k
    rw [here] at ht
    cases ht
  free k _ := by
    obtain ⟨n, here, small⟩ := h.segment k
    rw [here]
    refine ⟨rfl, rfl, rfl, rfl, Nat.zero_le _, small, ?_, fun i _ => Memory.word_zeros n i, ?_⟩
    · exact fun o ho => absurd ho (Array.not_mem_empty o)
    · exact fun o ho => absurd ho (Array.not_mem_empty o)
  ended x _ := h.created x
  inevitable x := by
    rw [h.inevitable, txn, h.txns]
    constructor <;> rintro ⟨⟩

theorem core (honest : e.layout.Honest) : e.Core where
  heap :=
    { good := h.wf.good
      small := h.small
      even := h.even
      clock := by rw [h.clock]; decide
      header := fun r shared => absurd shared (h.not_shared r)
      weakrefs := by
        rw [h.weakrefs]
        exact ⟨.nil, nofun⟩ }
  life := h.life
  txns x hx := absurd hx (h.inactive x)
  stackOk t registered := by
    rw [h.thread] at registered
    cases registered
  segments := by
    obtain ⟨n, m, segments, most, -⟩ := h.segments
    rwa [segments, Array.size_replicate]
  honest := honest

theorem inv (honest : e.layout.Honest) : e.Inv where
  core := h.core honest
  ticks := by rw [h.clock]; decide
  weak _ k w hw := by
    obtain ⟨n, here, -⟩ := h.segment k
    rw [here] at hw
    exact absurd hw (Array.not_mem_empty w)
  locks t ht := by
    rw [h.locked] at ht
    cases ht

end New
end Engine
end TxHeap
