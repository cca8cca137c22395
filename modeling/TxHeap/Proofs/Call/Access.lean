import TxHeap.Proofs.Call.Abort

/-! Reading and writing. A read of a shared object notes its version, the first write copies it, and
a stale one makes the transaction give up. Anything else a transaction reads or writes is its own.
-/

namespace TxHeap
variable {tx : Txn} {r : Ref} {v : UInt64} {e' : Engine} {i n : Nat} {w : Int}

theorem Txn.mem_noteRead {q : Ref} {u : UInt64} (h : (q, u) ∈ (tx.noteRead r v).reads) :
    (q, u) ∈ tx.reads ∨ q = r ∧ u = v := by
  unfold noteRead at h
  split at h
  · exact .inl h
  · obtain heq | h := List.mem_cons.1 h
    · exact .inr (Prod.mk.inj heq)
    · exact .inl h

theorem Txn.noteRead_mem (tx : Txn) (r : Ref) (v : UInt64) :
    ∃ u, (r, u) ∈ (tx.noteRead r v).reads := by
  unfold noteRead
  split
  · next h =>
    obtain ⟨u, hu⟩ := Option.isSome_iff_exists.1 h
    obtain ⟨l1, l2, heq, -⟩ := List.lookup_eq_some_iff.1 hu
    exact ⟨u, by rw [heq]; simp⟩
  · exact ⟨v, .head _⟩

theorem Txn.noteRead_continues (tx : Txn) (r : Ref) (v : UInt64) : tx.Continues (tx.noteRead r v) ∧
    (tx.noteRead r v).created = tx.created ∧ (tx.noteRead r v).writes = tx.writes := by
  unfold noteRead
  split
  · exact ⟨.refl tx, rfl, rfl⟩
  · exact ⟨⟨rfl, rfl, rfl, rfl, rfl, rfl, fun p hp => .tail _ hp⟩, rfl, rfl⟩

def Txn.takeCopy (tx : Txn) (r : Ref) (h : UInt64) (words : List UInt64) : Txn :=
  { tx.noteRead r (versionOf h) with writes := tx.writes.push (r, (h :: words).toArray) }

theorem Txn.copyOf?_eq_none (h : tx.copyOf? r = none) (c : Array UInt64) : (r, c) ∉ tx.writes := by
  intro hc
  rw [copyOf?, Option.map_eq_none_iff, Array.find?_eq_none] at h
  exact h (r, c) hc (beq_self_eq_true r)

namespace Engine
variable {e : Engine} {x : TxnId}

def Owns (e : Engine) (x : TxnId) (r : Ref) : Prop :=
  r.isYoung = true ∨ r ∈ (e.txn x).created ∨ ((e.txn x).copyOf? r).isSome = true

instance (e : Engine) (x : TxnId) (r : Ref) : Decidable (e.Owns x r) :=
  inferInstanceAs (Decidable (_ ∨ _ ∨ _))

def Spans (e : Engine) (x : TxnId) (r : Ref) (i : Nat) : Prop :=
  if r.isYoung then ∃ s, e.youngWords? (e.txn x).segment r = some s ∧ i < s.length
  else match (e.txn x).copyOf? r with
    | some c => i < c.size
    | none => ∃ n, e.Room r n ∧ i < n

def Stale (e : Engine) (x : TxnId) (r : Ref) : Prop :=
  e.Shared r ∧ (e.txn x).readVersion < e.version r

theorem isStale_iff (ok : e.HeapOk) (shared : e.Shared r) (rv : UInt64) :
    isStale (e.wordAt r 0) rv = true ↔ rv < e.version r := by
  have unlocked : e.wordAt r 0 &&& lockBit = 0 := by
    rw [(ok.header r shared).1]
    exact headerFor_unlocked _
  simp [isStale, unlocked, version]

theorem shared_of_usable (ok : e.LifeOk) (hx : e.Active x) (usable : e.Usable (e.txn x).thread r)
    (hnull : r ≠ .null) (hyoung : r.isYoung = false) (hcreated : r ∉ (e.txn x).created) :
    e.Shared r := by
  obtain rfl | shared | ⟨y, hy, own⟩ := usable
  · exact absurd rfl hnull
  · exact shared
  · rw [ok.thread x hx] at hy
    cases hy
    obtain own | young := own
    · exact absurd own hcreated
    · rw [young.1] at hyoung
      cases hyoung

theorem ends_checkWord (r : Ref) (w : Int) (n : Nat) (e : Engine) :
    Ends (checkWord r w n) e (fun i e' => e' = e ∧ i = w.toNat ∧ 1 ≤ w ∧ i < n) fun _ e' =>
    e' = e := by
  unfold checkWord
  split
  · exact rfl
  · next h => exact ⟨rfl, rfl, by omega, by omega⟩

theorem checkWord_ok {w : Int} (least : 1 ≤ w) (h : w.toNat < n) :
    checkWord r w n e = .ok w.toNat e := by
  rw [checkWord, if_neg (by omega)]
  rfl

theorem checkWord_refused {w : Int} (h : ¬ (1 ≤ w ∧ w.toNat < n)) :
    checkWord r w n e = .error (.violation (.badWord w r)) e := by
  rw [checkWord, if_pos (by omega)]
  rfl

section Reading
variable (ok : e.Core) (hx : e.Active x)
include ok hx

theorem serves_noteRead (shared : e.Shared r) (fresh : e.version r ≤ (e.txn x).readVersion) :
    Serves x e (e.setTxn x (·.noteRead r (e.version r))) := by
  have own := ok.txns x hx
  obtain ⟨keeps, created, writes⟩ := (e.txn x).noteRead_continues r (e.version r)
  refine serves_setTxn ok hx keeps created (fun q u hq => ?_) (fun q c hq => ?_) ?_
  · obtain hq | ⟨rfl, rfl⟩ := Txn.mem_noteRead hq
    · exact .inl hq
    · exact .inr ⟨shared, rfl, fresh⟩
  · rw [writes] at hq
    obtain ⟨⟨v, hv⟩, rest⟩ := own.writes q c hq
    exact ⟨⟨v, keeps.reads _ hv⟩, rest⟩
  · rw [writes]
    exact own.keys

theorem serves_takeCopy (shared : e.Shared r) (fresh : e.version r ≤ (e.txn x).readVersion)
    (none : (e.txn x).copyOf? r = none) {words : List UInt64} (least : 1 ≤ words.length)
    (room : e.Room r n) (most : words.length + 1 ≤ n) :
    Serves x e (e.setTxn x (·.takeCopy r (e.wordAt r 0) words)) := by
  have own := ok.txns x hx
  obtain ⟨keeps, created, -⟩ := (e.txn x).noteRead_continues r (e.version r)
  refine serves_setTxn ok hx ?_ created (fun q u hq => ?_) (fun q c hq => ?_) ?_
  · exact { keeps with }
  · obtain hq | ⟨rfl, rfl⟩ := Txn.mem_noteRead hq
    · exact .inl hq
    · exact .inr ⟨shared, rfl, fresh⟩
  · obtain hq | heq := Array.mem_push.1 hq
    · obtain ⟨⟨v, hv⟩, rest⟩ := own.writes q c hq
      exact ⟨⟨v, keeps.reads _ hv⟩, rest⟩
    · obtain ⟨rfl, rfl⟩ := Prod.mk.inj heq
      exact ⟨(e.txn x).noteRead_mem q _, by simp; omega, n, room, by simpa using most⟩
  · simp only [Txn.takeCopy, Array.toList_push, List.map_append, List.map_cons, List.map_nil]
    refine List.nodup_append.2 ⟨own.keys, by simp, fun q hq q' hq' heq => ?_⟩
    obtain ⟨⟨q1, c⟩, hc, rfl⟩ := List.mem_map.1 hq
    rw [List.mem_singleton.1 hq'] at heq
    exact Txn.copyOf?_eq_none none c (heq ▸ Array.mem_toList_iff.1 hc)

end Reading
end Engine

open Engine TxHeap.Action

variable {e : Engine} {x : TxnId}

/-- What reading word `w` of the object at `r` comes to: an own object is read in place, a shared
one is recorded. -/
structure Reads (x : TxnId) (r : Ref) (w : Int) (e : Engine) (v : UInt64) (e' : Engine) : Prop where
  own : e.Owns x r → e' = e
  seen : ¬ e.Owns x r → e.Shared r ∧ e.version r ≤ (e.txn x).readVersion ∧ 1 ≤ w ∧
    (∃ n, e.Room r n ∧ w.toNat < n) ∧ v = e.wordAt r w.toNat ∧
      e' = e.setTxn x (·.noteRead r (e.version r))

theorem loadShared_cases (ok : e.Core) (shared : e.Shared r) (foreign : ¬ e.Owns x r) (w : Int) :
    (e.Stale x r ∧ loadShared x r w e = conflictOn x r "read" e) ∨
      (loadShared x r w e).Finishes (fun v e' => Reads x r w e v e') fun _ e' => e' = e := by
  obtain ⟨n, room⟩ := shared.1
  unfold loadShared
  rw [lift_done (oldSpan_ok ok.heap.good room)]
  by_cases inside : 1 ≤ w ∧ w < n
  · rw [lift_done (checkWord_ok inside.1 (by rw [Ref.span_length]; omega)),
      lift_done (getOld_ok (by omega)), look_bind]
    by_cases stale : (e.txn x).readVersion < e.version r
    · refine .inl ⟨⟨shared, stale⟩, ?_⟩
      rw [if_pos ((isStale_iff ok.heap shared _).2 stale)]
    · right
      rw [if_neg ((isStale_iff ok.heap shared _).not.2 stale), lift_done (getOld_ok (by omega)),
        lift_done (updateTxn_run ..)]
      exact ⟨fun own => absurd own foreign,
        fun _ => ⟨shared, UInt64.not_lt.1 stale, inside.1, ⟨n, room, by omega⟩, rfl, rfl⟩⟩
  · rw [lift_bind_error (checkWord_refused (by rw [Ref.span_length]; omega))]
    exact .inr rfl

theorem load_cases (ok : e.Core) (hx : e.Active x)
    (usable : e.Usable (e.txn x).thread r) (w : Int) :
    (e.Stale x r ∧ load x r w e = conflictOn x r "read" e) ∨
      (load x r w e).Finishes (fun v e' => Reads x r w e v e') fun _ e' => e' = e := by
  unfold load
  rw [lift_done (check_ok ok.life hx)]
  by_cases hnull : r = .null
  · rw [if_pos hnull]
    exact .inr rfl
  rw [if_neg hnull]
  dsimp only
  have inPlace : ∀ v, e.Owns x r → Reads x r w e v e :=
    fun _ own => ⟨fun _ => rfl, fun foreign => absurd own foreign⟩
  by_cases hyoung : r.isYoung = true
  · right
    rw [if_pos hyoung]
    refine .lift_bind (ends_youngSpan x r e) ?_ fun _ _ h => h.1
    rintro s e' ⟨rfl, -⟩
    refine .lift_bind (ends_checkWord r w _ e') ?_ fun _ _ h => h
    rintro i e'' ⟨rfl, rfl, -, hi⟩
    rw [look_bind, lift_ok (getYoung_ok hi)]
    exact inPlace _ (.inl hyoung)
  rw [if_neg hyoung, look_bind]
  cases copy : (e.txn x).copyOf? r with
  | some =>
    right
    refine .lift_bind (ends_checkWord r w _ e) ?_ fun _ _ h => h
    rintro i e'' ⟨rfl, -⟩
    exact inPlace _ (.inr (.inr (by rw [copy]; rfl)))
  | none =>
    dsimp only
    rw [look_bind]
    by_cases hcreated : r ∈ (e.txn x).created
    · right
      obtain ⟨n, room⟩ := (ok.txns x hx).created r hcreated
      rw [if_pos (Array.contains_iff_mem.2 hcreated), lift_done (oldSpan_ok ok.heap.good room)]
      refine .lift_bind (ends_checkWord r w _ e) ?_ fun _ _ h => h
      rintro i e' ⟨rfl, rfl, -, hi⟩
      rw [lift_ok (getOld_ok (show w.toNat < n from hi))]
      exact inPlace _ (.inr (.inl hcreated))
    · rw [if_neg (by rwa [Array.contains_iff_mem])]
      have foreign : ¬ e.Owns x r := by
        rintro (young | created | copied)
        · exact hyoung young
        · exact hcreated created
        · rw [copy] at copied
          cases copied
      exact loadShared_cases ok
        (shared_of_usable ok.life hx usable hnull (Bool.not_eq_true _ ▸ hyoung) hcreated)
        foreign w

/-- What writing word `w` of the object at `r` comes to. A private copy that is new is `r` as it
was, but for that word. -/
structure Stores (x : TxnId) (r : Ref) (w : Int) (e e' : Engine) : Prop where
  serves : Serves x e e'
  weak : e.WeakOk (e.txn x).segment → e'.WeakOk (e.txn x).segment
  counters : e'.counters = e.counters
  copies : ∀ q c, (q, c) ∈ (e'.txn x).writes → (∃ d, (q, d) ∈ (e.txn x).writes) ∨
    q = r ∧ e.Shared r ∧ e.version r ≤ (e.txn x).readVersion ∧
      ∀ i : Nat, 1 ≤ i → i < c.size → (i : Int) ≠ w → c.getD i 0 = e.wordAt r i

namespace Stores

theorem of_same (serves : Serves x e e') (segment : ∀ k, e'.segment k = e.segment k)
    (counters : e'.counters = e.counters)
    (copies : ∀ q c, (q, c) ∈ (e'.txn x).writes → ∃ d, (q, d) ∈ (e.txn x).writes)
    (ok : e.Core) (hx : e.Active x) : Stores x r w e e' where
  serves := serves
  weak := serves.works.own_weakOk ok.life hx (by rw [segment]; exact fun _ hw => .inl hw)
    (by rw [segment]; exact fun _ ho => ho)
  counters := counters
  copies q c hq := .inl (copies q c hq)

theorem refl (ok : e.Core) (hx : e.Active x) : Stores x r w e e :=
  of_same (.refl x ok) (fun _ => rfl) rfl (fun _ c hc => ⟨c, hc⟩) ok hx

theorem copyWord (h : Stores x r w e e') (hx : e.Active x) (hw : 1 ≤ w) (v : UInt64) :
    Stores x r w e (e'.setTxn x (·.setCopyWord r w.toNat v)) where
  serves := h.serves.trans (serves_copyWord h.serves.core (h.serves.active hx) r w.toNat v)
  weak weak := by
    have later := h.weak weak
    rw [← h.serves.works.own.segment] at later ⊢
    exact (serves_copyWord h.serves.core (h.serves.active hx) r w.toNat v).works.own_weakOk
      h.serves.core.life
      (h.serves.active hx) (fun _ hw => .inl hw) (fun _ ho => ho) later
  counters := h.counters
  copies q c hq := by
    rw [txn_setTxn, if_pos ⟨rfl, active_lt (h.serves.active hx)⟩] at hq
    obtain ⟨⟨q', d⟩, hd, heq⟩ := Array.mem_map.1 hq
    obtain ⟨rfl, rfl⟩ := Prod.mk.inj heq
    obtain known | ⟨hr, shared, fresh, words⟩ := h.copies q' d hd
    · exact .inl known
    · refine .inr ⟨hr, shared, fresh, fun i hi hlt hne => ?_⟩
      rw [if_pos hr] at hlt ⊢
      have apart : w.toNat ≠ i := by omega
      rw [Array.size_setIfInBounds] at hlt
      rw [← words i hi hlt hne, getD_setIfInBounds, if_neg fun h => apart h.1]

theorem takeCopy (ok : e.Core) (hx : e.Active x) (shared : e.Shared r)
    (fresh : e.version r ≤ (e.txn x).readVersion) (none : (e.txn x).copyOf? r = none) {m : Nat}
    (room : e.Room r m) (least : 2 ≤ n) (most : n ≤ m) (f : Event.Log → Event.Log) :
    Stores x r w e ((e.setTxn x (·.takeCopy r (e.wordAt r 0)
      (e.arena.memory.slice ((r.span m).base + 1) ((r.span m).base + n)))).setLog f) := by
  have bounds := room_bounds ok.heap.good room
  have length : (e.arena.memory.slice ((r.span m).base + 1) ((r.span m).base + n)).length =
      n - 1 := by
    simp only [Memory.slice, List.length_map, List.length_range', Ref.span]
    omega
  have taken : Serves x e (e.setTxn x (·.takeCopy r (e.wordAt r 0)
      (e.arena.memory.slice ((r.span m).base + 1) ((r.span m).base + n)))) :=
    serves_takeCopy ok hx shared fresh none (by omega) room (by omega)
  have words : ∀ i < n, (e.wordAt r 0 :: e.arena.memory.slice ((r.span m).base + 1)
      ((r.span m).base + n)).toArray.getD i 0 =
      e.wordAt r i := fun i hi => by
    rw [Array.getD_eq_getD_getElem?, List.getElem?_toArray]
    cases i with
    | zero => rfl
    | succ j =>
      rw [List.getElem?_cons_succ, Memory.slice, List.getElem?_map,
        List.getElem?_range' (by simp only [Ref.span]; omega)]
      simp only [Option.map_some, Option.getD_some, wordAt, Ref.span]
      congr 1
      omega
  have record := txn_setTxn e x x (·.takeCopy r (e.wordAt r 0)
    (e.arena.memory.slice ((r.span m).base + 1) ((r.span m).base + n)))
  rw [if_pos ⟨rfl, active_lt hx⟩] at record
  refine ⟨taken.trans ((alike_setLog _ f).serves taken.core rfl), ?_, rfl, fun q c hq => ?_⟩
  · exact taken.works.own_weakOk ok.life hx (fun _ hw => .inl hw) fun _ ho => ho
  · change (q, c) ∈ (Engine.txn (e.setTxn x _) x).writes at hq
    rw [record] at hq
    obtain hq | heq := Array.mem_push.1 hq
    · exact .inl ⟨c, hq⟩
    · obtain ⟨rfl, rfl⟩ := Prod.mk.inj heq
      exact .inr ⟨rfl, shared, fresh, fun i hi hlt _ => words i (by simp [length] at hlt; omega)⟩

theorem youngWord (ok : e.Core) (hx : e.Active x) (inside : e.Inside x r w) {s : Span} (hw : 1 ≤ w)
    (hyoung : r.isYoung = true) (found : e.youngWords? (e.txn x).segment r = some s)
    (hi : i = w.toNat) (hlt : i < s.length) (v : UInt64) :
    Stores x r w e (e.setSegment (e.txn x).segment fun g =>
      { g with nursery := g.nursery.write (s.base + i) v }) := by
  obtain ⟨-, -, base, length⟩ := youngWords_some found
  have serves := serves_nurseryWord ok hx (j := s.base + i) (v := v) (by omega) fun o ho at' => by
    have object := (ok.txns x hx).nursery.object o ho
    exact absurd (inside hyoung o ho) (by omega)
  have here := segment_setSegment e (e.txn x).segment (e.txn x).segment fun g =>
    { g with nursery := g.nursery.write (s.base + i) v }
  rw [if_pos ⟨rfl, segment_lt ok hx⟩] at here
  refine ⟨serves, serves.works.own_weakOk ok.life hx ?_ ?_, rfl, fun q c hq => .inl ⟨c, hq⟩⟩
  · rw [here]
    exact fun _ hw => .inl hw
  · rw [here]
    exact fun _ ho => ho

theorem oldWord (ok : e.Core) (hx : e.Active x) (hr : r ∈ (e.txn x).created) (room : e.Room r n)
    (hi : w.toNat < n) (v : UInt64) : Stores x r w e (e.putWord r w.toNat v) :=
  of_same ((overwrites_putWord ok.heap.good room hi v).serves ok hx hr) (fun _ => rfl) rfl
    (fun _ c hc => ⟨c, hc⟩) ok hx

end Stores

theorem conflictOn_bind {α β : Type} (x : TxnId) (r : Ref) (kind : String) (f : α → EngineCall β) :
    (conflictOn x r kind >>= f) = conflictOn x r kind := by
  simp only [conflictOn, abortWith, bind_assoc]
  rfl

theorem privateCopy_cases (ok : e.Core) (hx : e.Active x) (shared : e.Shared r) (w : Int) :
    (e.Stale x r ∧ privateCopy x r e = conflictOn x r "write" e) ∨
      (privateCopy x r e).Finishes (fun _ e' => Stores x r w e e') fun _ e' => e' = e := by
  unfold privateCopy
  rw [look_bind]
  cases copy : (e.txn x).copyOf? r with
  | some => exact .inr (.refl ok hx)
  | none =>
    obtain ⟨m, room⟩ := shared.1
    have bounds := room_bounds ok.heap.good room
    dsimp only
    rw [lift_done (oldSpan_ok ok.heap.good room), lift_done (getOld_ok (by omega)), look_bind]
    by_cases stale : (e.txn x).readVersion < e.version r
    · refine .inl ⟨⟨shared, stale⟩, ?_⟩
      rw [if_pos ((isStale_iff ok.heap shared _).2 stale)]
    · right
      rw [if_neg ((isStale_iff ok.heap shared _).not.2 stale)]
      refine .lift_bind (ends_sizeIn _ e) ?_ fun _ _ h => h
      rintro size e' ⟨rfl, -, least, whole, most⟩
      have words : (size / 8).toNat = size.toNat / 8 := by rw [UInt64.toNat_div]; rfl
      have most' : size.toNat / 8 ≤ m := most
      rw [look_bind, lift_done (updateTxn_run ..), look_bind, lift_done (logDebug_run ..)]
      exact Stores.takeCopy ok hx shared (UInt64.not_lt.1 stale) copy room (by omega) (by omega) _

theorem store_cases (ok : e.Core) (hx : e.Active x) (usable : e.Usable (e.txn x).thread r)
    (inside : e.Inside x r w) (v : UInt64) :
    (e.Stale x r ∧ store x r w v e = conflictOn x r "write" e) ∨
      (store x r w v e).Finishes (fun _ e' => Stores x r w e e') fun _ e' => Stores x r w e e' ∧
        (e' = e ∨ e.Shared r ∧ ∃ n, privateCopy x r e = .done n e') := by
  have same : ∀ e', e' = e → Stores x r w e e' ∧
      (e' = e ∨ e.Shared r ∧ ∃ n, privateCopy x r e = .done n e') := by
    rintro e' rfl
    exact ⟨.refl ok hx, .inl rfl⟩
  unfold store
  rw [lift_done (check_ok ok.life hx)]
  by_cases hnull : r = .null
  · rw [if_pos hnull]
    exact .inr (same e rfl)
  rw [if_neg hnull]
  dsimp only
  by_cases hyoung : r.isYoung = true
  · right
    rw [if_pos hyoung]
    refine .lift_bind (ends_youngSpan x r e) ?_ fun _ e' h => same e' h.1
    rintro s e' ⟨rfl, found⟩
    refine .lift_bind (ends_checkWord r w _ e') ?_ fun _ e' h => same e' h
    rintro i e'' ⟨rfl, hi, hw, hlt⟩
    rw [look_bind, setYoung, if_pos hlt, lift_ok (updateSegment_run ..)]
    subst hi
    exact .youngWord ok hx inside hw hyoung found rfl hlt v
  rw [if_neg hyoung, look_bind]
  by_cases hcreated : r ∈ (e.txn x).created
  · right
    obtain ⟨n, room⟩ := (ok.txns x hx).created r hcreated
    rw [if_pos (Array.contains_iff_mem.2 hcreated), lift_done (oldSpan_ok ok.heap.good room)]
    refine .lift_bind (ends_checkWord r w _ e) ?_ fun _ e' h => same e' h
    rintro i e' ⟨rfl, rfl, -, hlt⟩
    rw [lift_ok (setOld_ok ok.heap.good room (Nat.le_refl n) hlt v)]
    exact .oldWord ok hx hcreated room hlt v
  · rw [if_neg (by rwa [Array.contains_iff_mem])]
    have shared := shared_of_usable ok.life hx usable hnull (Bool.not_eq_true _ ▸ hyoung) hcreated
    obtain ⟨stale, run⟩ | copied := privateCopy_cases ok hx shared w
    · refine .inl ⟨stale, ?_⟩
      rw [bind_run, run, ← bind_run, conflictOn_bind]
    · right
      refine .bind (copied.known.mono ?_ fun _ e' h => same e' h.1)
      rintro n e' ⟨stores, made⟩
      refine .lift_bind (ends_checkWord r w _ e') ?_ ?_
      rotate_left
      · rintro - e'' rfl
        exact ⟨stores, .inr ⟨shared, _, made⟩⟩
      rintro i e'' ⟨rfl, rfl, hw, -⟩
      rw [lift_ok (updateTxn_run ..)]
      exact stores.copyWord hx hw v

theorem Reads.serves (h : Reads x r w e v e') (ok : e.Core) (hx : e.Active x) :
    Serves x e e' ∧ (∀ k, e'.segment k = e.segment k) ∧ e'.counters = e.counters := by
  by_cases own : e.Owns x r
  · rw [h.own own]
    exact ⟨.refl x ok, fun _ => rfl, rfl⟩
  · obtain ⟨shared, fresh, -, -, -, rfl⟩ := h.seen own
    exact ⟨serves_noteRead ok hx shared fresh, fun _ => rfl, rfl⟩

theorem Engine.Stale.running (ok : e.TxnOk x) (stale : e.Stale x r)
    (bound : e.version r ≤ e.clock) :
    (e.txn x).phase ≠ .inevitable := by
  intro inevitable
  have current := (ok.inevitable inevitable).1
  exact absurd stale.2 (UInt64.not_lt.2 (current ▸ bound))

variable {who : Actor}

theorem sound_access {α : Type} {Q : Engine → Post α} (inv : e.Inv) (mine : e.Runs who x)
    {c : Course Engine α} {kind : String} {A : α → Engine → Prop} {R : Raise → Engine → Prop}
    (cases : (e.Stale x r ∧ c = conflictOn x r kind e) ∨ c.Finishes A R)
    (hA : ∀ a e', A a e' → c = .done a e' → Q e (.ok a) e')
    (hR : ∀ v e', R v e' → Q e (.error v) e')
    (raised : ∀ e1 v e2, Stretch who e1 e2 → e2.Ended x .aborted → Q e1 (.error v) e2) :
    Sound who Q e c := by
  obtain ⟨stale, rfl⟩ | finishes := cases
  · have running := stale.running (inv.core.txns x mine.1) (inv.core.heap.header r stale.1).2
    exact sound_conflictOn (.work inv mine) r kind running raised
  · exact .of_finishes finishes.known (fun a e' h => hA a e' h.1 h.2) fun v e' h => hR v e' h.1

section Access
variable (inv : e.Inv) (mine : who = e.actor x) (usable : e.Usable (e.txn x).thread r)
include inv mine usable

theorem sound_load : Sound who
    (fun e out e' => Stretch who e e' ∧ ∀ v, out = .ok v → e.Active x ∧ Reads x r w e v e') e
    (load x r w e) := by
  by_cases hx : e.Active x
  · have amid : Amid who (.work x) [] e e := .work inv ⟨hx, mine⟩
    refine sound_access inv ⟨hx, mine⟩ (load_cases inv.core hx usable w) (fun v e' reads run => ?_)
      (fun v e' same => ?_)
      fun e1 v e2 stretch _ => ⟨stretch, nofun⟩
    · obtain ⟨serves, segment, -⟩ := reads.serves inv.core hx
      have served := amid.serves serves (.load hx usable run) fun free =>
        serves.works.own_weakOk inv.core.life hx
        (by rw [segment]; exact fun _ hw => .inl hw) (by rw [segment]; exact fun _ ho => ho)
          (amid.weak free _)
      refine ⟨served.stretch, fun u heq => ?_⟩
      cases heq
      exact ⟨hx, reads⟩
    · rw [same]
      exact ⟨.refl inv, nofun⟩
  · obtain ⟨v, refused⟩ := check_refused hx
    unfold load
    rw [lift_bind_error refused]
    exact ⟨.refl inv, nofun⟩

theorem sound_store (inside : e.Inside x r w) :
    Sound who (fun e _ e' => Stretch who e e' ∧ (e.Active x → e'.Active x → Stores x r w e e')) e
    (store x r w v e) := by
  by_cases hx : e.Active x
  · have amid : Amid who (.work x) [] e e := .work inv ⟨hx, mine⟩
    have stretch : ∀ e', Stores x r w e e' → Feat e e' → Stretch who e e' := fun e' stores feat =>
      (amid.serves stores.serves feat fun free => stores.weak (amid.weak free _)).stretch
    refine sound_access inv ⟨hx, mine⟩ (store_cases inv.core hx usable inside v)
      (fun _ e' h run => ⟨stretch e' h (.store hx usable inside run), fun _ _ => h⟩) ?_
      fun e1 v e2 stretch past => ⟨stretch, fun _ active => absurd active past.not_active⟩
    rintro - e' ⟨stores, rfl | ⟨shared, n, made⟩⟩
    · exact ⟨.refl inv, fun _ _ => stores⟩
    · exact ⟨stretch e' stores (.copy hx shared made), fun _ _ => stores⟩
  · obtain ⟨v, refused⟩ := check_refused hx
    unfold store
    rw [lift_bind_error refused]
    exact ⟨.refl inv, fun active => absurd active hx⟩

end Access
end TxHeap
