import TxHeap.Proofs.Machine.Ledger

/-! Accesses that are refused leave everything as it was, but for a write to a shared object, which
is copied before the index is looked at. The index is held against the nursery in use, the chunk or
the copy, and only the copy is the object itself. -/

namespace TxHeap
open Engine TxHeap.Action

variable {α β : Type} {e : Engine} {x : TxnId} {r : Ref} {w : Int} {d : Course Engine β}
  {inside : Prop}

section Refused

/-- The call meets the conflict `d`, or leaves the engine as it was if it raises something, but for
what `S` says. -/
def UnchangedUnless (e : Engine) (S : Raise → Engine → Prop) (d c : Course Engine β) : Prop :=
  c = d ∨ ∀ v e', c = .raised v e' → e' = e ∨ S v e'

variable {S : Raise → Engine → Prop}

namespace UnchangedUnless

theorem error {v : Raise} : UnchangedUnless e S d (.raised v e) :=
  .inr (by rintro _ _ ⟨⟩; exact .inl rfl)

theorem done {b : β} {e' : Engine} : UnchangedUnless e S d (.done b e') := .inr (by rintro _ _ ⟨⟩)

theorem looks {y : EngineM α} {f : α → EngineCall β} (hy : Looks Raise.Fatal y)
    (h : ∀ a, UnchangedUnless e S d (f a e)) :
    UnchangedUnless e S d ((liftM y >>= f) e) := by
  have ends := hy.ends e
  unfold Ends at ends
  split at ends
  · next run =>
    rw [lift_done run, ends]
    exact h _
  · next run =>
    rw [lift_bind_error run, ends.2]
    exact .error

theorem last {y : EngineM β} (hy : Looks Raise.Fatal y) :
    UnchangedUnless e S d ((liftM y : EngineCall β) e) := by
  rw [← bind_pure (liftM y : EngineCall β)]
  exact .looks hy fun _ => .done

end UnchangedUnless

/-- A refused write has left a private copy that is like the object, for an index that is outside of
it. -/
def LeavesCopy (x : TxnId) (r : Ref) (w : Int) (e : Engine) (v : Raise) (e' : Engine) : Prop :=
  ¬ e.Owns x r ∧ v = .violation (.badWord w r) ∧
    ∃ h words log, e' = (e.setTxn x (·.takeCopy r h words)).setLog log ∧
    ¬ (1 ≤ w ∧ w.toNat < words.length + 1)

theorem unchangedUnless_load : UnchangedUnless e S (conflictOn x r "read" e) (load x r w e) := by
  refine .looks (looks_check x) fun _ => ?_
  by_cases hnull : r = .null
  · rw [if_pos hnull]
    exact .error
  rw [if_neg hnull]
  dsimp only
  split
  · exact .looks (looks_youngSpan x r) fun _ => .looks (looks_checkWord ..) fun _ =>
      .last (looks_getYoung ..)
  rw [look_bind]
  cases (e.txn x).copyOf? r with
  | some => exact .looks (looks_checkWord ..) fun _ => .done
  | none =>
    dsimp only
    rw [look_bind]
    split
    · exact .looks (looks_oldSpan r) fun _ => .looks (looks_checkWord ..) fun _ =>
        .last (looks_getOld ..)
    refine .looks (looks_oldSpan r) fun _ => .looks (looks_checkWord ..) fun _ =>
      .looks (looks_getOld ..) fun _ => ?_
    rw [look_bind]
    split
    · exact .inl rfl
    · exact .looks (looks_getOld ..) fun _ => .done

theorem unchangedUnless_loadRef :
    UnchangedUnless e S (conflictOn x r "read" e) (loadRef x r w e) := by
  unfold loadRef
  obtain conflict | unchanged := unchangedUnless_load
  · refine .inl ?_
    rw [bind_run, conflict, ← bind_run, conflictOn_bind]
  · refine .inr fun v e' raised => unchanged v e' ?_
    rw [bind_run] at raised
    cases run : load x r w e with
    | raised =>
      rw [run] at raised
      cases raised
      rfl
    | _ => rw [run] at raised; cases raised

theorem unchangedUnless_weakTarget :
    UnchangedUnless e S (conflictOn x r "read" e) (weakTarget x r e) :=
  .looks (looks_check x) fun _ => .looks (looks_weakSlot x r) fun _ => unchangedUnless_loadRef

theorem unchangedUnless_store (u : UInt64) :
    UnchangedUnless e (LeavesCopy x r w e) (conflictOn x r "write" e) (store x r w u e) := by
  refine .looks (looks_check x) fun _ => ?_
  by_cases hnull : r = .null
  · rw [if_pos hnull]
    exact .error
  rw [if_neg hnull]
  dsimp only
  split
  · refine .looks (looks_youngSpan x r) fun s => .looks (looks_checkWord ..) fun i => ?_
    rw [look_bind, setYoung]
    split
    · exact .done
    · exact .error
  rw [look_bind]
  split
  · refine .looks (looks_oldSpan r) fun s => .looks (looks_checkWord ..) fun i => ?_
    rw [setOld]
    split
    · by_cases fits : s.base + i < e.arena.memory.size
      · rw [lift_ok (onArena_ok (Arena.store_ok fits u))]
        exact .done
      · have fails : onArena (Arena.store (s.base + i) u) e = .error (.fault .outOfBounds) e := by
          simp [onArena, Arena.store, fits]
        rw [lift_error fails]
        exact .error
    · exact .error
  rename_i young created
  unfold privateCopy
  rw [bind_assoc, look_bind]
  cases copy : (e.txn x).copyOf? r with
  | some => exact .looks (looks_checkWord ..) fun _ => .done
  | none =>
    rw [bind_assoc]
    refine .looks (looks_oldSpan r) fun s => ?_
    rw [bind_assoc]
    refine .looks (looks_getOld ..) fun h => ?_
    rw [bind_assoc, look_bind]
    split
    · rw [conflictOn_bind]
      exact .inl rfl
    rw [bind_assoc]
    refine .looks (looks_sizeIn _) fun size => ?_
    simp only [bind_assoc, look_bind]
    rw [lift_done (updateTxn_run ..), look_bind, lift_done (logDebug_run ..), pure_bind]
    by_cases inside : 1 ≤ w ∧ w.toNat < (size / 8).toNat
    · rw [lift_done (checkWord_ok inside.1 inside.2)]
      exact .done
    -- The index is looked at when the copy has been taken.
    · rw [lift_bind_error (checkWord_refused inside)]
      refine .inr ?_
      rintro _ _ ⟨⟩
      refine .inr ⟨?_, rfl, h,
        e.arena.memory.slice (s.base + 1) (s.base + (size / 8).toNat), _, rfl, ?_⟩
      · rintro (own | own | own)
        · exact young own
        · exact created (Array.contains_iff_mem.2 own)
        · rw [copy] at own
          cases own
      · rw [Memory.slice, List.length_map, List.length_range']
        omega

/-- A refused read leaves the engine as it was. So does a write, except that one to a shared object
with an index outside of it leaves the private copy that it has taken. -/
theorem refused_in_place (e : Engine) (x : TxnId) (r : Ref) (w : Int) (u : UInt64) :
    UnchangedUnless e (fun _ _ => False) (conflictOn x r "read" e) (load x r w e) ∧
      UnchangedUnless e (fun _ _ => False) (conflictOn x r "read" e) (loadRef x r w e) ∧
      UnchangedUnless e (fun _ _ => False) (conflictOn x r "read" e) (weakTarget x r e) ∧
      UnchangedUnless e (LeavesCopy x r w e) (conflictOn x r "write" e) (store x r w u e) ∧
      UnchangedUnless e (LeavesCopy x r w e) (conflictOn x r "write" e) (storeRef x r w ⟨u⟩ e) :=
  ⟨unchangedUnless_load, unchangedUnless_loadRef, unchangedUnless_weakTarget,
    unchangedUnless_store u, unchangedUnless_store u⟩

end Refused

section Guarded

theorem copyOf?_of_created (ok : e.Core) (hx : e.Active x) (hr : r ∈ (e.txn x).created) :
    (e.txn x).copyOf? r = none :=
  Option.eq_none_iff_forall_ne_some.2 fun c copy => by
    have own := ok.txns x hx
    obtain ⟨u, hu⟩ := (own.writes r c ((Txn.copyOf?_eq_some own.keys).1 copy)).1
    exact (own.reads r u hu).1.2 ⟨x, hr⟩

theorem spans_copy {c : Array UInt64} (old : ¬ r.isYoung = true)
    (copy : (e.txn x).copyOf? r = some c) (i : Nat) : e.Spans x r i ↔ i < c.size := by
  rw [Spans, if_neg old, copy]

theorem spans_room {n : Nat} (good : e.arena.Good) (old : ¬ r.isYoung = true)
    (none : (e.txn x).copyOf? r = none) (room : e.Room r n) (i : Nat) : e.Spans x r i ↔ i < n := by
  rw [Spans, if_neg old, none]
  refine ⟨?_, fun hi => ⟨n, room, hi⟩⟩
  rintro ⟨m, other, hi⟩
  rwa [room_unique good other room] at hi

/-- The call answers or meets the conflict `d` if the index is inside, and is refused otherwise. -/
def Guards (w : Int) (r : Ref) (inside : Prop) (d c : Course Engine β) : Prop :=
  inside ∧ (c = d ∨ ∃ b e', c = .done b e') ∨
    ¬ inside ∧ ∃ e', c = .raised (.violation (.badWord w r)) e'

theorem Guards.checked {n : Nat} {shown : Prop} {f : Nat → EngineCall β}
    (same : shown ↔ w.toNat < n)
    (next : w.toNat < n → f w.toNat e = d ∨ ∃ b e', f w.toNat e = .done b e') :
    Guards w r (1 ≤ w ∧ shown) d ((liftM (checkWord r w n) >>= f) e) := by
  rw [same]
  by_cases here : 1 ≤ w ∧ w.toNat < n
  · rw [lift_done (checkWord_ok here.1 here.2)]
    exact .inl ⟨here, next here.2⟩
  · rw [lift_bind_error (checkWord_refused here)]
    exact .inr ⟨here, e, rfl⟩

variable (ok : e.Core) (hx : e.Active x) (usable : e.Usable (e.txn x).thread r) (hnull : r ≠ .null)
include ok hx usable

theorem youngSpan_usable (young : r.isYoung = true) :
    ∃ s, youngSpan x r e = .ok s e ∧ ∀ i, e.Spans x r i ↔ i < s.length := by
  have own := Evacuation.young_of_usable ok hx usable young
  have found : ∃ s, e.youngWords? (e.txn x).segment r = some s := by
    rw [youngWords?,
      if_pos ⟨own.2.1, UInt64.lt_iff_toNat_lt.2 ((ok.txns x hx).nursery.object _ own.2.2).2⟩]
    exact ⟨_, rfl⟩
  obtain ⟨s, found⟩ := found
  refine ⟨s, ?_, fun i => ?_⟩
  · rw [youngSpan, get_bind, get_bind, found]
    rfl
  · rw [Spans, if_pos young, found]
    simp

include hnull

theorem room_usable (old : ¬ r.isYoung = true) : e.Allocated r := by
  by_cases created : r ∈ (e.txn x).created
  · exact (ok.txns x hx).created r created
  · exact (shared_of_usable ok.life hx usable hnull (Bool.not_eq_true _ ▸ old) created).1

theorem guards_load : Guards w r (1 ≤ w ∧ e.Spans x r w.toNat) (conflictOn x r "read" e)
    (load x r w e) := by
  unfold load
  rw [lift_done (check_ok ok.life hx), if_neg hnull]
  dsimp only
  by_cases young : r.isYoung = true
  · obtain ⟨s, found, spans⟩ := youngSpan_usable ok hx usable young
    rw [if_pos young, lift_done found]
    refine .checked (spans _) fun inside => .inr ?_
    rw [look_bind, lift_ok (getYoung_ok inside)]
    exact ⟨_, _, rfl⟩
  rw [if_neg young, look_bind]
  cases copy : (e.txn x).copyOf? r with
  | some => exact .checked (spans_copy young copy _) fun _ => .inr ⟨_, _, rfl⟩
  | none =>
    obtain ⟨n, room⟩ := room_usable ok hx usable hnull young
    have spans := spans_room ok.heap.good young copy room
    dsimp only
    rw [look_bind]
    split
    · rw [lift_done (oldSpan_ok ok.heap.good room)]
      refine .checked (spans _) fun (inside : w.toNat < n) => .inr ?_
      rw [lift_ok (getOld_ok inside)]
      exact ⟨_, _, rfl⟩
    · unfold loadShared
      rw [lift_done (oldSpan_ok ok.heap.good room)]
      refine .checked (spans _) fun (inside : w.toNat < n) => ?_
      rw [lift_done (getOld_ok (Nat.zero_lt_of_lt inside)), look_bind]
      split
      · exact .inl rfl
      · right
        rw [lift_done (getOld_ok inside), lift_done (updateTxn_run ..)]
        exact ⟨_, _, rfl⟩

theorem guards_store (own : e.Owns x r) (u : UInt64) :
    Guards w r (1 ≤ w ∧ e.Spans x r w.toNat) (conflictOn x r "write" e) (store x r w u e) := by
  unfold store
  rw [lift_done (check_ok ok.life hx), if_neg hnull]
  dsimp only
  by_cases young : r.isYoung = true
  · obtain ⟨s, found, spans⟩ := youngSpan_usable ok hx usable young
    rw [if_pos young, lift_done found]
    refine .checked (spans _) fun inside => .inr ?_
    rw [look_bind, setYoung, if_pos inside]
    exact ⟨_, _, rfl⟩
  rw [if_neg young, look_bind]
  by_cases created : r ∈ (e.txn x).created
  · obtain ⟨n, room⟩ := room_usable ok hx usable hnull young
    have spans := spans_room ok.heap.good young (copyOf?_of_created ok hx created) room
    rw [if_pos (Array.contains_iff_mem.2 created), lift_done (oldSpan_ok ok.heap.good room)]
    refine .checked (spans _) fun inside => .inr ?_
    rw [lift_ok (setOld_ok ok.heap.good room (Nat.le_refl n) inside u)]
    exact ⟨_, _, rfl⟩
  · obtain ⟨c, copy⟩ := Option.isSome_iff_exists.1 ((own.resolve_left young).resolve_left created)
    have taken : privateCopy x r e = .done c.size e := by
      unfold privateCopy
      rw [look_bind, copy]
      rfl
    rw [if_neg (mt Array.contains_iff_mem.1 created), bind_done taken]
    exact .checked (spans_copy young copy _) fun _ => .inr ⟨_, _, rfl⟩

theorem guards_copy {m : Nat} (foreign : ¬ e.Owns x r) (room : e.Room r m) (u : UInt64) :
    store x r w u e = conflictOn x r "write" e ∨
      (∃ v e', sizeIn (·.oldView (r.span m)) e = .error v e' ∧ store x r w u e = .raised v e') ∨
      ∃ size, sizeIn (·.oldView (r.span m)) e = .ok size e ∧ size.toNat / 8 ≤ m ∧
        Guards w r (1 ≤ w ∧ w.toNat < size.toNat / 8) (conflictOn x r "write" e)
        (store x r w u e) := by
  have young : ¬ r.isYoung = true := fun young => foreign (.inl young)
  have created : ¬ (e.txn x).created.contains r = true :=
    fun own => foreign (.inr (.inl (Array.contains_iff_mem.1 own)))
  have copy := Option.not_isSome_iff_eq_none.1 fun copied => foreign (.inr (.inr copied))
  have bounds := room_bounds ok.heap.good room
  unfold store privateCopy
  rw [lift_done (check_ok ok.life hx), if_neg hnull]
  dsimp only
  rw [if_neg young, look_bind, if_neg created, bind_assoc, look_bind, copy]
  rw [bind_assoc, lift_done (oldSpan_ok ok.heap.good room), bind_assoc,
    lift_done (getOld_ok (by omega)), bind_assoc,
    look_bind]
  split
  · rw [conflictOn_bind]
    exact .inl rfl
  right
  rw [bind_assoc]
  cases told : sizeIn (fun e => e.oldView (r.span m)) e with
  | error v e' => exact .inl ⟨v, e', rfl, lift_bind_error told⟩
  | ok size e' =>
    have ends := ends_sizeIn (fun e => e.oldView (r.span m)) e
    rw [Ends, told] at ends
    obtain ⟨rfl, -, -, -, most⟩ := ends
    refine .inr ⟨size, rfl, most, ?_⟩
    rw [lift_done told]
    simp only [bind_assoc, look_bind]
    rw [lift_done (updateTxn_run ..), look_bind, lift_done (logDebug_run ..), pure_bind]
    exact .checked (by rw [UInt64.toNat_div]; rfl) fun _ => .inr ⟨_, _, rfl⟩

end Guarded

/-- An index is refused exactly if it is none of the words that the transaction is shown of the
object: all that is in use of a nursery from a young object on, all of the chunk of an old one, and
all of a private copy. A write to a shared object is held against its size, which is within its
chunk. In the old heap no other object is touched. -/
theorem words_guarded {N n : Nat} {a : Nat → System} {choice : Nat → Choice}
    (run : System.Run N a choice) (hn : n ≤ N) (here : (a n).engine = e) (active : e.Active x)
    (usable : e.Usable (e.txn x).thread r) (hnull : r ≠ .null) (w : Int) (u : UInt64) :
    Guards w r (1 ≤ w ∧ e.Spans x r w.toNat) (conflictOn x r "read" e) (load x r w e) ∧
      (e.Owns x r → Guards w r (1 ≤ w ∧ e.Spans x r w.toNat) (conflictOn x r "write" e)
        (store x r w u e)) ∧
      (¬ e.Owns x r → ∀ m, e.Room r m → store x r w u e = conflictOn x r "write" e ∨
        (∃ v e', sizeIn (·.oldView (r.span m)) e = .error v e' ∧ store x r w u e = .raised v e') ∨
        ∃ size, sizeIn (·.oldView (r.span m)) e = .ok size e ∧ size.toNat / 8 ≤ m ∧
          Guards w r (1 ≤ w ∧ w.toNat < size.toNat / 8) (conflictOn x r "write" e)
          (store x r w u e)) ∧
      ∀ q m k i j, e.Room r m → i < m → e.Room q k → j < k → q ≠ r →
      r.bits.toNat / 8 + i ≠ q.bits.toNat / 8 + j := by
  have ok := here ▸ (run.ok hn).inv.core
  refine ⟨guards_load ok active usable hnull, fun own => guards_store ok active usable hnull own u,
    fun foreign m room => guards_copy ok active usable hnull foreign room u,
      fun q m k i j room hi room' hj hne => ?_⟩
  have apart := ok.heap.good.live_apart room room' fun same => hne (congrArg Ref.mk same.symm)
  omega

/-- A transaction makes two objects of two words each. -/
def adjoining : List Choice :=
  [.start (.ask .register), .start (.ask (.begin 0)), .start (.ask (.alloc 0 16)),
    .start (.ask (.alloc 0 16))]

/-- Of the first object the word 2 is let through, which is the header of the second, but not the
word 4. -/
theorem words_guarded_adjoining :
    ∃ a choice, System.Run 4 a choice ∧ ((a 4).engine.segment 0).objects = #[0, 16] ∧
    (load 0 (.young 0 0) 2 (a 4).engine = conflictOn 0 (.young 0 0) "read" (a 4).engine ∨
      ∃ v e', load 0 (.young 0 0) 2 (a 4).engine = .done v e') ∧
    ∃ e', store 0 (.young 0 0) 4 9 (a 4).engine =
    .raised (.violation (.badWord 4 (.young 0 0))) e' := by
  have run := System.run_enacts adjoining (by decide +kernel) (by decide)
  have guarded := fun w u => words_guarded run (Nat.le_refl 4) rfl (x := 0) (r := .young 0 0)
    (by decide +kernel)
    (by decide +kernel) (by decide) w u
  have used : (System.enacts adjoining 4).engine.youngWords?
      ((System.enacts adjoining 4).engine.txn 0).segment (.young 0 0) = some ⟨0, 4⟩ := by
        decide +kernel
  obtain ⟨-, answers⟩ | ⟨outside, -⟩ := (guarded 2 0).1
  · obtain ⟨⟨-, s, found, inside⟩, -⟩ | ⟨-, refused⟩ := (guarded 4 9).2.1 (by decide +kernel)
    · cases used.symm.trans found
      exact absurd inside (by decide)
    · exact ⟨_, _, run, by decide +kernel, answers, refused⟩
  · exact absurd ⟨by decide, _, used, by decide⟩ outside

end TxHeap
