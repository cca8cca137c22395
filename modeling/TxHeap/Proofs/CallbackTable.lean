import Mathlib.Data.List.Nodup
import TxHeap.Engine.CallbackTable

/-! A table of callbacks is its list of entries: the index tells the place of every key, so a key is
found exactly if it is among the entries, and its entry is what is removed. -/

namespace TxHeap
variable {κ α : Type} [DecidableEq κ]

theorem lookup_forget (key : κ) (l : List (κ × α)) (k : κ) :
    (l.filter (·.1 != key)).lookup k = if k = key then none else l.lookup k := by
  induction l with
  | nil => simp
  | cons p rest ih =>
    obtain ⟨k', a⟩ := p
    rw [List.filter_cons]
    by_cases h : k' = key
    · subst h
      rw [if_neg (by simp), ih]
      by_cases hk : k = k'
      · simp [hk]
      · simp [hk, List.lookup_cons, beq_eq_false_iff_ne.2 hk]
    · rw [if_pos (by simpa using h)]
      by_cases hk : k = k'
      · simp [hk, h]
      · simp [List.lookup_cons, beq_eq_false_iff_ne.2 hk, ih]

theorem lookup_put {key : κ} {a : α} (put : List (κ × α) → List (κ × α)) (nil : put [] = [(key, a)])
    (cons : ∀ k b rest, put ((k, b) :: rest) = if k = key then (k, a) :: rest
      else (k, b) :: put rest)
    (l : List (κ × α)) (k : κ) : (put l).lookup k = if k = key then some a else l.lookup k := by
  induction l with
  | nil =>
    rw [nil]
    by_cases h : k = key
    · simp [h]
    · simp [h, List.lookup_cons, beq_eq_false_iff_ne.2 h]
  | cons p rest ih =>
    obtain ⟨k', b⟩ := p
    rw [cons]
    by_cases h : k' = key
    · subst h
      rw [if_pos rfl]
      by_cases hk : k = k'
      · simp [hk]
      · simp [hk, List.lookup_cons, beq_eq_false_iff_ne.2 hk]
    · rw [if_neg h]
      by_cases hk : k = k'
      · simp [hk, h]
      · simp [List.lookup_cons, beq_eq_false_iff_ne.2 hk, ih]

/-- The entries when `key` is registered, or removed if there is no callback; `none` if it was
registered before. -/
def amend (key : κ) (callback : Option α) (entries : List (κ × α)) : Option (List (κ × α)) :=
  match callback with
  | none => some (entries.filter (·.1 ≠ key))
  | some c => if key ∈ entries.map (·.1) then none else some (entries ++ [(key, c)])

namespace CallbackTable
variable {t : CallbackTable κ α} {key : κ} {callback : α}

def amend (t : CallbackTable κ α) (key : κ) : Option α → Option (CallbackTable κ α)
  | none => some (t.erase key)
  | some c => t.insert? key c

/-- Every key is found where its entry is. -/
structure Ok (t : CallbackTable κ α) : Prop where
  place : ∀ k i, t.place? k = some i ↔ (t.entries[i]?).map (·.1) = some k

theorem ok_empty : (empty : CallbackTable κ α).Ok := ⟨fun k i => by simp [place?, empty]⟩

theorem lookup_setPlace (key : κ) (i : Nat) (index : List (κ × Nat)) (k : κ) :
    (setPlace key i index).lookup k = if k = key then some i else index.lookup k :=
  lookup_put (setPlace key i) rfl (fun _ _ _ => by simp [setPlace]) index k

theorem lookup_dropKey (key : κ) (index : List (κ × Nat)) (k : κ) :
    (dropKey key index).lookup k = if k = key then none else index.lookup k :=
  lookup_forget key index k

theorem lookup_renumber (entries : List (κ × α)) (k : κ) :
    ∀ (i : Nat) (index : List (κ × Nat)), (entries.map (·.1)).Nodup →
    ∀ j, (renumber i entries index).lookup k = some j ↔
      i ≤ j ∧ (entries[j - i]?).map (·.1) = some k ∨
      k ∉ entries.map (·.1) ∧ index.lookup k = some j := by
  induction entries with
  | nil => intro i index _ j; simp [renumber]
  | cons p rest ih =>
    obtain ⟨k', c⟩ := p
    intro i index nodup j
    rw [List.map_cons, List.nodup_cons] at nodup
    rw [renumber, ih (i + 1) _ nodup.2 j, lookup_setPlace]
    by_cases hk : k = k'
    · subst hk
      have absent : ∀ n : Nat, (rest[n]?).map (·.1) ≠ some k := by
        intro n found
        obtain ⟨q, hq, rfl⟩ := Option.map_eq_some_iff.1 found
        exact nodup.1 (List.mem_map.2 ⟨q, List.mem_of_getElem? hq, rfl⟩)
      constructor
      · rintro (⟨-, found⟩ | ⟨-, same⟩)
        · exact absurd found (absent _)
        · rw [if_pos rfl] at same
          cases same
          exact .inl ⟨Nat.le_refl _, by simp⟩
      · rintro (⟨hj, found⟩ | ⟨other, -⟩)
        · obtain rfl | lt := Nat.eq_or_lt_of_le hj
          · exact .inr ⟨nodup.1, if_pos rfl⟩
          · rw [show j - i = (j - (i + 1)) + 1 by omega, List.getElem?_cons_succ] at found
            exact absurd found (absent _)
        · exact absurd (.head _) other
    · rw [if_neg hk, List.map_cons, List.mem_cons, not_or]
      refine or_congr ⟨fun h => ⟨by omega, ?_⟩, fun h => ?_⟩
        ⟨fun h => ⟨⟨hk, h.1⟩, h.2⟩, fun h => ⟨h.1.2, h.2⟩⟩
      · rw [show j - i = (j - (i + 1)) + 1 by omega, List.getElem?_cons_succ]
        exact h.2
      · obtain rfl | lt := Nat.eq_or_lt_of_le h.1
        · rw [Nat.sub_self, List.getElem?_cons_zero] at h
          exact absurd (Option.some.inj h.2).symm hk
        · refine ⟨lt, ?_⟩
          rw [show j - i = (j - (i + 1)) + 1 by omega, List.getElem?_cons_succ] at h
          exact h.2

namespace Ok

theorem nodup (h : t.Ok) : (t.entries.map (·.1)).Nodup := by
  refine List.nodup_iff_getElem?_ne_getElem?.2 fun i j hij hj same => ?_
  rw [List.getElem?_map, List.getElem?_map] at same
  obtain ⟨k, hk⟩ : ∃ k, (t.entries[j]?).map (·.1) = some k := by
    rw [List.length_map] at hj
    exact ⟨_, by rw [List.getElem?_eq_getElem hj]; rfl⟩
  have := Option.some.inj (((h.place k i).2 (same.trans hk)).symm.trans ((h.place k j).2 hk))
  omega

theorem none_iff (h : t.Ok) : t.place? key = none ↔ key ∉ t.entries.map (·.1) := by
  rw [Option.eq_none_iff_forall_ne_some]
  constructor
  · intro none mem
    obtain ⟨i, hi⟩ := List.mem_iff_getElem?.1 mem
    rw [List.getElem?_map] at hi
    exact none i ((h.place key i).2 hi)
  · intro absent i found
    obtain ⟨q, hq, rfl⟩ := Option.map_eq_some_iff.1 ((h.place key i).1 found)
    exact absent (List.mem_map_of_mem (List.mem_of_getElem? hq))

theorem insert (h : t.Ok) (new : t.place? key = none) :
    Ok ⟨setPlace key t.entries.length t.index, t.entries ++ [(key, callback)]⟩ := by
  have absent := h.none_iff.1 new
  refine ⟨fun k i => ?_⟩
  have before := h.place k i
  rw [place?] at before ⊢
  rw [lookup_setPlace, List.getElem?_append]
  by_cases hk : k = key
  · subst hk
    rw [if_pos rfl]
    by_cases hi : i < t.entries.length
    · rw [if_pos hi]
      refine ⟨fun same => absurd (Option.some.inj same) (by omega), fun found => ?_⟩
      exact absurd ((h.none_iff.2 absent).symm.trans (before.2 found)) (by rintro ⟨⟩)
    · rw [if_neg hi]
      constructor
      · intro same
        rw [← Option.some.inj same]
        simp
      · intro found
        obtain ⟨q, hq, -⟩ := Option.map_eq_some_iff.1 found
        have := (List.getElem?_eq_some_iff.1 hq).1
        rw [List.length_singleton] at this
        exact congrArg some (by omega)
  · rw [if_neg hk, before]
    by_cases hi : i < t.entries.length
    · rw [if_pos hi]
    · rw [if_neg hi, List.getElem?_eq_none (by omega)]
      refine ⟨by rintro ⟨⟩, fun found => ?_⟩
      obtain ⟨q, hq, rfl⟩ := Option.map_eq_some_iff.1 found
      obtain rfl := by simpa using List.mem_of_getElem? hq
      exact absurd rfl hk

theorem eraseIdx_eq_filter : ∀ (entries : List (κ × α)), (entries.map (·.1)).Nodup →
    ∀ i (hi : i < entries.length),
    entries.eraseIdx i = entries.filter (·.1 ≠ entries[i].1)
  | [], _, i, hi => absurd hi (Nat.not_lt_zero i)
  | p :: rest, nodup, i, hi => by
    rw [List.map_cons, List.nodup_cons] at nodup
    have other : ∀ q ∈ rest, q.1 ≠ p.1 := fun q hq same => nodup.1 (same ▸ List.mem_map_of_mem hq)
    cases i with
    | zero =>
      rw [List.eraseIdx_cons_zero, List.filter_cons, List.getElem_cons_zero, if_neg (by simp)]
      exact (List.filter_eq_self.2 fun q hq => by simpa using other q hq).symm
    | succ i =>
      have hi := Nat.lt_of_succ_lt_succ hi
      rw [List.eraseIdx_cons_succ, List.filter_cons, List.getElem_cons_succ,
        if_pos (by simpa using (other _ (List.getElem_mem hi)).symm),
          eraseIdx_eq_filter rest nodup.2 i hi]

theorem entries_erase (h : t.Ok) : (t.erase key).entries = t.entries.filter (·.1 ≠ key) := by
  unfold erase
  cases found : t.place? key with
  | none =>
    refine (List.filter_eq_self.2 fun q hq => ?_).symm
    simp only [ne_eq, decide_not, Bool.not_eq_eq_eq_not, Bool.not_true, decide_eq_false_iff_not]
    rintro rfl
    exact h.none_iff.1 found (List.mem_map_of_mem hq)
  | some i =>
    obtain ⟨q, hq, rfl⟩ := Option.map_eq_some_iff.1 ((h.place key i).1 found)
    obtain ⟨hi, rfl⟩ := List.getElem?_eq_some_iff.1 hq
    exact eraseIdx_eq_filter t.entries h.nodup i hi

theorem erase (h : t.Ok) (key : κ) : (t.erase key).Ok := by
  unfold CallbackTable.erase
  cases found : t.place? key with
  | none => exact h
  | some i =>
    have erased : ∀ j, (t.entries.eraseIdx i)[j]? = if j < i then t.entries[j]?
        else t.entries[j + 1]? :=
      fun j => List.getElem?_eraseIdx ..
    have unique : ∀ (k : κ) (j n : Nat), (t.entries[j]?).map (·.1) = some k →
        (t.entries[n]?).map (·.1) = some k → j = n := fun k j n hj hn =>
      Option.some.inj (((h.place k j).2 hj).symm.trans ((h.place k n).2 hn))
    have nodup : (((t.entries.eraseIdx i).drop i).map (·.1)).Nodup :=
      (((List.drop_sublist ..).trans (List.eraseIdx_sublist ..)).map _).nodup h.nodup
    refine ⟨fun k j => ?_⟩
    change (renumber i ((t.entries.eraseIdx i).drop i) (dropKey key t.index)).lookup k = some j ↔ _
    rw [lookup_renumber _ k i _ nodup j, lookup_dropKey, List.getElem?_drop]
    constructor
    · rintro (⟨hj, at_⟩ | ⟨absent, place⟩)
      · rwa [Nat.add_sub_cancel' hj] at at_
      · -- The key is not among those that were given new places, so it stands before them.
        by_cases hk : k = key
        · rw [if_pos hk] at place
          cases place
        · rw [if_neg hk] at place
          have at_ := (h.place k j).1 place
          have before : j < i := by
            refine Nat.lt_of_not_le fun le => ?_
            obtain rfl | lt := Nat.eq_or_lt_of_le le
            · exact hk (Option.some.inj (at_.symm.trans ((h.place key i).1 found)))
            · refine absent ?_
              obtain ⟨q, hq, rfl⟩ := Option.map_eq_some_iff.1 at_
              refine List.mem_map_of_mem (List.mem_of_getElem? (i := j - 1 - i) ?_)
              rw [List.getElem?_drop, erased, if_neg (by omega),
                show i + (j - 1 - i) + 1 = j by omega, hq]
          rwa [erased, if_pos before]
    · intro at_
      by_cases hj : i ≤ j
      · rw [Nat.add_sub_cancel' hj]
        exact .inl ⟨hj, at_⟩
      · rw [erased, if_pos (Nat.lt_of_not_le hj)] at at_
        refine .inr ⟨fun mem => ?_, ?_⟩
        · obtain ⟨n, hn⟩ := List.mem_iff_getElem?.1 mem
          rw [List.getElem?_map, List.getElem?_drop, erased, if_neg (by omega)] at hn
          have := unique k _ _ at_ hn
          omega
        · rw [if_neg]
          · exact (h.place k j).2 at_
          · rintro rfl
            have := unique k _ _ at_ ((h.place k i).1 found)
            omega

theorem amend (h : t.Ok) (key : κ) (callback : Option α) :
    (t.amend key callback).map (·.entries) = TxHeap.amend key callback t.entries ∧
    ∀ t', t.amend key callback = some t' → t'.Ok := by
  cases callback with
  | none => exact ⟨congrArg some h.entries_erase, by rintro _ ⟨⟩; exact h.erase key⟩
  | some =>
    rw [CallbackTable.amend, TxHeap.amend, insert?]
    cases found : t.place? key with
    | none => exact ⟨(if_neg (h.none_iff.1 found)).symm, by rintro _ ⟨⟩; exact h.insert found⟩
    | some =>
      refine ⟨(if_pos (Classical.not_not.1 fun absent => ?_)).symm, by rintro _ ⟨⟩⟩
      rw [h.none_iff.2 absent] at found
      cases found

end Ok

/-- What is done with a table. Setting a key to no callback removes it. -/
inductive Change (κ α : Type)
  | set (key : κ) (callback : Option α)
  | drain
  | reset

/-- The table after a change. A second registration is refused and changes nothing. -/
def change (t : CallbackTable κ α) : Change κ α → CallbackTable κ α
  | .set key callback => (t.amend key callback).getD t
  | .drain => t.drain.2
  | .reset => empty

def Change.clears (key : κ) : Change κ α → Bool
  | .set k callback => decide (k = key) && callback.isNone
  | .drain | .reset => true

namespace Ok
variable {t : CallbackTable κ α} (h : t.Ok)
include h

theorem change (o : Change κ α) : (t.change o).Ok ∧ ∃ new,
    (t.change o).entries = t.entries.filter (fun e => !o.clears e.1) ++ new ∧
    ∀ e ∈ new, o = .set e.1 (some e.2) := by
  cases o with
  | drain | reset =>
    exact ⟨ok_empty, [], by simp [CallbackTable.change, drain, empty, Change.clears],
      by rintro _ ⟨⟩⟩
  | set key callback =>
    obtain ⟨entries, ok⟩ := h.amend key callback
    rw [CallbackTable.change]
    cases amended : t.amend key callback with
    | none =>
      rw [amended] at entries
      cases callback with
      | none => cases entries
      | some c => exact ⟨h, [], by simp [Change.clears], by rintro _ ⟨⟩⟩
    | some t' =>
      refine ⟨ok t' amended, ?_⟩
      rw [amended] at entries
      cases callback with
      | none =>
        exact ⟨[], by simpa [TxHeap.amend, Change.clears, eq_comm] using entries, by rintro _ ⟨⟩⟩
      | some c =>
        rw [TxHeap.amend] at entries
        split at entries
        · cases entries
        · exact ⟨[(key, c)], by simpa [Change.clears] using entries, by simp⟩

/-- Of the entries there were, those stay that nothing cleared, in their order, and before all that
came later. -/
theorem changes (ops : List (Change κ α)) : (ops.foldl CallbackTable.change t).Ok ∧ ∃ new,
    (ops.foldl CallbackTable.change t).entries =
    t.entries.filter (fun e => ops.all (!·.clears e.1)) ++ new ∧
      ∀ e ∈ new, .set e.1 (some e.2) ∈ ops := by
  induction ops generalizing t with
  | nil => exact ⟨h, [], by simp, by rintro _ ⟨⟩⟩
  | cons o ops ih =>
    obtain ⟨ok, first, entries, made⟩ := h.change o
    obtain ⟨ok', later, entries', made'⟩ := ih ok
    refine ⟨ok', first.filter (fun e => ops.all (!·.clears e.1)) ++ later, ?_, fun e he => ?_⟩
    · rw [List.foldl_cons, entries', entries, List.filter_append, List.filter_filter,
        List.append_assoc]
      simp [Bool.and_comm]
    · obtain he | he := List.mem_append.1 he
      · exact List.mem_cons.2 (.inl (made e (List.mem_of_mem_filter he)).symm)
      · exact .tail _ (made' e he)

end Ok

/-- However a new table was changed, its index tells the place of every entry and nothing else, and
no key has two. The entries that later changes do not clear stay in order, before those registered
since. A key is refused exactly if it is registered and goes last otherwise, removing one keeps the
order of the others, and draining gives all entries and leaves a table that takes every key. -/
theorem kept_in_order (before after : List (Change κ α)) :
    let t : CallbackTable κ α := before.foldl change empty
    (∀ key i, t.place? key = some i ↔ (t.entries[i]?).map (·.1) = some key) ∧
      (t.entries.map (·.1)).Nodup ∧
      (∃ new, ((before ++ after).foldl change empty).entries = t.entries.filter
        (fun e => after.all (!·.clears e.1)) ++ new ∧
        ∀ e ∈ new, .set e.1 (some e.2) ∈ after) ∧
      (∀ key callback, (t.insert? key callback).map (·.entries) =
        if key ∈ t.entries.map (·.1) then none else some (t.entries ++ [(key, callback)])) ∧
      (∀ key, (t.erase key).entries = t.entries.filter (·.1 ≠ key)) ∧
      t.drain.1 = t.entries ∧ ∀ key callback, (t.drain.2.insert? key callback).map (·.entries) =
        some [(key, callback)] := by
  intro t
  have ok : t.Ok := (ok_empty.changes before).1
  rw [List.foldl_append]
  exact ⟨ok.place, ok.nodup, (ok.changes after).2, fun key c => (ok.amend key (some c)).1,
    fun _ => ok.entries_erase, rfl,
    fun key c => (ok_empty.amend key (some c)).1⟩

end CallbackTable
end TxHeap
