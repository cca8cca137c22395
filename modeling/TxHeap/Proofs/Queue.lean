import TxHeap.Queue

/-! The linked nodes of a queue hold its items in order, apart from the emptied ones, so that these
can be used again. -/

namespace TxHeap.Queue
variable {empties : List Nat} {p : Nat}

variable {α : Type}

def Linked (nodes : Array (Node α)) : Option Nat → List (Nat × α) → Prop
  | start, [] => start = none
  | start, (h, a) :: rest =>
    start = some h ∧ ∃ next, nodes[h]? = some ⟨a, next⟩ ∧ Linked nodes next rest

def Emptied (nodes : Array (Node α)) : Option Nat → List Nat → Prop
  | start, [] => start = none
  | start, h :: rest =>
    start = some h ∧ ∃ node, nodes[h]? = some node ∧ Emptied nodes node.next rest

structure Wf (q : Queue α) (used : List (Nat × α)) (empties : List Nat) : Prop where
  linked : Linked q.nodes q.first used
  emptied : Emptied q.nodes q.free empties
  last : q.last = used.getLast?.map (·.1)
  nodup : (used.map (·.1) ++ empties).Nodup

def Holds (q : Queue α) (items : List α) : Prop :=
  ∃ used empties, Wf q used empties ∧ used.map (·.2) = items

variable {used : List (Nat × α)}

section Frames
variable {nodes nodes' : Array (Node α)} {start : Option Nat}

theorem Linked.frame (h : Linked nodes start used)
    (same : ∀ p ∈ used.map (·.1), nodes'[p]? = nodes[p]?) : Linked nodes' start used := by
  induction used generalizing start with
  | nil => exact h
  | cons first rest ih =>
    obtain ⟨p, a⟩ := first
    obtain ⟨rfl, next, hnode, hrest⟩ := h
    refine ⟨rfl, next, ?_, ih hrest fun q hq => same q (.tail _ hq)⟩
    rw [same p List.mem_cons_self, hnode]

theorem Emptied.frame (h : Emptied nodes start empties)
    (same : ∀ p ∈ empties, nodes'[p]? = nodes[p]?) : Emptied nodes' start empties := by
  induction empties generalizing start with
  | nil => exact h
  | cons p rest ih =>
    obtain ⟨rfl, node, hnode, hrest⟩ := h
    refine ⟨rfl, node, ?_, ih hrest fun q hq => same q (.tail _ hq)⟩
    rw [same p List.mem_cons_self, hnode]

theorem Linked.lt (h : Linked nodes start used) : ∀ p ∈ used.map (·.1), p < nodes.size := by
  induction used generalizing start with
  | nil => exact fun p hp => absurd hp (by simp)
  | cons first rest ih =>
    obtain ⟨p, a⟩ := first
    obtain ⟨rfl, next, hnode, hrest⟩ := h
    intro q hq
    obtain rfl | hq := List.mem_cons.1 hq
    · exact (Array.getElem?_eq_some_iff.1 hnode).1
    · exact ih hrest q hq

theorem Emptied.lt (h : Emptied nodes start empties) : ∀ p ∈ empties, p < nodes.size := by
  induction empties generalizing start with
  | nil => exact fun p hp => absurd hp (by simp)
  | cons p rest ih =>
    obtain ⟨rfl, node, hnode, hrest⟩ := h
    intro q hq
    obtain rfl | hq := List.mem_cons.1 hq
    · exact (Array.getElem?_eq_some_iff.1 hnode).1
    · exact ih hrest q hq

theorem Linked.snoc {a : α} (h : Linked nodes start used) (hne : used ≠ [])
    (same : ∀ q ∈ used.map (·.1), nodes'[q]? =
      if some q = used.getLast?.map (·.1) then (nodes[q]?).map fun node =>
      { node with next := some p }
      else nodes[q]?) (nodup : (used.map (·.1)).Nodup) (here : nodes'[p]? = some ⟨a, none⟩) :
    Linked nodes' start (used ++ [(p, a)]) := by
  induction used generalizing start with
  | nil => exact absurd rfl hne
  | cons first rest ih =>
    obtain ⟨q, b⟩ := first
    obtain ⟨rfl, next, hnode, hrest⟩ := h
    obtain ⟨absent, nodupRest⟩ := List.nodup_cons.1 nodup
    have place := same q (.head _)
    cases rest with
    | nil =>
      obtain rfl := hrest
      refine ⟨rfl, some p, ?_, rfl, none, here, rfl⟩
      rw [place, hnode]
      simp
    | cons second rest =>
      have last : ((q, b) :: second :: rest).getLast?.map (·.1) =
          (second :: rest).getLast?.map (·.1) := by
        simp
      rw [last] at same place
      have notLast : ¬ some q = (second :: rest).getLast?.map (·.1) := by
        intro heq
        obtain ⟨⟨q', b'⟩, hlast, hq⟩ := Option.map_eq_some_iff.1 heq.symm
        exact absent (List.mem_map.2 ⟨(q', b'), List.mem_of_getLast? hlast, hq⟩)
      refine ⟨rfl, next, ?_, ih hrest (by simp) (fun q' hq' => same q' (.tail _ hq')) nodupRest⟩
      rw [place, if_neg notLast, hnode]

end Frames

theorem Emptied.head {nodes : Array (Node α)} {start : Option Nat}
    (h : Emptied nodes start empties) :
    start = empties.head? := by
  cases empties with
  | nil => exact h
  | cons => exact h.1

def nextPlace (q : Queue α) (empties : List Nat) : Nat := empties.head?.getD q.nodes.size

section Place
variable {q : Queue α} {used : List (Nat × α)} (h : Wf q used empties)
include h

theorem Wf.nextPlace_eq : q.free.getD q.nodes.size = q.nextPlace empties := by
  rw [nextPlace, h.emptied.head]

theorem Wf.place (node : Node α) :
    Emptied (place q.nodes (q.nextPlace empties) node)
    (q.free.bind fun p => (q.nodes[p]?).bind (·.next)) empties.tail ∧
      (place q.nodes (q.nextPlace empties) node)[q.nextPlace empties]? = some node ∧
      (∀ p, p ∈ used.map (·.1) ∨ p ∈ empties.tail →
        (place q.nodes (q.nextPlace empties) node)[p]? = q.nodes[p]?) ∧
      (used.map (·.1) ++ q.nextPlace empties :: empties.tail).Nodup := by
  have inside := h.linked.lt
  cases empties with
  | nil =>
    have free : q.free = none := h.emptied
    have pushed : place q.nodes q.nodes.size node = q.nodes.push node := by simp [place]
    simp only [nextPlace, free, List.head?_nil, Option.getD_none, Option.bind_none, pushed,
      List.tail_nil]
    refine ⟨rfl, by simp, fun p hp => ?_, ?_⟩
    · have := inside p (hp.resolve_right (by simp))
      rw [Array.getElem?_push, if_neg (by omega)]
    · have nodup := h.nodup
      simp only [List.append_nil] at nodup
      refine List.nodup_append.2 ⟨nodup, by simp, fun p hp p' hp' => ?_⟩
      have := inside p hp
      rw [List.mem_singleton.1 hp']
      omega
  | cons p rest =>
    obtain ⟨free, old, hold, hrest⟩ := h.emptied
    have hp := (Array.getElem?_eq_some_iff.1 hold).1
    have stored : Queue.place q.nodes p node = q.nodes.setIfInBounds p node := by
      simp [Queue.place, hp]
    have nodup := h.nodup
    have absent : p ∉ used.map (·.1) := fun hmem =>
      (List.nodup_append.1 nodup).2.2 p hmem p (.head _) rfl
    have absentRest := (List.nodup_cons.1 (List.nodup_append.1 nodup).2.1).1
    have others : ∀ p', p' ∈ used.map (·.1) ∨ p' ∈ rest →
        (q.nodes.setIfInBounds p node)[p']? = q.nodes[p']? := by
      intro p' hp'
      have hne : p ≠ p' := by
        rintro rfl
        exact hp'.elim absent absentRest
      exact Array.getElem?_setIfInBounds_ne hne
    simp only [nextPlace, free, List.head?_cons, Option.getD_some, Option.bind_some, hold, stored,
      List.tail_cons]
    exact ⟨hrest.frame fun p' hp' => others p' (.inr hp'), by simp [hp], others, nodup⟩

end Place

theorem getElem?_link (nodes : Array (Node α)) (l p : Nat) (next : Option Nat) :
    (link nodes l next)[p]? =
    if l = p then (nodes[p]?).map fun node => { node with next } else nodes[p]? := by
  rw [link, Array.getElem?_modify]

variable {q : Queue α}

theorem Wf.append (h : Wf q used empties) (item : α) :
    Wf (q.append item) (used ++ [(q.nextPlace empties, item)]) empties.tail := by
  obtain ⟨emptied, here, same, nodup⟩ := h.place ⟨item, none⟩
  have free := h.nextPlace_eq
  obtain ⟨nodes, free, first, last, length⟩ := q
  generalize hp : nextPlace _ empties = p at *
  have absent : p ∉ used.map (·.1) := fun hmem =>
    (List.nodup_append.1 nodup).2.2 _ hmem _ (.head _) rfl
  have hlast := h.last
  have nodup' : ((used ++ [(p, item)]).map (·.1) ++ empties.tail).Nodup := by simpa using nodup
  cases last with
  | none =>
    obtain rfl := by
      rw [eq_comm, Option.map_eq_none_iff] at hlast
      exact List.getLast?_eq_none_iff.1 hlast
    simp only [append, free]
    exact ⟨⟨rfl, none, here, rfl⟩, emptied, rfl, nodup'⟩
  | some l =>
    have hne : used ≠ [] := by
      rintro rfl
      cases hlast
    have hl : l ∈ used.map (·.1) := by
      obtain ⟨newest, last, rfl⟩ := Option.map_eq_some_iff.1 hlast.symm
      exact List.mem_map.2 ⟨newest, List.mem_of_getLast? last, rfl⟩
    simp only [append, free]
    refine ⟨h.linked.snoc hne (fun p' hp' => ?_) (List.nodup_append.1 h.nodup).1 ?_, ?_,
      by simp, nodup'⟩
    · dsimp only
      rw [getElem?_link, same p' (.inl hp'), ← hlast]
      by_cases hpl : l = p'
      · subst hpl
        simp
      · rw [if_neg hpl, if_neg fun heq => hpl (Option.some.inj heq).symm]
    · have hne : l ≠ p := fun heq => absent (heq ▸ hl)
      rw [getElem?_link, if_neg hne, here]
    · refine emptied.frame fun p' hp' => ?_
      have apart := (List.nodup_append.1 nodup).2.2 l hl p' (.tail _ hp')
      rw [getElem?_link, if_neg apart]

theorem holds_append {items : List α} (h : q.Holds items) (item : α) :
    (q.append item).Holds (items ++ [item]) := by
  obtain ⟨used, empties, wf, rfl⟩ := h
  exact ⟨_, _, wf.append item, by simp⟩

theorem pop?_nil [Inhabited α] (h : q.Holds []) : q.pop? = none := by
  obtain ⟨used, empties, wf, hmap⟩ := h
  obtain rfl := List.map_eq_nil_iff.1 hmap
  have first : q.first = none := wf.linked
  simp [pop?, first]

/-- The queue without its oldest item, which is at place `p` and has `next` after it. -/
def popped [Inhabited α] (q : Queue α) (p : Nat) (next : Option Nat) : Queue α :=
  { nodes := q.nodes.setIfInBounds p ⟨default, q.free⟩, free := some p, first := next
    last := if next.isNone then none else q.last, length := q.length - 1 }

theorem Wf.pop? [Inhabited α] {a : α} {rest : List (Nat × α)} (h : Wf q ((p, a) :: rest) empties) :
    ∃ next, q.pop? = some (a, q.popped p next) ∧ Wf (q.popped p next) rest (p :: empties) := by
  obtain ⟨first, next, hnode, linked⟩ := h.linked
  have nodup := h.nodup
  have hp := (Array.getElem?_eq_some_iff.1 hnode).1
  simp only [List.map_cons, List.cons_append, List.nodup_cons, List.mem_append, not_or] at nodup
  obtain ⟨⟨absent, absent'⟩, nodup⟩ := nodup
  have others : ∀ p', p' ≠ p → (q.nodes.setIfInBounds p ⟨default, q.free⟩)[p']? = q.nodes[p']? :=
    fun p' hne => Array.getElem?_setIfInBounds_ne hne.symm
  refine ⟨next, by simp only [Queue.pop?, first, hnode, popped], ?_, ?_, ?_, ?_⟩
  · exact linked.frame fun p' hp' => others p' fun heq => absent (heq ▸ hp')
  · refine ⟨rfl, ⟨default, q.free⟩, by simp [popped, hp], h.emptied.frame fun p' hp' => ?_⟩
    exact others p' fun heq => absent' (heq ▸ hp')
  · have last := h.last
    cases rest with
    | nil =>
      obtain rfl := linked
      rfl
    | cons =>
      obtain ⟨rfl, -⟩ := linked
      simpa [popped] using last
  · exact (List.perm_middle.nodup_iff).2 (List.nodup_cons.2 ⟨by simp [absent, absent'], nodup⟩)

theorem pop?_cons [Inhabited α] {a : α} {items : List α} (h : q.Holds (a :: items)) :
    ∃ q', q.pop? = some (a, q') ∧ q'.Holds items := by
  obtain ⟨used, empties, wf, hmap⟩ := h
  cases used with
  | nil => cases hmap
  | cons head rest =>
    obtain ⟨rfl, rfl⟩ := hmap
    obtain ⟨next, popped, wf'⟩ := wf.pop?
    exact ⟨_, popped, rest, _, wf', rfl⟩

end TxHeap.Queue
