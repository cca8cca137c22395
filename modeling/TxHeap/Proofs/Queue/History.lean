import TxHeap.Proofs.Queue

/-! Whatever is asked of a queue, it answers as a list does. Its nodes are all in use or emptied,
each once, and no more than it has held items at a time. -/

namespace TxHeap.Queue
variable {α : Type}

/-- What can be asked of a queue. A reader that looks at the items says at each whether it wants
more. -/
inductive Request (α : Type)
  | append (item : α)
  | pop
  | peek
  | each (more : List α → α → Bool)
  | length
  | isEmpty
  | reset

inductive Answer (α : Type)
  | done
  | item (found : Option α)
  | shown (items : List α)
  | length (n : Nat)
  | isEmpty (b : Bool)

def gather (more : List α → α → Bool) (seen : List α) (a : α) : List α × Bool :=
  (seen ++ [a], more seen a)

def serve [Inhabited α] (q : Queue α) : Request α → Answer α × Queue α
  | .append item => (.done, q.append item)
  | .pop =>
    match q.pop? with
    | some (a, q) => (.item (some a), q)
    | none => (.item none, q)
  | .peek => (.item q.peek?, q)
  | .each more => (.shown (q.each (gather more) []), q)
  | .length => (.length q.length, q)
  | .isEmpty => (.isEmpty q.isEmpty, q)
  | .reset => (.done, .empty)

def serveAll [Inhabited α] (q : Queue α) : List (Request α) → List (Answer α) × Queue α
  | [] => ([], q)
  | r :: rest =>
    let (answer, q) := q.serve r
    let (answers, q) := q.serveAll rest
    (answer :: answers, q)

structure Line (α : Type) where
  items : List α := []
  most : Nat := 0

namespace Line

/-- What a reader that has seen some items sees of a list. -/
def shown (more : List α → α → Bool) (seen : List α) : List α → List α
  | [] => seen
  | a :: rest => if more seen a then shown more (seen ++ [a]) rest else seen ++ [a]

def serve (l : Line α) : Request α → Answer α × Line α
  | .append item => (.done, { items := l.items ++ [item], most := max l.most (l.items.length + 1) })
  | .pop => (.item l.items.head?, { l with items := l.items.tail })
  | .peek => (.item l.items.head?, l)
  | .each more => (.shown (shown more [] l.items), l)
  | .length => (.length l.items.length, l)
  | .isEmpty => (.isEmpty l.items.isEmpty, l)
  | .reset => (.done, {})

def serveAll (l : Line α) : List (Request α) → List (Answer α) × Line α
  | [] => ([], l)
  | r :: rest =>
    let (answer, l) := l.serve r
    let (answers, l) := l.serveAll rest
    (answer :: answers, l)

end Line

section Walks
variable {nodes : Array (Node α)} {start : Option Nat} {used : List (Nat × α)} {n : Nat}

theorem Linked.chain (h : Linked nodes start used) (enough : used.length ≤ n) :
    chain nodes n start = used.map (·.2) := by
  induction used generalizing start n with
  | nil =>
    obtain rfl := h
    cases n <;> rfl
  | cons first rest ih =>
    obtain ⟨p, a⟩ := first
    obtain ⟨rfl, next, here, linked⟩ := h
    obtain ⟨n, rfl⟩ := Nat.exists_eq_add_one.2 (Nat.zero_lt_of_lt enough)
    simp only [chain, here, List.map_cons, ih linked (Nat.le_of_succ_le_succ enough)]

theorem Linked.each (h : Linked nodes start used) (enough : used.length ≤ n)
    (more : List α → α → Bool) (seen : List α) :
    eachFrom nodes (gather more) n start seen = Line.shown more seen (used.map (·.2)) := by
  induction used generalizing start n seen with
  | nil =>
    obtain rfl := h
    cases n <;> rfl
  | cons first rest ih =>
    obtain ⟨p, a⟩ := first
    obtain ⟨rfl, next, here, linked⟩ := h
    obtain ⟨n, rfl⟩ := Nat.exists_eq_add_one.2 (Nat.zero_lt_of_lt enough)
    rw [eachFrom, here, List.map_cons, Line.shown, ← ih linked (Nat.le_of_succ_le_succ enough)]
    rfl

end Walks

/-- The nodes of a queue that stands for a list: those in use hold its items, and with the emptied
ones they are all there are, as many as the list has ever had items. -/
structure Threads [Inhabited α] (q : Queue α) (l : Line α) (used : List (Nat × α))
    (empties : List Nat) : Prop
    extends Wf q used empties where
  items : used.map (·.2) = l.items
  length : q.length = used.length
  covers : (used.map (·.1) ++ empties).Perm (List.range q.nodes.size)
  cleared : ∀ p ∈ empties, (q.nodes[p]?).map (·.item) = some default
  most : q.nodes.size = l.most

section Append
variable {q : Queue α} {used : List (Nat × α)} {empties : List Nat}
  (h : Wf q used empties) (item : α)
include h

theorem Wf.item_append {p : Nat} (hp : p ∈ empties.tail) :
    ((q.append item).nodes[p]?).map (·.item) = (q.nodes[p]?).map (·.item) := by
  obtain ⟨-, -, same, -⟩ := h.place ⟨item, none⟩
  have kept := same p (.inr hp)
  have free := h.nextPlace_eq
  obtain ⟨nodes, free, first, last, length⟩ := q
  cases last with
  | none => simp only [Queue.append, free, kept]
  | some =>
    simp only [Queue.append, free, getElem?_link, kept]
    split <;> simp [Function.comp_def]

theorem Wf.size_append : (q.append item).nodes.size = if empties = [] then q.nodes.size + 1
    else q.nodes.size := by
  have size : (Queue.place q.nodes (q.nextPlace empties) ⟨item, none⟩).size =
      if empties = [] then q.nodes.size + 1 else q.nodes.size := by
    cases empties with
    | nil => simp [nextPlace, Queue.place]
    | cons p => simp [nextPlace, Queue.place, h.emptied.lt p (.head _)]
  rw [← h.nextPlace_eq] at size
  obtain ⟨nodes, free, first, last, length⟩ := q
  cases last with
  | none => exact size
  | some => simpa [Queue.append, link] using size

omit h in
theorem length_append (q : Queue α) : (q.append item).length = q.length + 1 := by
  obtain ⟨nodes, free, first, last, length⟩ := q
  cases last <;> rfl

end Append

section Steps
variable [Inhabited α] {q : Queue α} {l : Line α} {used : List (Nat × α)} {empties : List Nat}
  (h : Threads q l used empties)
include h

theorem Threads.size : used.length + empties.length = q.nodes.size := by
  simpa using h.covers.length_eq

theorem Threads.toList : q.toList = l.items := by
  have enough := h.size ▸ Nat.le_add_right ..
  rw [Queue.toList, h.linked.chain enough, h.items]

theorem Threads.each (more : List α → α → Bool) :
    q.each (gather more) [] = Line.shown more [] l.items := by
  have enough := h.size ▸ Nat.le_add_right ..
  rw [Queue.each, h.linked.each enough, h.items]

theorem Threads.peek? : q.peek? = l.items.head? := by
  have linked := h.linked
  rw [← h.items]
  cases used with
  | nil =>
    have first : q.first = none := linked
    simp [Queue.peek?, first]
  | cons =>
    obtain ⟨first, next, here, -⟩ := linked
    simp [Queue.peek?, first, here]

theorem Threads.length_items : q.length = l.items.length := by
  rw [h.length, ← h.items, List.length_map]

theorem Threads.ends : (q.first = none ↔ q.length = 0) ∧ (q.last = none ↔ q.length = 0) := by
  rw [h.last, h.length]
  have linked := h.linked
  cases used with
  | nil =>
    have first : q.first = none := linked
    simp [first]
  | cons => simp [linked.1]

theorem Threads.append (item : α) : Threads (q.append item)
    { items := l.items ++ [item], most := max l.most (l.items.length + 1) }
    (used ++ [(q.nextPlace empties, item)]) empties.tail where
  toWf := h.toWf.append item
  items := by simp [h.items]
  length := by rw [length_append, h.length, List.length_append]; rfl
  covers := by
    rw [h.toWf.size_append item]
    have covers := h.covers
    cases empties with
    | nil => simpa [nextPlace, List.range_succ] using covers.append_right [q.nodes.size]
    | cons => simpa [nextPlace] using covers
  cleared p hp := by
    rw [h.toWf.item_append item hp]
    exact h.cleared p (List.mem_of_mem_tail hp)
  most := by
    rw [h.toWf.size_append item]
    have size := h.size
    have length := congrArg List.length h.items
    have most := h.most
    cases empties with
    | nil | cons => simp at size length ⊢; omega

theorem Threads.pop_nil (hused : used = []) : q.pop? = none ∧ l.items = [] := by
  subst hused
  exact ⟨pop?_nil ⟨[], empties, h.toWf, rfl⟩, h.items.symm⟩

omit h in
theorem Threads.pop_cons {p : Nat} {a : α} {rest : List (Nat × α)}
    (h : Threads q l ((p, a) :: rest) empties) :
    ∃ q', q.pop? = some (a, q') ∧ l.items.head? = some a ∧
    Threads q' { l with items := l.items.tail } rest (p :: empties) := by
  obtain ⟨next, popped, wf⟩ := h.toWf.pop?
  obtain ⟨-, next', here, -⟩ := h.linked
  have hp := (Array.getElem?_eq_some_iff.1 here).1
  refine ⟨_, popped, by simp [← h.items], wf, by simp [← h.items], ?_, ?_, fun p' hp' => ?_, ?_⟩
  · rw [Queue.popped, h.length, List.length_cons]
    rfl
  · simpa [Queue.popped] using List.perm_middle.trans h.covers
  · by_cases same : p = p'
    · subst same
      simp [Queue.popped, hp]
    · rw [Queue.popped, Array.getElem?_setIfInBounds_ne same]
      exact h.cleared p' ((List.mem_cons.1 hp').resolve_left fun heq => same heq.symm)
  · simpa [Queue.popped] using h.most

end Steps

def StandsFor [Inhabited α] (q : Queue α) (l : Line α) : Prop :=
  ∃ used empties, Threads q l used empties

theorem standsFor_empty [Inhabited α] : (empty : Queue α).StandsFor {} :=
  ⟨[], [], ⟨rfl, rfl, rfl, List.nodup_nil⟩, rfl, rfl, .refl _, by simp, rfl⟩

theorem StandsFor.serve [Inhabited α] {q : Queue α} {l : Line α} (h : q.StandsFor l)
    (r : Request α) :
    (q.serve r).1 = (l.serve r).1 ∧ (q.serve r).2.StandsFor (l.serve r).2 := by
  obtain ⟨used, empties, threads⟩ := h
  have same : q.StandsFor l := ⟨used, empties, threads⟩
  cases r with
  | append item => exact ⟨rfl, _, _, threads.append item⟩
  | pop =>
    cases used with
    | nil =>
      obtain ⟨none, empty⟩ := threads.pop_nil rfl
      rw [Queue.serve, Line.serve, none, empty]
      refine ⟨rfl, ?_⟩
      rwa [show ({ l with items := [].tail } : Line α) = l by rw [List.tail_nil, ← empty]]
    | cons head =>
      obtain ⟨q', some, head, threads'⟩ := threads.pop_cons
      rw [Queue.serve, Line.serve, some, head]
      exact ⟨rfl, _, _, threads'⟩
  | peek => exact ⟨congrArg Answer.item threads.peek?, same⟩
  | each more => exact ⟨congrArg Answer.shown (threads.each more), same⟩
  | length => exact ⟨congrArg Answer.length threads.length_items, same⟩
  | isEmpty =>
    refine ⟨congrArg Answer.isEmpty ?_, same⟩
    rw [Queue.isEmpty, threads.length_items]
    cases l.items <;> rfl
  | reset => exact ⟨rfl, standsFor_empty⟩

theorem StandsFor.serveAll [Inhabited α] {q : Queue α} {l : Line α} (h : q.StandsFor l)
    (requests : List (Request α)) :
    (q.serveAll requests).1 = (l.serveAll requests).1 ∧
    (q.serveAll requests).2.StandsFor (l.serveAll requests).2 := by
  induction requests generalizing q l with
  | nil => exact ⟨rfl, h⟩
  | cons r rest ih =>
    obtain ⟨answer, step⟩ := h.serve r
    obtain ⟨answers, last⟩ := ih step
    refine ⟨?_, last⟩
    change (q.serve r).1 :: ((q.serve r).2.serveAll rest).1 =
      (l.serve r).1 :: ((l.serve r).2.serveAll rest).1
    rw [answer, answers]

/-- A queue answers as a list does. Its first and its last node are missing if and only if it is
empty. The nodes in use and the emptied ones, which hold nothing, are every node once, and as many
as there have been items at a time since the queue was last reset. -/
theorem served_as_a_list [Inhabited α] (requests : List (Request α)) :
    let q := ((empty : Queue α).serveAll requests).2
    let line := (({} : Line α).serveAll requests).2
    ((empty : Queue α).serveAll requests).1 = (({} : Line α).serveAll requests).1 ∧
      q.toList = line.items ∧
      (q.first = none ↔ q.length = 0) ∧ (q.last = none ↔ q.length = 0) ∧
      ∃ used empties, Linked q.nodes q.first used ∧ used.map (·.2) = line.items ∧
        Emptied q.nodes q.free empties ∧
        (used.map (·.1) ++ empties).Perm (List.range q.nodes.size) ∧
        (∀ p ∈ empties, (q.nodes[p]?).map (·.item) = some default) ∧ q.nodes.size = line.most := by
  obtain ⟨same, used, empties, threads⟩ := standsFor_empty.serveAll requests
  exact ⟨same, threads.toList, threads.ends.1, threads.ends.2, used, empties, threads.linked,
    threads.items,
    threads.emptied, threads.covers, threads.cleared, threads.most⟩

end TxHeap.Queue
