/-! A first-in first-out queue. Items live in linked nodes of one array; an emptied node is kept for
the next item, the one freed last first. -/

namespace TxHeap

namespace Queue

structure Node (α : Type) where
  item : α
  next : Option Nat

end Queue

structure Queue (α : Type) where
  nodes : Array (Queue.Node α) := #[]
  free : Option Nat := none
  first : Option Nat := none
  last : Option Nat := none
  length : Nat := 0

namespace Queue

variable {α : Type}

def empty : Queue α := {}

def isEmpty (q : Queue α) : Bool := q.length == 0

/-- The items of at most `n` nodes along the chain that begins at `h`. -/
def chain (nodes : Array (Node α)) : Nat → Option Nat → List α
  | 0, _ => []
  | _, none => []
  | n + 1, some h =>
    match nodes[h]? with
    | some node => node.item :: chain nodes n node.next
    | none => []

def toList (q : Queue α) : List α := chain q.nodes q.nodes.size q.first

/-- Shows the items of at most `n` nodes along the chain that begins at `h` to `look`, which keeps a
state and says whether it wants more. -/
def eachFrom {σ : Type} (nodes : Array (Node α)) (look : σ → α → σ × Bool) :
    Nat → Option Nat → σ → σ
  | 0, _, s => s
  | _, none, s => s
  | n + 1, some h, s =>
    match nodes[h]? with
    | some node =>
      let (s, more) := look s node.item
      if more then eachFrom nodes look n node.next s else s
    | none => s

def each {σ : Type} (q : Queue α) (look : σ → α → σ × Bool) (s : σ) : σ :=
  eachFrom q.nodes look q.nodes.size q.first s

def peek? (q : Queue α) : Option α := q.first.bind fun h => (q.nodes[h]?).map (·.item)

/-- Puts a node at place `h`, which is the next place or that of an emptied node. -/
def place (nodes : Array (Node α)) (h : Nat) (node : Node α) : Array (Node α) :=
  if h < nodes.size then nodes.setIfInBounds h node else nodes.push node

def link (nodes : Array (Node α)) (h : Nat) (next : Option Nat) : Array (Node α) :=
  nodes.modify h fun node => { node with next }

def append (q : Queue α) (item : α) : Queue α :=
  match q with
  | { nodes, free, first, last, length } =>
    let h := free.getD nodes.size
    let free := free.bind fun h => (nodes[h]?).bind (·.next)
    let nodes := place nodes h ⟨item, none⟩
    match last with
    | none => { nodes, free, first := some h, last := some h, length := length + 1 }
    | some l =>
      { nodes := link nodes l (some h), free, first, last := some h, length := length + 1 }

def pop? [Inhabited α] (q : Queue α) : Option (α × Queue α) :=
  match q with
  | { nodes, free, first, last, length } =>
    match first with
    | none => none
    | some h =>
      match nodes[h]? with
      | none => none
      | some node =>
        some (node.item,
          { nodes := nodes.setIfInBounds h ⟨default, free⟩
            free := some h
            first := node.next
            last := if node.next.isNone then none else last
            length := length - 1 })

@[simp] theorem toList_empty : (empty : Queue α).toList = [] := rfl

@[simp] theorem peek?_empty : (empty : Queue α).peek? = none := rfl

end Queue

end TxHeap
