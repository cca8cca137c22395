/-! A table of callbacks. Each key is registered at most once, entries stay in order, and an index
tells the place of every key. -/

namespace TxHeap

structure CallbackTable (κ α : Type) where
  index : List (κ × Nat) := []
  entries : List (κ × α) := []

namespace CallbackTable

variable {κ α : Type} [BEq κ]

def empty : CallbackTable κ α := {}

def size (t : CallbackTable κ α) : Nat := t.entries.length

def place? (t : CallbackTable κ α) (key : κ) : Option Nat := t.index.lookup key

def setPlace (key : κ) (place : Nat) : List (κ × Nat) → List (κ × Nat)
  | [] => [(key, place)]
  | (k, p) :: rest => if k == key then (k, place) :: rest else (k, p) :: setPlace key place rest

def dropKey (key : κ) (index : List (κ × Nat)) : List (κ × Nat) :=
  index.filter fun (k, _) => !(k == key)

def insert? (t : CallbackTable κ α) (key : κ) (callback : α) : Option (CallbackTable κ α) :=
  match t.place? key with
  | some _ => none
  | none => some ⟨setPlace key t.entries.length t.index, t.entries ++ [(key, callback)]⟩

/-- Gives the entries their places from `i` on. -/
def renumber (i : Nat) : List (κ × α) → List (κ × Nat) → List (κ × Nat)
  | [], index => index
  | (k, _) :: rest, index => renumber (i + 1) rest (setPlace k i index)

def erase (t : CallbackTable κ α) (key : κ) : CallbackTable κ α :=
  match t.place? key with
  | none => t
  | some i =>
    let entries := t.entries.eraseIdx i
    ⟨renumber i (entries.drop i) (dropKey key t.index), entries⟩

def drain (t : CallbackTable κ α) : List (κ × α) × CallbackTable κ α := (t.entries, empty)

end CallbackTable

end TxHeap
