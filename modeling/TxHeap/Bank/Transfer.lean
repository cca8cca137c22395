import TxHeap.Engine.Audit
import TxHeap.Engine.Schedule

/-! Random numbers from a congruential generator with a state of 128 bits. -/

namespace TxHeap.Bank

structure Draw where
  state : Nat
deriving DecidableEq, Repr

namespace Draw

def start (seed worker : UInt64) : Draw := ⟨seed.toNat * UInt64.size + worker.toNat⟩

def multiplier : Nat := 2549297995355413924 * UInt64.size + 4865540595714422341

def increment : Nat := 6364136223846793005 * UInt64.size + 1442695040888963407

def output (state : Nat) : UInt64 :=
  let hi := UInt64.ofNat (state / UInt64.size)
  let lo := UInt64.ofNat state
  let hi := (hi ^^^ (hi >>> 32)) * 0xda942042e4dd58b5
  (hi ^^^ (hi >>> 48)) * (lo ||| 1)

def next (d : Draw) : UInt64 × Draw :=
  let state := (d.state * multiplier + increment) % (UInt64.size * UInt64.size)
  (output state, ⟨state⟩)

/-- Draws until the low word of the product with `n` leaves no bias, at most `tries` times. -/
def scaled (n : UInt64) : Nat → Draw → UInt64 × Draw
  | 0, d => (0, d)
  | tries + 1, d =>
    let (x, d) := d.next
    let product := x.toNat * n.toNat
    if product % UInt64.size < UInt64.size % n.toNat then scaled n tries d
    else (UInt64.ofNat (product / UInt64.size), d)

def below (n : UInt64) (d : Draw) : UInt64 × Draw :=
  if n &&& (n - 1) = 0 then
    let (x, d) := d.next
    (x &&& (n - 1), d)
  else scaled n 1000 d

end Draw

def balanceWord : Int := 2

def receiptSlot : Int := 2

def accountWords (initial : UInt64) : List (Nat × UInt64) :=
  [(1, Layout.describe 0 1), (2, initial)]

def ledgerWords : List (Nat × UInt64) := [(1, Layout.describe 1 0)]

def openAccount (initial : UInt64) : EngineCall (Except Error Ref) :=
  allocPrebuilt (Layout.bytes 0 1) (accountWords initial)

def openLedger : EngineCall (Except Error Ref) := allocPrebuilt (Layout.bytes 1 0) ledgerWords

structure Transfer where
  payer : Nat
  payee : Nat
  amount : UInt64
deriving DecidableEq, Repr

def Transfer.draw (accounts : UInt64) (d : Draw) : Transfer × Draw :=
  let (payer, d) := d.below accounts
  let (payee, d) := d.below accounts
  let (amount, d) := d.below 100
  ({ payer := payer.toNat, payee := payee.toNat, amount }, d)

def writeReceipt (x : TxnId) (t : Transfer) : EngineCall Ref := do
  let r ← alloc x (Layout.bytes 0 3)
  store x r 1 (Layout.describe 0 3)
  store x r 2 (UInt64.ofNat t.payer)
  store x r 3 (UInt64.ofNat t.payee)
  store x r 4 t.amount
  return r

def move (accounts : Array Ref) (ledger : Ref) (t : Transfer) (x : TxnId) : EngineCall Unit := do
  let payer := accounts.getD t.payer .null
  let payee := accounts.getD t.payee .null
  let a ← load x payer balanceWord
  if a < t.amount then return ()
  store x payer balanceWord (a - t.amount)
  let b ← load x payee balanceWord
  store x payee balanceWord (b + t.amount)
  let r ← writeReceipt x t
  storeRef x ledger receiptSlot r

def sumFrom (x : TxnId) (total : UInt64) : List Ref → EngineCall UInt64
  | [] => return total
  | r :: rest => do
    let b ← load x r balanceWord
    sumFrom x (total + b) rest

def policy : RetryPolicy := { inevitableAfter := 64 }

/-- What runs the workload: an engine, and the total that the audit found. -/
abbrev World := Engine × UInt64

def makeTransfers (fuel : Nat) (accounts : Array Ref) (ledger : Ref) (t : ThreadId) :
    Nat → Draw → Action World (Option Error)
  | 0, _ => return none
  | n + 1, d => do
    if accounts.isEmpty then throw (.thrown "invalid argument to IntN")
    let (transfer, d) := Transfer.draw (UInt64.ofNat accounts.size) d
    let error ← atomically fuel t policy fun _ x => do
      onEngine (move accounts ledger transfer x)
      return none
    match error with
    | some error => return some error
    | none => makeTransfers fuel accounts ledger t n d

/-- A worker: registers, makes its transfers, and unregisters however they end. -/
def work (fuel : Nat) (accounts : Array Ref) (ledger : Ref) (transfers : Nat) (d : Draw) :
    Action World (Option Error) := do
  let t ← onEngine register
  let outcome ← Action.outcome (makeTransfers fuel accounts ledger t transfers d)
  onEngine (unregister t)
  match outcome with
  | .ok error => return error
  | .error r => throw r

def audit (fuel : Nat) (accounts : Array Ref) (t : ThreadId) : Action World (Option Error) :=
  atomically fuel t {} fun _ x => do
    let total ← onEngine (sumFrom x 0 accounts.toList)
    modify fun (e, _) => (e, total)
    return none

end TxHeap.Bank
