

/-! The text of a floating-point number: the fewest digits that read back, positional for decimal
exponents from -4 to 5. All arithmetic is exact. -/

namespace TxHeap

structure Decimal where
  digits : Nat
  exponent : Int
deriving Repr, DecidableEq

namespace Decimal

structure Binary where
  mantissa : Nat
  exponent : Int
deriving Repr, DecidableEq

namespace Binary

/-- The magnitude of the finite double-precision number with these bits. -/
def ofBits (bits : UInt64) : Binary :=
  let fraction : Nat := bits.toNat % Nat.pow 2 52
  let biased : Nat := bits.toNat / Nat.pow 2 52 % Nat.pow 2 11
  if biased = 0 then ⟨fraction, -1074⟩ else ⟨fraction + Nat.pow 2 52, (biased : Int) - 1075⟩

/-- Whether the next smaller number is only half as far away as the next larger one. -/
def atPowerOfTwo (b : Binary) : Bool := b.mantissa == Nat.pow 2 52 && b.exponent > -1074

/-- Compares `digits * 10 ^ e` with `x * 2 ^ q`. -/
def compareWith (d : Decimal) (x : Nat) (q : Int) : Ordering :=
  compare (d.digits * Nat.pow 10 d.exponent.toNat * Nat.pow 2 (-q).toNat)
    (x * Nat.pow 2 q.toNat * Nat.pow 10 (-d.exponent).toNat)

/-- Whether `d` is among the numbers that round to `b`. -/
def roundsTo (b : Binary) (d : Decimal) : Bool :=
  let even := b.mantissa % 2 == 0
  let q := b.exponent - 2
  let low := 4 * b.mantissa - (if b.atPowerOfTwo then 1 else 2)
  let high := 4 * b.mantissa + 2
  let aboveLow := match compareWith d low q with
    | .gt => true
    | .eq => even
    | .lt => false
  let belowHigh := match compareWith d high q with
    | .lt => true
    | .eq => even
    | .gt => false
  aboveLow && belowHigh

def floorAt (b : Binary) (e : Int) : Nat :=
  b.mantissa * Nat.pow 2 b.exponent.toNat * Nat.pow 10 (-e).toNat /
    (Nat.pow 2 (-b.exponent).toNat * Nat.pow 10 e.toNat)

/-- The least `k` from `start` on, with `n` tries, for which `b < 10 ^ k`. -/
def magnitudeFrom (b : Binary) : Nat → Int → Int
  | 0, k => k
  | n + 1, k => if floorAt b k = 0 then k else magnitudeFrom b n (k + 1)

/-- The `k` with `10 ^ (k - 1) ≤ b < 10 ^ k`. -/
def magnitude (b : Binary) : Int := magnitudeFrom b 700 (-340)

/-- Whether `d` is at most as far from `b` as `d + 1` on the grid of `10 ^ e`. -/
def nearerBelow (b : Binary) (d : Nat) (e : Int) : Bool :=
  match compareWith ⟨2 * d + 1, e⟩ (2 * b.mantissa) b.exponent with
  | .gt => true
  | .lt => false
  | .eq => d % 2 == 0

def withDigits? (b : Binary) (n : Nat) : Option Decimal :=
  let e := b.magnitude - n
  let d := b.floorAt e
  match b.roundsTo ⟨d, e⟩, b.roundsTo ⟨d + 1, e⟩ with
  | true, true => some (if b.nearerBelow d e then ⟨d, e⟩ else ⟨d + 1, e⟩)
  | true, false => some ⟨d, e⟩
  | false, true => some ⟨d + 1, e⟩
  | false, false => none

end Binary

/-- Moves trailing zeros of the digits into the exponent; `n` bounds how many. -/
def strip : Nat → Decimal → Decimal
  | 0, d => d
  | n + 1, d =>
    if d.digits ≠ 0 ∧ d.digits % 10 = 0 then strip n ⟨d.digits / 10, d.exponent + 1⟩ else d

/-- The decimal with the fewest digits that rounds to `b`, and of those the nearest. -/
def shortest (b : Binary) : Decimal :=
  if b.mantissa = 0 then ⟨0, 0⟩
  else
    match (List.range' 1 17).findSome? b.withDigits? with
    | some d => strip 20 d
    | none => ⟨b.floorAt 0, 0⟩

end Decimal

end TxHeap

namespace TxHeap.Decimal

def zerosText (n : Nat) : String := String.ofList (List.replicate n '0')

/-- The least exponent written positionally. -/
def leastPositional : Int := -4

/-- The least exponent above the positional ones. -/
def leastLarge : Int := 6

def exponentText (e : Int) : String :=
  let n := toString e.natAbs
  (if e < 0 then "e-" else "e+") ++ (if n.length < 2 then "0" ++ n else n)

def generalText (d : Decimal) : String :=
  let ds := toString d.digits
  let point : Int := ds.length + d.exponent
  let e := point - 1
  if d.digits = 0 then "0"
  else if e < leastPositional ∨ e ≥ leastLarge then
    let rest := String.ofList (ds.toList.drop 1)
    String.ofList (ds.toList.take 1) ++ (if rest.isEmpty then "" else "." ++ rest) ++ exponentText e
  else if point ≤ 0 then "0." ++ zerosText (-point).toNat ++ ds
  else if d.exponent ≥ 0 then ds ++ zerosText d.exponent.toNat
  else
    String.ofList (ds.toList.take point.toNat) ++ "." ++ String.ofList (ds.toList.drop point.toNat)

def ofFloatText (x : Float) : String :=
  if x.isNaN then "NaN"
  else if x.isInf then (if x > 0 then "+Inf" else "-Inf")
  else
    let bits := x.toBits
    let magnitude := generalText (shortest (.ofBits bits))
    if bits >>> 63 = 1 then "-" ++ magnitude else magnitude

end TxHeap.Decimal
