/-! Reading whole numbers that must fit into a word. -/

namespace TxHeap.Text.Numeral

inductive Error
  | malformed
  | outOfRange
deriving DecidableEq, Repr

def digit? (base : Nat) (c : Char) : Option Nat :=
  let n := c.toNat
  let d :=
    if 48 ≤ n ∧ n ≤ 57 then some (n - 48)
    else if 97 ≤ n ∧ n ≤ 122 then some (n - 87)
    else if 65 ≤ n ∧ n ≤ 90 then some (n - 55)
    else none
  d.filter (· < base)

/-- The number whose digits so far are `n`. The first thing wrong decides: no digit, or a number
that does not fit. -/
def readFrom (base : Nat) (underscores : Bool) (n : Nat) : List Char → Except Error Nat
  | [] => .ok n
  | c :: rest =>
    if underscores && c == '_' then readFrom base underscores n rest
    else
      match digit? base c with
      | none => .error .malformed
      | some d =>
        let n := n * base + d
        if n < 18446744073709551616 then readFrom base underscores n rest
        else .error .outOfRange

def decimal (cs : List Char) : Except Error Nat :=
  if cs.isEmpty then .error .malformed else readFrom 10 false 0 cs

/-- A number's base and digits: after `0x`, `0o` or `0b` as they say, after another `0` octal. -/
def splitBase (cs : List Char) : Nat × List Char :=
  match cs with
  | '0' :: 'x' :: d :: rest => (16, d :: rest)
  | '0' :: 'X' :: d :: rest => (16, d :: rest)
  | '0' :: 'o' :: d :: rest => (8, d :: rest)
  | '0' :: 'O' :: d :: rest => (8, d :: rest)
  | '0' :: 'b' :: d :: rest => (2, d :: rest)
  | '0' :: 'B' :: d :: rest => (2, d :: rest)
  | '0' :: rest => (8, rest)
  | _ => (10, cs)

/-- Whether every underscore stands between two digits, given whether a digit stands before. -/
def separates : Bool → List Char → Bool
  | _, [] => true
  | before, '_' :: rest =>
    match rest with
    | [] => false
    | '_' :: _ => false
    | _ => before && separates false rest
  | _, _ :: rest => separates true rest

/-- Whether the underscores of a number are in place. One may also follow the mark of the base. -/
def underscoresOk (cs : List Char) : Bool :=
  match cs with
  | '0' :: m :: rest =>
    if "xXoObB".contains m then separates true rest else separates true (m :: rest)
  | _ => separates false cs

def unsigned (cs : List Char) : Except Error Nat := do
  if cs.isEmpty then throw .malformed
  let (base, digits) := splitBase cs
  let n ← readFrom base true 0 digits
  if cs.contains '_' && !underscoresOk cs then throw .malformed
  return n

/-- A number with an optional sign that fits into a signed word, its digits read by `read`. -/
def signed (read : List Char → Except Error Nat) (cs : List Char) : Except Error Int := do
  let (negative, digits) := match cs with
    | '-' :: rest => (true, rest)
    | '+' :: rest => (false, rest)
    | _ => (false, cs)
  let n ← read digits
  if negative then
    if n ≤ 9223372036854775808 then return -(n : Int) else throw .outOfRange
  else
    if n < 9223372036854775808 then return (n : Int) else throw .outOfRange

end TxHeap.Text.Numeral
