

/-! UTF-8. Reading never fails: a byte that belongs to no well-formed character reads as the
replacement character. -/

namespace TxHeap.Text.Utf8

def replacement : Char := '�'

def isTail (b : UInt8) : Bool := 0x80 ≤ b && b ≤ 0xbf

def tailBits (b : UInt8) : Nat := b.toNat % 64

def two? (a b : UInt8) : Option Char :=
  if 0xc2 ≤ a ∧ a ≤ 0xdf ∧ isTail b then some (Char.ofNat (a.toNat % 32 * 64 + tailBits b))
  else none

def three? (a b c : UInt8) : Option Char :=
  let n := a.toNat % 16 * 4096 + tailBits b * 64 + tailBits c
  if 0xe0 ≤ a ∧ a ≤ 0xef ∧ isTail b ∧ isTail c ∧ 0x800 ≤ n ∧ (n < 0xd800 ∨ 0xdfff < n) then
    some (Char.ofNat n)
  else none

def four? (a b c d : UInt8) : Option Char :=
  let n := a.toNat % 8 * 262144 + tailBits b * 4096 + tailBits c * 64 + tailBits d
  if 0xf0 ≤ a ∧ a ≤ 0xf4 ∧ isTail b ∧ isTail c ∧ isTail d ∧ 0x10000 ≤ n ∧ n ≤ 0x10ffff then
    some (Char.ofNat n)
  else none

def first (a : UInt8) (rest : List UInt8) : Char × List UInt8 :=
  if a < 0x80 then (Char.ofNat a.toNat, rest)
  else
    match rest with
    | [] => (replacement, [])
    | b :: rest₂ =>
      match two? a b, rest₂ with
      | some ch, _ => (ch, rest₂)
      | none, [] => (replacement, rest)
      | none, c :: rest₃ =>
        match three? a b c, rest₃ with
        | some ch, _ => (ch, rest₃)
        | none, [] => (replacement, rest)
        | none, d :: rest₄ =>
          match four? a b c d with
          | some ch => (ch, rest₄)
          | none => (replacement, rest)

theorem length_first (a : UInt8) (rest : List UInt8) :
    (first a rest).2.length ≤ rest.length := by
  unfold first
  split
  · exact Nat.le_refl _
  · split
    · exact Nat.le_refl _
    · split
      · simp
      · exact Nat.le_refl _
      · split
        · simp only [List.length_cons]
          omega
        · exact Nat.le_refl _
        · split
          · simp only [List.length_cons]
            omega
          · exact Nat.le_refl _

def decodeOnto (read : Array Char) : List UInt8 → Array Char
  | [] => read
  | a :: rest => decodeOnto (read.push (first a rest).1) (first a rest).2
termination_by bytes => bytes.length
decreasing_by
  have := length_first a rest
  simp only [List.length_cons]
  omega

inductive Piece
  | char (c : Char)
  | stray (b : UInt8)
deriving DecidableEq, Repr

/-- The piece that begins with the byte `a`. A character other than ASCII takes more than `a`. -/
def firstPiece (a : UInt8) (rest : List UInt8) : Piece :=
  if a < 0x80 ∨ (first a rest).2.length < rest.length then .char (first a rest).1 else .stray a

def pieces : List UInt8 → List Piece
  | [] => []
  | a :: rest => firstPiece a rest :: pieces (first a rest).2
termination_by bytes => bytes.length
decreasing_by
  have := length_first a rest
  simp only [List.length_cons]
  omega

def decode (bytes : List UInt8) : List Char := (decodeOnto #[] bytes).toList

def text (bytes : List UInt8) : String := String.ofList (decode bytes)

def encode (s : String) : List UInt8 := s.toUTF8.data.toList

end TxHeap.Text.Utf8

namespace TxHeap.Text

def isSpace (c : Char) : Bool :=
  let n := c.toNat
  (9 ≤ n && n ≤ 13) || n == 0x20 || n == 0x85 || n == 0xa0 || n == 0x1680 ||
    (0x2000 ≤ n && n ≤ 0x200a) || n == 0x2028 || n == 0x2029 || n == 0x202f || n == 0x205f ||
    n == 0x3000

def isBlank (line : List UInt8) : Bool := (Utf8.decode line).all isSpace

end TxHeap.Text
