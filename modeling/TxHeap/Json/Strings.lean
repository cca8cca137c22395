import TxHeap.Json.Syntax

/-! The text of JSON strings. Half of a surrogate pair and bytes that are not UTF-8 read as the
replacement character. -/

namespace TxHeap.Json

def hexValue (b : UInt8) : Nat :=
  if isDigit b then b.toNat - 0x30
  else if 0x61 ≤ b then b.toNat - 0x57
  else b.toNat - 0x37

def codeUnit (a b c d : UInt8) : Nat :=
  ((hexValue a * 16 + hexValue b) * 16 + hexValue c) * 16 + hexValue d

def isHighSurrogate (n : Nat) : Bool := 0xd800 ≤ n && n < 0xdc00

def isLowSurrogate (n : Nat) : Bool := 0xdc00 ≤ n && n < 0xe000

def escapedUnit? (bytes : List UInt8) : Option Nat :=
  match bytes with
  | 0x5c :: 0x75 :: a :: b :: c :: d :: _ => some (codeUnit a b c d)
  | _ => none

/-- The character that begins with the code unit `n`, and the bytes after it. -/
def ofUnit (n : Nat) (rest : List UInt8) : Char × List UInt8 :=
  if isHighSurrogate n then
    match (escapedUnit? rest).filter isLowSurrogate with
    | some low => (Char.ofNat (0x10000 + (n - 0xd800) * 0x400 + (low - 0xdc00)), rest.drop 6)
    | none => (Text.Utf8.replacement, rest)
  else if isLowSurrogate n then (Text.Utf8.replacement, rest)
  else (Char.ofNat n, rest)

def ofEscape (b : UInt8) : Char :=
  match Char.ofNat b.toNat with
  | 'b' => '\x08'
  | 'f' => '\x0c'
  | 'n' => '\n'
  | 'r' => '\r'
  | 't' => '\t'
  | c => c

def firstChar (a : UInt8) (rest : List UInt8) : Char × List UInt8 :=
  if a = 0x5c then
    match rest with
    | 0x75 :: b :: c :: d :: e :: rest => ofUnit (codeUnit b c d e) rest
    | b :: rest => (ofEscape b, rest)
    | [] => (Text.Utf8.replacement, [])
  else Text.Utf8.first a rest

theorem length_ofUnit (n : Nat) (rest : List UInt8) : (ofUnit n rest).2.length ≤ rest.length := by
  unfold ofUnit
  split
  · split
    · simp
    · exact Nat.le_refl _
  · split <;> exact Nat.le_refl _

theorem length_firstChar (a : UInt8) (rest : List UInt8) :
    (firstChar a rest).2.length ≤ rest.length := by
  unfold firstChar
  split
  · split
    · next b c d e rest =>
      have := length_ofUnit (codeUnit b c d e) rest
      simp only [List.length_cons]
      omega
    · simp
    · exact Nat.le_refl _
  · exact Text.Utf8.length_first a rest

def unescapeOnto (read : Array Char) : List UInt8 → Array Char
  | [] => read
  | a :: rest =>
    if a = 0x22 then read
    else unescapeOnto (read.push (firstChar a rest).1) (firstChar a rest).2
termination_by bytes => bytes.length
decreasing_by
  have := length_firstChar a rest
  simp only [List.length_cons]
  omega

def unquote (raw : List UInt8) : String :=
  String.ofList (unescapeOnto #[] raw.tail).toList

end TxHeap.Json
