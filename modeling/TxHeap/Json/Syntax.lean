import TxHeap.Text.Quoted

/-! Checking that bytes are one JSON value, a byte at a time. -/

namespace TxHeap.Json

inductive Trouble
  | valueStart
  | keyStart
  | afterKey
  | afterMember
  | afterElement
  | afterTop
  | inString
  | inNumber
  | inWord (word : String) (expected : Char)
deriving DecidableEq, Repr

namespace Trouble

def text : Trouble → String
  | valueStart => "looking for beginning of value"
  | keyStart => "looking for beginning of object key string"
  | afterKey => "after object key"
  | afterMember => "after object key:value pair"
  | afterElement => "after array element"
  | afterTop => "after top-level value"
  | inString => "in string"
  | inNumber => "in numeric literal"
  | inWord word expected => s!"in literal {word} (expecting {Text.quotedSingle expected})"

end Trouble

inductive SyntaxError
  | unexpectedEnd
  | tooDeep
  | badCharacter (p : Text.Utf8.Piece) (trouble : Trouble)
  | badEscape (bytes : List UInt8)
deriving DecidableEq, Repr

namespace SyntaxError

def isPlain : Text.Utf8.Piece → Bool
  | .char c => Text.isPrintable c && c != ' ' && c.toNat != 0x60 && c != Text.Utf8.replacement
  | .stray _ => false

/-- An escape sequence between backquotes, or in double quotes if that could be misread. -/
def escapeText (bytes : List UInt8) : String :=
  if (Text.Utf8.pieces bytes).all isPlain then "`" ++ Text.Utf8.text bytes ++ "`"
  else Text.quotedBytes bytes

def text : SyntaxError → String
  | unexpectedEnd => "unexpected end of JSON input"
  | tooDeep => "exceeded max depth"
  | badCharacter p trouble =>
    "invalid character " ++ Text.quotedSinglePiece p ++ " " ++ trouble.text
  | badEscape bytes => "invalid escape sequence " ++ escapeText bytes ++ " in string"

end SyntaxError

inductive Refusal
  | character (trouble : Trouble)
  | depth
  /-- It does not go on with the escape that begins with `read`, of which `shown` bytes are told. -/
  | escape (read : List UInt8) (shown : Nat)
deriving DecidableEq, Repr

/-- The error for a byte that is refused, given the bytes after it. -/
def Refusal.error (b : UInt8) (rest : List UInt8) : Refusal → SyntaxError
  | character trouble => .badCharacter (Text.Utf8.firstPiece b rest) trouble
  | depth => .tooDeep
  | escape read shown => .badEscape ((read ++ b :: rest).take shown)

inductive Container
  | key
  | member
  | element
deriving DecidableEq, Repr

inductive Place
  | beforeValue
  | beforeFirstElement
  | beforeFirstKey
  | beforeKey
  | afterValue
  | inString
  | inEscape
  /-- Inside an escaped code unit, of which the digits given have been read. -/
  | inCode (digits : List UInt8)
  /-- Inside `true`, `false` or `null`, of which the given characters are to come. -/
  | inWord (word : String) (rest : List Char)
  | afterMinus
  | afterZero
  | inWhole
  | afterPoint
  | inFraction
  | afterE
  | afterSign
  | inExponent
deriving DecidableEq, Repr

structure Checker where
  place : Place := .beforeValue
  opened : List Container := []
  depth : Nat := 0
deriving DecidableEq, Repr

def maxDepth : Nat := 10000

def isSpace (b : UInt8) : Bool := b == 0x20 || b == 0x09 || b == 0x0a || b == 0x0d

def isDigit (b : UInt8) : Bool := 0x30 ≤ b && b ≤ 0x39

def isHexDigit (b : UInt8) : Bool :=
  isDigit b || (0x61 ≤ b && b ≤ 0x66) || (0x41 ≤ b && b ≤ 0x46)

namespace Checker

def goto (s : Checker) (place : Place) : Except Refusal Checker := .ok { s with place }

def refuse (t : Trouble) : Except Refusal Checker := .error (.character t)

def enter (s : Checker) (c : Container) (place : Place) : Except Refusal Checker :=
  if s.depth < maxDepth then .ok { place, opened := c :: s.opened, depth := s.depth + 1 }
  else .error .depth

def leave (s : Checker) : Except Refusal Checker :=
  .ok { place := .afterValue, opened := s.opened.tail, depth := s.depth - 1 }

def beforeValue (s : Checker) (b : UInt8) : Except Refusal Checker :=
  if isSpace b then .ok s
  else
    match Char.ofNat b.toNat with
    | '{' => s.enter .key .beforeFirstKey
    | '[' => s.enter .element .beforeFirstElement
    | '"' => s.goto .inString
    | '-' => s.goto .afterMinus
    | '0' => s.goto .afterZero
    | 't' => s.goto (.inWord "true" ['r', 'u', 'e'])
    | 'f' => s.goto (.inWord "false" ['a', 'l', 's', 'e'])
    | 'n' => s.goto (.inWord "null" ['u', 'l', 'l'])
    | _ => if isDigit b then s.goto .inWhole else refuse .valueStart

def beforeKey (s : Checker) (b : UInt8) : Except Refusal Checker :=
  if isSpace b then .ok s
  else if b = 0x22 then s.goto .inString
  else refuse .keyStart

/-- After a value inside the bracket `c`. -/
def afterInner (s : Checker) (b : UInt8) (c : Container) (outer : List Container) :
    Except Refusal Checker :=
  match c, Char.ofNat b.toNat with
  | .key, ':' => .ok { s with place := .beforeValue, opened := .member :: outer }
  | .key, _ => refuse .afterKey
  | .member, ',' => .ok { s with place := .beforeKey, opened := .key :: outer }
  | .member, '}' => s.leave
  | .member, _ => refuse .afterMember
  | .element, ',' => s.goto .beforeValue
  | .element, ']' => s.leave
  | .element, _ => refuse .afterElement

def afterValue (s : Checker) (b : UInt8) : Except Refusal Checker :=
  if isSpace b then s.goto .afterValue
  else
    match s.opened with
    | [] => refuse .afterTop
    | c :: outer => s.afterInner b c outer

def afterZero (s : Checker) (b : UInt8) : Except Refusal Checker :=
  if b = 0x2e then s.goto .afterPoint
  else if b = 0x65 ∨ b = 0x45 then s.goto .afterE
  else s.afterValue b

def afterSign (s : Checker) (b : UInt8) : Except Refusal Checker :=
  if isDigit b then s.goto .inExponent else refuse .inNumber

def inString (s : Checker) (b : UInt8) : Except Refusal Checker :=
  if b = 0x22 then s.goto .afterValue
  else if b = 0x5c then s.goto .inEscape
  else if b < 0x20 then refuse .inString
  else .ok s

def inEscape (s : Checker) (b : UInt8) : Except Refusal Checker :=
  let c := Char.ofNat b.toNat
  if c = 'u' then s.goto (.inCode [])
  else if "bfnrt\\/\"".toList.contains c then s.goto .inString
  else .error (.escape [0x5c] 2)

def inCode (s : Checker) (b : UInt8) (digits : List UInt8) : Except Refusal Checker :=
  if isHexDigit b then
    s.goto (if digits.length < 3 then .inCode (digits ++ [b]) else .inString)
  else .error (.escape (0x5c :: 0x75 :: digits) 6)

def step (s : Checker) (b : UInt8) : Except Refusal Checker :=
  match s.place with
  | .beforeValue => s.beforeValue b
  | .beforeFirstElement => if b = 0x5d then s.leave else s.beforeValue b
  | .beforeFirstKey => if b = 0x7d then s.leave else s.beforeKey b
  | .beforeKey => s.beforeKey b
  | .afterValue => s.afterValue b
  | .inString => s.inString b
  | .inEscape => s.inEscape b
  | .inCode digits => s.inCode b digits
  | .inWord word rest =>
    match rest with
    | [] => s.afterValue b
    | [c] => if b.toNat = c.toNat then s.goto .afterValue else refuse (.inWord word c)
    | c :: rest =>
      if b.toNat = c.toNat then s.goto (.inWord word rest) else refuse (.inWord word c)
  | .afterMinus =>
    if b = 0x30 then s.goto .afterZero
    else if isDigit b then s.goto .inWhole
    else refuse .inNumber
  | .afterZero => s.afterZero b
  | .inWhole => if isDigit b then .ok s else s.afterZero b
  | .afterPoint => if isDigit b then s.goto .inFraction else refuse .inNumber
  | .inFraction =>
    if isDigit b then .ok s
    else if b = 0x65 ∨ b = 0x45 then s.goto .afterE
    else s.afterValue b
  | .afterE => if b = 0x2b ∨ b = 0x2d then s.goto .afterSign else s.afterSign b
  | .afterSign => s.afterSign b
  | .inExponent => if isDigit b then .ok s else s.afterValue b

def run (s : Checker) : List UInt8 → Except SyntaxError Checker
  | [] => .ok s
  | b :: rest =>
    match s.step b with
    | .ok s => run s rest
    | .error r => .error (r.error b rest)

def mayEnd (s : Checker) : Bool :=
  match s.place with
  | .afterValue | .afterZero | .inWhole | .inFraction | .inExponent => s.opened.isEmpty
  | _ => false

def finish (s : Checker) : Except SyntaxError Unit :=
  if s.mayEnd then .ok () else .error .unexpectedEnd

end Checker

/-- Checks that `bytes` are one JSON value, white space around it allowed. -/
def check (bytes : List UInt8) : Except SyntaxError Unit :=
  match ({} : Checker).run bytes with
  | .ok s => s.finish
  | .error e => .error e

end TxHeap.Json
