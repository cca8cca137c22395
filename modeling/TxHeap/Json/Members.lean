import TxHeap.Json.Strings
import TxHeap.Text.Numeral

/-! Taking a JSON object apart without looking into its members, and reading the members that are
strings or whole numbers. -/

namespace TxHeap.Json

abbrev Raw := List UInt8

inductive Kind
  | object
  | array
  | string
  | number
  | bool
  | null
deriving DecidableEq, Repr

namespace Kind

def name : Kind → String
  | object => "object"
  | array => "array"
  | string => "string"
  | number => "number"
  | bool => "bool"
  | null => "null"

def ofByte (b : UInt8) : Kind :=
  match Char.ofNat b.toNat with
  | '{' => object
  | '[' => array
  | '"' => string
  | 't' => bool
  | 'f' => bool
  | 'n' => null
  | _ => number

end Kind

inductive Target
  | record
  | int

namespace Target

def name : Target → String
  | record => "map[string]jsontext.Value"
  | int => "int"

end Target

inductive Error
  | malformed (e : SyntaxError)
  /-- The value, or what is known of it, is not what was wanted. -/
  | mismatch (value : String) (target : Target)

namespace Error

def text : Error → String
  | malformed e => e.text
  | mismatch value target =>
    "json: cannot unmarshal " ++ value ++ " into Go value of type " ++ target.name

end Error

def skipSpace (bytes : List UInt8) : List UInt8 := bytes.dropWhile isSpace

inductive Inside
  | plain
  | string
  | escape

/-- Cuts the value at the front of well-formed text off. `depth` brackets are open. -/
def cutValue (depth : Nat) (inside : Inside) (taken : Array UInt8) :
    List UInt8 → Raw × List UInt8
  | [] => (taken.toList, [])
  | b :: rest =>
    match inside, Char.ofNat b.toNat with
    | .escape, _ => cutValue depth .string (taken.push b) rest
    | .string, '\\' => cutValue depth .escape (taken.push b) rest
    | .string, '"' =>
      if depth = 0 then ((taken.push b).toList, rest)
      else cutValue depth .plain (taken.push b) rest
    | .string, _ => cutValue depth .string (taken.push b) rest
    | .plain, '"' => cutValue depth .string (taken.push b) rest
    | .plain, '{' => cutValue (depth + 1) .plain (taken.push b) rest
    | .plain, '[' => cutValue (depth + 1) .plain (taken.push b) rest
    | .plain, c =>
      if depth = 0 then
        if isSpace b || c == ',' || c == ']' || c == '}' || c == ':' then
          (taken.toList, b :: rest)
        else cutValue depth .plain (taken.push b) rest
      else if c == ']' || c == '}' then
        if depth = 1 then ((taken.push b).toList, rest)
        else cutValue (depth - 1) .plain (taken.push b) rest
      else cutValue depth .plain (taken.push b) rest

def takeValue (bytes : List UInt8) : Raw × List UInt8 :=
  cutValue 0 .plain #[] (skipSpace bytes)

/-- The members of an object after those already read, given what follows its opening bracket or a
member. -/
def membersFrom (read : Array (String × Raw)) : Nat → List UInt8 → Array (String × Raw)
  | 0, _ => read
  | n + 1, bytes =>
    match skipSpace bytes with
    | 0x22 :: rest =>
      let (key, rest) := takeValue (0x22 :: rest)
      let (value, rest) := takeValue ((skipSpace rest).drop 1)
      membersFrom (read.push (unquote key, value)) n rest
    | 0x2c :: rest => membersFrom read n rest
    | _ => read

/-- The members of an object in the order they are written. Nothing has no members. -/
def members (bytes : List UInt8) : Except Error (List (String × Raw)) :=
  match check bytes with
  | .error e => .error (.malformed e)
  | .ok () =>
    match skipSpace bytes with
    | [] => .ok []
    | b :: rest =>
      match Kind.ofByte b with
      | .object => .ok (membersFrom #[] bytes.length rest).toList
      | .null => .ok []
      | kind => .error (.mismatch kind.name .record)

def Raw.kind (raw : Raw) : Kind :=
  match raw with
  | [] => .null
  | b :: _ => Kind.ofByte b

/-- The text of a string. Nothing reads as no text. -/
def string? (raw : Raw) : Option String :=
  match raw.kind with
  | .string => some (unquote raw)
  | .null => some ""
  | _ => none

/-- A whole number. Nothing reads as `absent`. -/
def int (raw : Raw) (absent : Int) : Except Error Int :=
  match raw.kind with
  | .null => .ok absent
  | .number =>
    match Text.Numeral.signed Text.Numeral.decimal (Text.Utf8.decode raw) with
    | .ok n => .ok n
    | .error _ => .error (.mismatch ("number " ++ Text.Utf8.text raw) .int)
  | kind => .error (.mismatch kind.name .int)

end TxHeap.Json
