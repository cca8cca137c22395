import TxHeap.Text.Quoted

/-! Records as they are written: one JSON object on a line, without blanks, fields in order.
Unsigned numbers and durations are strings. -/

namespace TxHeap.Event

inductive Level
  | info
  | debug
deriving DecidableEq, Repr

namespace Level

def name : Level → String
  | info => "info"
  | debug => "debug"

end Level

inductive Value
  | text (s : String)
  | int (n : Int)
  | uint (n : UInt64)
  | bool (b : Bool)
  | nanos (n : Int)
deriving DecidableEq, Repr

structure Entry where
  level : Level
  event : String
  segment : Int
  fields : List (String × Value) := []
  message : String := ""
deriving DecidableEq, Repr

/-- A character of a JSON string. Those that matter inside a web page are escaped too. -/
def escapeChar (c : Char) : List Char :=
  match c with
  | '"' => ['\\', '"']
  | '\\' => ['\\', '\\']
  | '\x08' => ['\\', 'b']
  | '\x0c' => ['\\', 'f']
  | '\n' => ['\\', 'n']
  | '\r' => ['\\', 'r']
  | '\t' => ['\\', 't']
  | c =>
    if c.toNat < 0x20 ∨ c = '<' ∨ c = '>' ∨ c = '&' ∨ c.toNat = 0x2028 ∨ c.toNat = 0x2029 then
      '\\' :: 'u' :: Text.hexPadded 4 c.toNat
    else [c]

def quote (s : String) : String := "\"" ++ String.ofList (s.toList.flatMap escapeChar) ++ "\""

def dropTail (tail s : String) : String :=
  if tail.toList.isSuffixOf s.toList then String.ofList (s.toList.take (s.length - tail.length))
  else s

/-- Seconds with as many groups of three decimals as are needed. -/
def secondsText (nanos : Int) : String :=
  let n := nanos.natAbs
  let decimals := toString (n % 1000000000)
  let padded := String.ofList (List.replicate (9 - decimals.length) '0') ++ decimals
  let full := toString (n / 1000000000) ++ "." ++ padded
  let short := dropTail ".000" (dropTail "000" (dropTail "000" full))
  (if nanos < 0 then "-" else "") ++ short ++ "s"

namespace Value

def toText : Value → String
  | text s => quote s
  | int n => toString n
  | uint n => quote (toString n.toNat)
  | bool b => if b then "true" else "false"
  | nanos n => quote (secondsText n)

end Value

namespace Entry

def allFields (e : Entry) : List (String × Value) :=
  [("lvl", .text e.level.name), ("ev", .text e.event), ("seg", .int e.segment)] ++ e.fields ++
    (if e.message.isEmpty then [] else [("msg", .text e.message)])

def line (e : Entry) : String :=
  "\x7b" ++ String.intercalate "," (e.allFields.map fun (k, v) => quote k ++ ":" ++ v.toText) ++
    "\x7d"

end Entry

end TxHeap.Event
