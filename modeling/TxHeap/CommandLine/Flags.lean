import TxHeap.Text.Numeral
import TxHeap.Text.Quoted

/-! Flags of a command, with one or two hyphens. A value follows `=` or is the next argument, for a
switch only after `=`. Flags end at the first other argument. -/

namespace TxHeap.CommandLine

inductive Value
  | switch (b : Bool)
  | int (n : Int)
  | uint (n : UInt64)
  | text (s : String)
deriving DecidableEq, Repr

structure Flag where
  name : String
  usage : String
  /-- The value if the flag is not given. Its kind is the kind of the flag. -/
  fallback : Value

inductive Refusal
  | help
  | badSyntax (arg : String)
  | unknown (name : String)
  | noValue (name : String)
  | badValue (value name : String) (e : Text.Numeral.Error)
  | badSwitch (value name : String)

def numberErrorText : Text.Numeral.Error → String
  | .malformed => "parse error"
  | .outOfRange => "value out of range"

namespace Refusal

def text : Refusal → String
  | help => ""
  | badSyntax arg => "bad flag syntax: " ++ arg
  | unknown name => "flag provided but not defined: -" ++ name
  | noValue name => "flag needs an argument: -" ++ name
  | badValue value name e =>
    "invalid value " ++ Text.quoted value ++ " for flag -" ++ name ++ ": " ++ numberErrorText e
  | badSwitch value name =>
    "invalid boolean value " ++ Text.quoted value ++ " for -" ++ name ++ ": parse error"

end Refusal

namespace Value

def kindName : Value → String
  | switch _ => ""
  | int _ => "int"
  | uint _ => "uint"
  | text _ => "string"

def defaultText : Value → String
  | switch b => if b then " (default true)" else ""
  | int n => if n = 0 then "" else s!" (default {n})"
  | uint n => if n = 0 then "" else s!" (default {n.toNat})"
  | text s => if s.isEmpty then "" else " (default " ++ Text.quoted s ++ ")"

def read (v : Value) (s : String) : Except Text.Numeral.Error Value :=
  match v with
  | switch _ =>
    if ["1", "t", "T", "true", "TRUE", "True"].contains s then .ok (switch true)
    else if ["0", "f", "F", "false", "FALSE", "False"].contains s then .ok (switch false)
    else .error .malformed
  | int _ => (Text.Numeral.signed Text.Numeral.unsigned s.toList).map int
  | uint _ => (Text.Numeral.unsigned s.toList).map fun n => uint (UInt64.ofNat n)
  | text _ => .ok (text s)

end Value

structure Written where
  name : String
  value : Option String

/-- The flag that an argument is: nothing if it is no flag, and the end of all flags apart. -/
inductive Argument
  | flag (w : Written)
  | other
  | endOfFlags
  | bad

/-- Splits a name from the value after `=`. The first character always belongs to the name. -/
def splitValue (cs : List Char) : Written :=
  match cs with
  | [] => { name := "", value := none }
  | c :: rest =>
    let name := String.ofList (c :: rest.takeWhile (· != '='))
    match rest.dropWhile (· != '=') with
    | [] => { name, value := none }
    | _ :: value => { name, value := some (String.ofList value) }

def classifyName (cs : List Char) : Argument :=
  match cs with
  | [] => .bad
  | c :: rest => if c = '-' ∨ c = '=' then .bad else .flag (splitValue (c :: rest))

def classify (arg : String) : Argument :=
  match arg.toList with
  | '-' :: '-' :: [] => .endOfFlags
  | '-' :: '-' :: rest => classifyName rest
  | '-' :: c :: rest => classifyName (c :: rest)
  | _ => .other

abbrev Given := List (String × Value)

def Flag.read (f : Flag) (s : String) : Except Refusal (String × Value) :=
  match f.fallback.read s with
  | .ok v => .ok (f.name, v)
  | .error e =>
    match f.fallback with
    | .switch _ => .error (.badSwitch s f.name)
    | _ => .error (.badValue s f.name e)

def Flag.alone? (f : Flag) : Option Value :=
  match f.fallback with
  | .switch _ => some (.switch true)
  | _ => none

def findFlag (flags : List Flag) (name : String) : Except Refusal Flag :=
  match flags.find? (·.name == name) with
  | some f => .ok f
  | none => .error (if name == "help" || name == "h" then .help else .unknown name)

/-- Reads flags from the front of the arguments. Answers those given and the other arguments. -/
def parseFlags (flags : List Flag) : List String → Given → Except Refusal (Given × List String)
  | [], given => .ok (given, [])
  | arg :: rest, given =>
    match classify arg with
    | .other => .ok (given, arg :: rest)
    | .endOfFlags => .ok (given, rest)
    | .bad => .error (.badSyntax arg)
    | .flag w => do
      let f ← findFlag flags w.name
      match w.value, f.alone? with
      | some s, _ => parseFlags flags rest ((← f.read s) :: given)
      | none, some v => parseFlags flags rest ((f.name, v) :: given)
      | none, none =>
        match rest with
        | s :: rest => parseFlags flags rest ((← f.read s) :: given)
        | [] => throw (.noValue f.name)

def valueOf (flags : List Flag) (given : Given) (name : String) : Value :=
  match given.lookup name with
  | some v => v
  | none => ((flags.find? (·.name == name)).map (·.fallback)).getD (.switch false)

def switchOf (flags : List Flag) (given : Given) (name : String) : Bool :=
  match valueOf flags given name with
  | .switch b => b
  | _ => false

def intOf (flags : List Flag) (given : Given) (name : String) : Int :=
  match valueOf flags given name with
  | .int n => n
  | _ => 0

def uintOf (flags : List Flag) (given : Given) (name : String) : UInt64 :=
  match valueOf flags given name with
  | .uint n => n
  | _ => 0

def textOf (flags : List Flag) (given : Given) (name : String) : String :=
  match valueOf flags given name with
  | .text s => s
  | _ => ""

def flagUsage (f : Flag) : String :=
  let kind := f.fallback.kindName
  let head := "  -" ++ f.name ++ (if kind.isEmpty then "" else " " ++ kind)
  let gap := if head.length ≤ 4 then "\t" else "\n    \t"
  head ++ gap ++ f.usage ++ f.fallback.defaultText ++ "\n"

def usages (flags : List Flag) : String :=
  String.join ((flags.mergeSort fun a b => decide (a.name ≤ b.name)).map flagUsage)

structure Output where
  exit : UInt8 := 0
  out : List UInt8 := []
  err : List UInt8 := []

namespace Output

/-- A failure that is told on the error output under the name of the program. -/
def failed (program message : String) (out : List UInt8 := []) : Output :=
  { exit := 1, out, err := Text.Utf8.encode (program ++ ": " ++ message ++ "\n") }

def refused (usage : String) : Refusal → Output
  | .help => { err := Text.Utf8.encode usage }
  | r => { exit := 2, err := Text.Utf8.encode (r.text ++ "\n" ++ usage) }

end Output

def padRight (width : Nat) (s : String) : String :=
  s ++ String.ofList (List.replicate (width - s.length) ' ')

end TxHeap.CommandLine
