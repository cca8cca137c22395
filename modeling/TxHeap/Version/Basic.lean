import TxHeap.Text.Numeral
import TxHeap.Text.Quoted

/-! Semantic versions: three numbers, an optional pre-release and optional build metadata, which
does not count in comparisons. -/

namespace TxHeap

structure Version.Written where
  major : List Char
  minor : Option (List Char)
  patch : Option (List Char)
  pre : List (List Char)
  build : List (List Char)

structure Version where
  major : Nat
  minor : Nat
  patch : Nat
  pre : List String := []
  build : List String := []
deriving DecidableEq, Repr

namespace Version

inductive Error
  | invalid
  | segmentOutOfRange (digits : String)
  | leadingZero
deriving DecidableEq, Repr

namespace Error

def text : Error → String
  | invalid => "Invalid Semantic Version"
  | segmentOutOfRange digits =>
    "Error parsing version segment: strconv.ParseUint: parsing " ++ Text.quoted digits ++
      ": value out of range"
  | leadingZero => "Version segment starts with 0"

end Error

def isDigit (c : Char) : Bool := '0' ≤ c && c ≤ '9'

def isLabel (c : Char) : Bool := c.isAlphanum || c == '-'

namespace Written

def run? (ok : Char → Bool) (cs : List Char) : Option (List Char × List Char) :=
  match cs.takeWhile ok with
  | [] => none
  | taken => some (taken, cs.dropWhile ok)

def runAfter? (mark : Char) (ok : Char → Bool) (cs : List Char) :
    Option (List Char × List Char) :=
  match cs with
  | c :: rest => if c = mark then run? ok rest else none
  | [] => none

def moreLabels : Nat → List Char → List (List Char) × List Char
  | 0, cs => ([], cs)
  | n + 1, cs =>
    match runAfter? '.' isLabel cs with
    | none => ([], cs)
    | some (label, rest) =>
      let (labels, rest) := moreLabels n rest
      (label :: labels, rest)

def labels (mark : Char) (cs : List Char) : List (List Char) × List Char :=
  match runAfter? mark isLabel cs with
  | none => ([], cs)
  | some (label, rest) =>
    let (labels, rest) := moreLabels rest.length rest
    (label :: labels, rest)

def segment (ok : Char → Bool) (cs : List Char) : Option (List Char) × List Char :=
  match runAfter? '.' ok cs with
  | none => (none, cs)
  | some (s, rest) => (some s, rest)

def dropV (cs : List Char) : List Char :=
  match cs with
  | 'v' :: rest => rest
  | cs => cs

/-- The longest version at the front of `cs`, whose numbers are written with the characters that
`ok` allows, and what follows it. -/
def scan (ok : Char → Bool) (cs : List Char) : Option (Written × List Char) :=
  match run? ok (dropV cs) with
  | none => none
  | some (major, cs) =>
    let (minor, cs) := segment ok cs
    let (patch, cs) := segment ok cs
    let (pre, cs) := labels '-' cs
    let (build, cs) := labels '+' cs
    some ({ major, minor, patch, pre, build }, cs)

end Written

def readSegment (digits : List Char) : Except Error Nat :=
  match Text.Numeral.decimal digits with
  | .ok n => .ok n
  | .error .malformed => .error .invalid
  | .error .outOfRange => .error (.segmentOutOfRange (String.ofList digits))

def hasLeadingZero (label : List Char) : Bool :=
  label.length > 1 && label.all isDigit && label.head? == some '0'

def ofWritten (w : Written) : Except Error Version := do
  let major ← readSegment w.major
  let minor ← (w.minor.map readSegment).getD (.ok 0)
  let patch ← (w.patch.map readSegment).getD (.ok 0)
  if w.pre.any hasLeadingZero then throw .leadingZero
  return { major, minor, patch, pre := w.pre.map String.ofList
           build := w.build.map String.ofList }

def parse (s : String) : Except Error Version :=
  match Written.scan isDigit s.toList with
  | some (w, []) => ofWritten w
  | _ => .error .invalid

def labelText (mark : String) (labels : List String) : String :=
  if labels.isEmpty then "" else mark ++ String.intercalate "." labels

def toText (v : Version) : String :=
  s!"{v.major}.{v.minor}.{v.patch}" ++ labelText "-" v.pre ++ labelText "+" v.build

/-- Numbers come before other labels. -/
def compareLabel (a b : String) : Ordering :=
  if a = b then .eq
  else
    match Text.Numeral.decimal a.toList, Text.Numeral.decimal b.toList with
    | .ok m, .ok n => if m > n then .gt else .lt
    | .ok _, .error _ => .lt
    | .error _, .ok _ => .gt
    | .error _, .error _ => if a > b then .gt else .lt

/-- Label by label; of two that agree as far as both go the shorter is less. -/
def compareLabels : List String → List String → Ordering
  | [], [] => .eq
  | [], _ :: _ => .lt
  | _ :: _, [] => .gt
  | a :: as, b :: bs => (compareLabel a b).then (compareLabels as bs)

/-- A version without a pre-release comes after all its pre-releases. -/
def comparePre (v w : Version) : Ordering :=
  match v.pre, w.pre with
  | [], [] => .eq
  | [], _ :: _ => .gt
  | _ :: _, [] => .lt
  | a, b => compareLabels a b

def compare (v w : Version) : Ordering :=
  (Ord.compare v.major w.major).then <| (Ord.compare v.minor w.minor).then <|
    (Ord.compare v.patch w.patch).then (comparePre v w)

end Version

end TxHeap
