import TxHeap.Version.Basic

/-! Constraints on versions: alternatives divided by `||`, each a list of comparisons that must all
hold. `x`, `X`, `*` or nothing stands for any number. -/

namespace TxHeap

namespace Version

inductive Operator
  | equal
  | notEqual
  | greater
  | less
  | atLeast
  | atMost
  | tilde
  | caret
deriving DecidableEq, Repr

namespace Operator

def spellings : List (String × Operator) :=
  [("=", equal), ("", equal), ("!=", notEqual), (">", greater), ("<", less), (">=", atLeast),
    ("=>", atLeast), ("<=", atMost), ("=<", atMost), ("~", tilde), ("~>", tilde), ("^", caret)]

end Operator

structure Comparison where
  operator : Operator
  version : Version
  anyMinor : Bool := false
  anyPatch : Bool := false
  isOpen : Bool := false
deriving DecidableEq, Repr

structure Constraint where
  alternatives : List (List Comparison)

namespace Constraint

inductive Error
  | improper (part : String)
  | unreadable
deriving DecidableEq, Repr

namespace Error

def text : Error → String
  | improper part => "improper constraint: " ++ part
  | unreadable => "constraint Parser Error"

end Error

def isBlank (c : Char) : Bool :=
  c == ' ' || c == '\t' || c == '\n' || c == '\r' || c == '\x0c'

def skipBlanks (cs : List Char) : List Char := cs.dropWhile isBlank

def isNumberOrWildcard (c : Char) : Bool :=
  Version.isDigit c || c == '|' || c == 'x' || c == 'X' || c == '*'

def scanVersion (cs : List Char) : Option (Written × List Char) :=
  Written.scan isNumberOrWildcard cs

def after? (head cs : List Char) : Option (List Char) :=
  if head.isPrefixOf cs then some (cs.drop head.length) else none

def scanComparison (cs : List Char) : Option (Operator × Written × List Char) :=
  Operator.spellings.findSome? fun (spelling, operator) => do
    let cs ← after? spelling.toList cs
    let (w, cs) ← scanVersion (skipBlanks cs)
    return (operator, w, cs)

/-- The comparisons after the first, each after blanks or a comma, at most `n`. -/
def moreComparisons : Nat → List Char → Option (List (Operator × Written))
  | 0, _ => none
  | n + 1, cs =>
    let next := fun (cs : List Char) => do
      let (operator, w, cs) ← scanComparison cs
      let rest ← moreComparisons n cs
      return (operator, w) :: rest
    match skipBlanks cs with
    | [] => some []
    | c :: rest =>
      if c = ',' then next (skipBlanks rest)
      else if (cs.head?).any isBlank then next (c :: rest)
      else none

def scanComparisons (cs : List Char) : Option (List (Operator × Written)) := do
  let (operator, w, cs) ← scanComparison (skipBlanks cs)
  let rest ← moreComparisons (cs.length + 1) cs
  return (operator, w) :: rest

def isWildcard (s : List Char) : Bool := s == ['x'] || s == ['X'] || s == ['*']

def leftOpen (s : Option (List Char)) : Bool :=
  match s with
  | none => true
  | some s => isWildcard s

def readComparison (operator : Operator) (w : Written) : Except Error Comparison :=
  let zero := some ['0']
  let read := fun (w : Written) (anyMinor anyPatch isOpen : Bool) =>
    match Version.ofWritten w with
    | .ok version => Except.ok { operator, version, anyMinor, anyPatch, isOpen : Comparison }
    | .error _ => .error Error.unreadable
  if isWildcard w.major then
    read { w with major := ['0'], minor := zero, patch := zero, build := [] } false false true
  else if leftOpen w.minor then
    read { w with minor := zero, patch := zero, build := [] } true false true
  else if leftOpen w.patch then read { w with patch := zero, build := [] } false true true
  else read w false false false

structure Range where
  text : List Char
  lo : List Char
  hi : List Char

def before (cs rest : List Char) : List Char := cs.take (cs.length - rest.length)

def blanks? (cs : List Char) : Option (List Char) :=
  if (cs.head?).any isBlank then some (skipBlanks cs) else none

def scanRange (cs : List Char) : Option (Range × List Char) := do
  let start := skipBlanks cs
  let (_, afterLo) ← scanVersion start
  let hyphen ← blanks? afterLo
  let startHi ← blanks? (← after? ['-'] hyphen)
  let (_, afterHi) ← scanVersion startHi
  let rest := skipBlanks afterHi
  return ({ text := before cs rest, lo := before start afterLo, hi := before startHi afterHi },
    rest)

def ranges : Nat → List Char → List Range
  | 0, _ => []
  | _, [] => []
  | n + 1, c :: cs =>
    match scanRange (c :: cs) with
    | some (r, rest) => r :: ranges n rest
    | none => ranges n cs

def replaceFirst (old new : List Char) : List Char → List Char
  | [] => []
  | c :: cs =>
    if old.isPrefixOf (c :: cs) then new ++ (c :: cs).drop old.length
    else c :: replaceFirst old new cs

def expandRanges (cs : List Char) : List Char :=
  (ranges (cs.length + 1) cs).foldl (fun cs r =>
    replaceFirst r.text (">= ".toList ++ r.lo ++ ", <= ".toList ++ r.hi ++ [' ']) cs) cs

def splitAlternatives (part : List Char) : List Char → List (List Char)
  | [] => [part.reverse]
  | '|' :: '|' :: cs => part.reverse :: splitAlternatives [] cs
  | c :: cs => splitAlternatives (c :: part) cs

def readAlternative (part : List Char) : Except Error (List Comparison) :=
  match scanComparisons part with
  | none => .error (.improper (String.ofList part))
  | some cs => cs.mapM fun (operator, w) => readComparison operator w

def parse (s : String) : Except Error Constraint := do
  let alternatives ← (splitAlternatives [] (expandRanges s.toList)).mapM readAlternative
  return { alternatives }

end Constraint

namespace Comparison

/-- Pre-releases are only allowed where the constraint itself names one. -/
def refusesPre (c : Comparison) (v : Version) : Bool := !v.pre.isEmpty && c.version.pre.isEmpty

def differs (c : Comparison) (v : Version) : Bool :=
  if c.isOpen && c.refusesPre v then false
  else if c.isOpen && c.version.major != v.major then true
  else if c.isOpen && !c.anyMinor && c.version.minor != v.minor then true
  else if c.isOpen && c.anyMinor then false
  else if c.isOpen && !c.anyPatch && c.version.patch != v.patch then true
  else if c.isOpen && c.anyPatch then Version.compareLabels v.pre c.version.pre != .eq
  else v.compare c.version != .eq

def isGreater (c : Comparison) (v : Version) : Bool :=
  if !c.isOpen then v.compare c.version == .gt
  else if v.major > c.version.major then true
  else if v.major < c.version.major then false
  else if c.anyMinor then false
  else if c.anyPatch then v.minor > c.version.minor
  else v.compare c.version == .gt

def isAtMost (c : Comparison) (v : Version) : Bool :=
  if !c.isOpen then v.compare c.version != .gt
  else if v.major > c.version.major then false
  else !(v.major == c.version.major && v.minor > c.version.minor && !c.anyMinor)

/-- Within the minor version, or the major one if the minor number is open. -/
def isNear (c : Comparison) (v : Version) : Bool :=
  if v.compare c.version == .lt then false
  else if c.version.major == 0 && c.version.minor == 0 && c.version.patch == 0 && !c.anyMinor &&
      !c.anyPatch then true
  else v.major == c.version.major && (v.minor == c.version.minor || c.anyMinor)

/-- No less, and with the same leftmost number that is not zero. -/
def isCompatible (c : Comparison) (v : Version) : Bool :=
  if v.compare c.version == .lt then false
  else if c.version.major > 0 || c.anyMinor then v.major == c.version.major
  else if v.major > 0 then false
  else if c.version.minor > 0 || c.anyPatch then v.minor == c.version.minor
  else if v.minor > 0 then false
  else v.patch == c.version.patch

def holds (c : Comparison) (v : Version) : Bool :=
  if c.operator == .notEqual then c.differs v
  else if c.refusesPre v then false
  else
    match c.operator with
    | .equal => if c.isOpen then c.isNear v else v.compare c.version == .eq
    | .notEqual => c.differs v
    | .greater => c.isGreater v
    | .less => v.compare c.version == .lt
    | .atLeast => v.compare c.version != .lt
    | .atMost => c.isAtMost v
    | .tilde => c.isNear v
    | .caret => c.isCompatible v

end Comparison

namespace Constraint

def allows (c : Constraint) (v : Version) : Bool :=
  c.alternatives.any fun cs => cs.all fun x => x.holds v

end Constraint

end Version

end TxHeap
