import Mathlib.Data.List.Chain
import Mathlib.Data.List.Induction
import TxHeap.CommandLine.Report
import TxHeap.Proofs.Json.Scan

/-! Reading a log at once and following it, also while it grows or is started anew, find the same
records, up to the first line that is white space only and not empty. -/

namespace TxHeap.Event
open Text (isBlank)

variable {lines : List (List UInt8)} {size : Nat} {line : List UInt8}
open Text.Lines (dropReturn join newline carriageReturn)

/-- The records of some lines up to the first that holds none, and why it does not. Some lines are
passed over. -/
def recordsOf (passes : List UInt8 → Bool) (parse : List UInt8 → Except RecordError Record) :
    List (List UInt8) → List Record × Option RecordError
  | [] => ([], none)
  | line :: rest =>
    if passes line then recordsOf passes parse rest
    else
      match parse line with
      | .ok r => (r :: (recordsOf passes parse rest).1, (recordsOf passes parse rest).2)
      | .error e => ([], some e)

section Reader

def Reader.passes (line : List UInt8) : Bool := (dropReturn line).isEmpty

def Reader.parse (line : List UInt8) : Except RecordError Record := Record.parse (dropReturn line)

theorem Reader.readFrom_eq (short : ∀ l ∈ lines, l.length < maxLine) {n : Nat}
    (enough : lines.length < n) (line : Nat) (read : List Record) :
    (readFrom n ⟨lines, line⟩ read).1 = read.reverse ++ (recordsOf passes parse lines).1 ∧
      (readFrom n ⟨lines, line⟩ read).2.isSome = (recordsOf passes parse lines).2.isSome := by
  induction lines generalizing n line read with
  | nil =>
    cases n with
    | zero => cases enough
    | succ => simp [readFrom, next, nextFrom, recordsOf]
  | cons l rest ih =>
    have ih := @ih fun l' hl' => short l' (.tail _ hl')
    obtain ⟨n, rfl⟩ := Nat.exists_eq_add_one.2 ((Nat.zero_le _).trans_lt enough)
    have fits := Nat.not_le.2 (short l (.head _))
    by_cases empty : (dropReturn l).isEmpty
    · have skip : readFrom (n + 1) ⟨l :: rest, line⟩ read = readFrom (n + 1)
          ⟨rest, line + 1⟩ read := by
        simp only [readFrom, next, nextFrom, if_neg fits, empty, if_true]
      rw [skip, recordsOf, if_pos (show passes l = true from empty)]
      exact ih (Nat.lt_of_succ_lt enough) (line + 1) read
    · rw [recordsOf, if_neg (show ¬ passes l = true from empty)]
      simp only [readFrom, next, nextFrom, if_neg fits, if_neg empty, parse]
      cases Record.parse (dropReturn l) with
      | error => simp
      | ok r => simpa using ih (Nat.lt_of_succ_lt_succ enough) (line + 1) (r :: read)

theorem Reader.readAll_join (h : ∀ l ∈ lines, newline ∉ l ∧ l.length < maxLine) :
    (readAll (join lines)).1 = (recordsOf passes parse lines).1 ∧
      (readAll (join lines)).2.isSome = (recordsOf passes parse lines).2.isSome := by
  rw [readAll, ofBytes, Text.Lines.all_join fun l hl => (h l hl).1]
  simpa using readFrom_eq (fun l hl => (h l hl).2) (Nat.lt_succ_self _) 0 []

end Reader

section Tail
variable {σ : Type} (give : σ → Record → Except String σ)

def giveAll : σ → List Record → σ × Option String
  | s, [] => (s, none)
  | s, r :: rest =>
    match give s r with
    | .ok s => giveAll s rest
    | .error message => (s, some message)

def handOver (s : σ) (found : List Record × Option RecordError) : σ × Option TailError :=
  ((giveAll give s found.1).1,
    match (giveAll give s found.1).2 with
    | some message => some (.refused message)
    | none => found.2.map .badRecord)

namespace Tail

theorem deliver_eq (s : σ) (lines : List (List UInt8)) :
    ((deliver give s lines).1, (deliver give s lines).2.2) =
    handOver give s (recordsOf isBlank Record.parse lines) := by
  induction lines generalizing s with
  | nil => rfl
  | cons line rest ih =>
    by_cases blank : isBlank line
    · rw [deliver, recordsOf, if_pos blank, if_pos blank]
      exact ih s
    · rw [deliver, recordsOf, if_neg blank, if_neg blank]
      cases Record.parse line with
      | error => rfl
      | ok r =>
        simp only [handOver, giveAll]
        cases give s r with
        | error => rfl
        | ok s' => exact ih s'

theorem deliver_append (s : σ) (lines more : List (List UInt8)) : deliver give s (lines ++ more) =
      if (deliver give s lines).2.2.isSome then
        ((deliver give s lines).1, (deliver give s lines).2.1 ++ more, (deliver give s lines).2.2)
      else deliver give (deliver give s lines).1 more := by
  induction lines generalizing s with
  | nil => simp [deliver]
  | cons line rest ih =>
    by_cases blank : isBlank line
    · simp only [List.cons_append, deliver, if_pos blank]
      exact ih s
    · simp only [List.cons_append, deliver, if_neg blank]
      cases Record.parse line with
      | error => simp
      | ok r =>
        simp only
        cases give s r with
        | error => simp
        | ok s' => exact ih s'

theorem deliver_left (s : σ) (lines : List (List UInt8))
    (fine : (deliver give s lines).2.2 = none) :
    (deliver give s lines).2.1 = [] := by
  induction lines generalizing s with
  | nil => rfl
  | cons line rest ih =>
    by_cases blank : isBlank line
    · rw [deliver, if_pos blank] at fine ⊢
      exact ih s fine
    · rw [deliver, if_neg blank] at fine ⊢
      cases parsed : Record.parse line with
      | error => simp [parsed] at fine
      | ok r =>
        simp only [parsed] at fine ⊢
        cases given : give s r with
        | error => simp [given] at fine
        | ok s' =>
          simp only [given] at fine ⊢
          exact ih s' fine

theorem takeAll_eq (chunks : List (List UInt8)) (t : Tail) (s : σ)
    (unfinished : newline ∉ t.pending) :
    let all := t.pending ++ chunks.flatten
    let d := deliver give s (Text.Lines.split all).1
    (takeAll give t s chunks).state = d.1 ∧ (takeAll give t s chunks).error = d.2.2 ∧
      (d.2.2 = none → takeAll give t s chunks =
        { state := d.1
          tail := { offset := t.offset + chunks.flatten.length
                    pending := (Text.Lines.split all).2 } }) := by
  induction chunks generalizing t s with
  | nil =>
    simp only [List.flatten_nil, List.append_nil, Text.Lines.split_unfinished unfinished]
    exact ⟨rfl, rfl, fun _ => rfl⟩
  | cons chunk rest ih =>
    simp only [List.flatten_cons, ← List.append_assoc, List.length_append, ← Nat.add_assoc]
    rw [Text.Lines.split_append, deliver_append]
    have taken : t.take give s chunk =
        { state := (deliver give s (Text.Lines.split (t.pending ++ chunk)).1).1
          tail :=
            { offset := t.offset + chunk.length
              pending := join (deliver give s (Text.Lines.split (t.pending ++ chunk)).1).2.1 ++
                (Text.Lines.split (t.pending ++ chunk)).2 }
          error := (deliver give s (Text.Lines.split (t.pending ++ chunk)).1).2.2 } := rfl
    rw [takeAll, taken]
    cases failed : (deliver give s (Text.Lines.split (t.pending ++ chunk)).1).2.2 with
    | some => simp
    | none =>
      have none := deliver_left give s _ failed
      simp only [none, Option.isSome_none, Bool.false_eq_true, if_false]
      exact ih _ _ (Text.Lines.not_mem_unfinished _)

theorem flatten_pieces (hsize : 0 < size) (n : Nat) (bytes : List UInt8)
    (enough : bytes.length ≤ n) :
    (pieces size n bytes).flatten = bytes := by
  induction n generalizing bytes with
  | zero => rw [List.length_eq_zero_iff.1 (Nat.le_zero.1 enough)]; rfl
  | succ n ih =>
    cases bytes with
    | nil => rfl
    | cons b rest =>
      have shorter : ((b :: rest).drop size).length ≤ n := by
        rw [List.length_drop, List.length_cons] at *
        omega
      rw [pieces, if_neg (by simp), List.flatten_cons, ih _ shorter, List.take_append_drop]

theorem drain_join (hsize : 0 < size) (s : σ) (h : ∀ l ∈ lines, newline ∉ l) :
    ((({} : Tail).drain give size s (join lines)).state,
      (({} : Tail).drain give size s (join lines)).error) =
      handOver give s (recordsOf isBlank Record.parse lines) := by
  have all : (chunks size (join lines)).flatten = join lines := by
    simp [chunks, flatten_pieces hsize]
  have start : (({} : Tail).drain give size s (join lines)) = takeAll give {} s
      (chunks size (join lines)) := rfl
  obtain ⟨state, error, -⟩ := takeAll_eq give (chunks size (join lines)) {} s (by simp)
  rw [start, state, error, all, List.nil_append, Text.Lines.split_join h, deliver_eq]

end Tail
end Tail

section Lines

def isHollow (line : List UInt8) : Bool := isBlank line && !Reader.passes line

theorem dropReturn_cases (line : List UInt8) :
    dropReturn line = line ∨ line = dropReturn line ++ [carriageReturn] := by
  unfold dropReturn
  split
  · next last =>
    obtain ⟨front, rfl⟩ := List.getLast?_eq_some_iff.1 last
    exact .inr (by simp)
  · exact .inl rfl

theorem parse_toOption (line : List UInt8) :
    (Record.parse line).toOption = (Json.members line).toOption.bind fun fields =>
    (((Record.field? fields "ev").bind Json.string?).bind fun event =>
      match Record.field? fields "seg" with
      | none => some { event, segment := -1, fields }
      | some raw =>
        (Json.int raw (-1)).toOption.map fun segment => { event, segment, fields }) := by
  rw [Record.parse]
  cases Json.members line with
  | error => rfl
  | ok fields =>
    simp only [Except.toOption, Option.bind_some]
    cases (Record.field? fields "ev").bind Json.string? with
    | none => rfl
    | some =>
      cases Record.field? fields "seg" with
      | none => rfl
      | some raw =>
        simp only
        cases Json.int raw (-1) <;> rfl

theorem Reader.parse_toOption (line : List UInt8) :
    (Reader.parse line).toOption = (Record.parse line).toOption := by
  obtain same | ended := dropReturn_cases line
  · rw [parse, same]
  · rw [Reader.parse, Event.parse_toOption, Event.parse_toOption,
      ← Json.members_append_space (b := carriageReturn) rfl, ← ended]

theorem isBlank_of_passes (h : Reader.passes line = true) : isBlank line = true := by
  have empty := List.isEmpty_iff.1 h
  obtain same | ended := dropReturn_cases line
  · rw [← same, empty]
    simp [isBlank]
  · rw [ended, empty, isBlank, List.nil_append, Text.Utf8.decode_cons,
      Text.Utf8.first_ascii (by decide), Text.Utf8.decode_nil]
    rfl

theorem parse_blank (h : isBlank line = true) : (Record.parse line).toOption = none := by
  obtain ⟨e, members⟩ := Json.members_blank h
  rw [parse_toOption, members]
  rfl

theorem recordsOf_reader (lines : List (List UInt8)) :
    (recordsOf Reader.passes Reader.parse lines).1 =
        (recordsOf isBlank Record.parse (lines.takeWhile fun l => !isHollow l)).1 ∧
      ((recordsOf Reader.passes Reader.parse lines).2.isSome ↔
        (recordsOf isBlank Record.parse (lines.takeWhile fun l => !isHollow l)).2.isSome ∨
        ∃ l ∈ lines, isHollow l) := by
  induction lines with
  | nil => simp [recordsOf]
  | cons line rest ih =>
    have same := Reader.parse_toOption line
    by_cases hollow : isHollow line = true
    · obtain ⟨blank, full⟩ := by simpa [isHollow] using hollow
      rw [parse_blank blank] at same
      rw [List.takeWhile_cons_of_neg (by simp [hollow])]
      simp only [recordsOf, full, Bool.false_eq_true, if_false]
      cases parsed : Reader.parse line with
      | ok => rw [parsed] at same; cases same
      | error => exact ⟨rfl, by simp [hollow]⟩
    · rw [List.takeWhile_cons_of_pos (by simp [hollow]), recordsOf, recordsOf]
      have more : (∃ l ∈ line :: rest, isHollow l = true) ↔ ∃ l ∈ rest, isHollow l = true := by
        simp [hollow]
      rw [more]
      by_cases passes : Reader.passes line = true
      · rwa [if_pos passes, if_pos (isBlank_of_passes passes)]
      · have solid : ¬ isBlank line = true :=
          fun blank => hollow (by simp [isHollow, blank, passes])
        rw [if_neg passes, if_neg solid]
        cases parsed : Record.parse line with
        | error =>
          cases parsed' : Reader.parse line with
          | error => simp
          | ok => rw [parsed, parsed'] at same; cases same
        | ok r =>
          cases parsed' : Reader.parse line with
          | error => rw [parsed, parsed'] at same; cases same
          | ok r' =>
            obtain rfl : r' = r := Option.some.inj (by rw [parsed, parsed'] at same; exact same)
            exact ⟨congrArg (r' :: ·) ih.1, ih.2⟩

theorem takeWhile_solid (h : ∀ l ∈ lines, isHollow l = false) :
    (lines.takeWhile fun l => !isHollow l) = lines := by
  induction lines with
  | nil => rfl
  | cons line rest ih =>
    rw [List.takeWhile_cons_of_pos (by simp [h line List.mem_cons_self]),
      ih fun l hl => h l (List.mem_cons_of_mem _ hl)]

theorem recordsOf_solid (lines : List (List UInt8)) :
    recordsOf isBlank Record.parse (lines.filter fun l => !isHollow l) =
    recordsOf isBlank Record.parse lines := by
  induction lines with
  | nil => rfl
  | cons line rest ih =>
    by_cases hollow : isHollow line = true
    · have blank := (Bool.and_eq_true_iff.1 hollow).1
      rw [List.filter_cons_of_neg (by simp [hollow]), ih, recordsOf, if_pos blank]
    · rw [List.filter_cons_of_pos (by simp [hollow]), recordsOf, recordsOf, ih]

end Lines

section Collecting

def collect (read : List Record) (r : Record) : Except String (List Record) := .ok (read ++ [r])

theorem giveAll_collect (read records : List Record) :
    giveAll collect read records = (read ++ records, none) := by
  induction records generalizing read with
  | nil => simp [giveAll]
  | cons r rest ih => simp [giveAll, collect, ih]

theorem handOver_collect (found : List Record × Option RecordError) :
    handOver collect [] found = (found.1, found.2.map .badRecord) := by
  simp [handOver, giveAll_collect]

end Collecting
end TxHeap.Event

namespace TxHeap.CommandLine.Report
open Event

theorem addAll_eq (q : Request) (s : Summary) (records : List Record) :
    addAll q s records = giveAll (Summary.add q) s records := by
  induction records generalizing s with
  | nil => rfl
  | cons r rest ih =>
    rw [addAll, giveAll]
    cases s.add q r with
    | ok s' => exact ih s'
    | error => rfl

theorem read_prints (q : Request) (file : List UInt8) {found : List Record × Option RecordError}
    (records : (Reader.readAll file).1 = found.1)
    (failed : (Reader.readAll file).2.isSome = found.2.isSome) :
    let handed := handOver (Summary.add q) {} found
    (read q file).out = (followed ⟨handed.1, {}, handed.2⟩).out ∧
      (read q file).exit = (followed ⟨handed.1, {}, handed.2⟩).exit := by
  simp only [read, handOver, ← addAll_eq, ← records]
  cases (addAll q {} (Reader.readAll file).1) with
  | mk s refused =>
    cases refused with
    | some => exact ⟨rfl, rfl⟩
    | none =>
      cases first : (Reader.readAll file).2 <;> cases second :
        found.2 <;> rw [first, second] at failed <;>
        first | exact ⟨rfl, rfl⟩ | cases failed

end TxHeap.CommandLine.Report

namespace TxHeap.Event
open Text.Lines (join newline)
open CommandLine

/-- Reading a log at once and following it find the same records, and both or none of them fail, if
no line is hollow: white space only, and more than a carriage return. The command then prints the
same. Otherwise following passes over such lines, and reading fails at the first of them. -/
theorem read_as_followed (lines : List (List UInt8)) (size : Nat) (hsize : 0 < size)
    (h : ∀ l ∈ lines, newline ∉ l ∧ l.length < Reader.maxLine) :
    let follow := fun lines => ({} : Tail).drain collect size [] (join lines)
    let read := Reader.readAll (join lines)
    ((∀ l ∈ lines, isHollow l = false) →
      read.1 = (follow lines).state ∧ (read.2.isSome ↔ (follow lines).error.isSome) ∧
        ∀ q : Report.Request,
          (Report.read q (join lines)).out =
            (Report.followed (Report.followOn q Report.beginFollowing (join lines))).out ∧
          (Report.read q (join lines)).exit =
            (Report.followed (Report.followOn q Report.beginFollowing (join lines))).exit) ∧
    (follow lines).state = (follow (lines.filter fun l => !isHollow l)).state ∧
    ((follow lines).error.isSome ↔ (follow (lines.filter fun l => !isHollow l)).error.isSome) ∧
    read.1 = (follow (lines.takeWhile fun l => !isHollow l)).state ∧
    (read.2.isSome ↔ (follow (lines.takeWhile fun l => !isHollow l)).error.isSome ∨
      ∃ l ∈ lines, isHollow l) := by
  intro follow read
  have clean : ∀ l ∈ lines, newline ∉ l := fun l hl => (h l hl).1
  have followed : ∀ ls : List (List UInt8), (∀ l ∈ ls, l ∈ lines) →
      (follow ls).state = (recordsOf Text.isBlank Record.parse ls).1 ∧
        ((follow ls).error.isSome ↔ (recordsOf Text.isBlank Record.parse ls).2.isSome) := by
    intro ls sub
    have drained := Tail.drain_join collect hsize [] fun l hl => clean l (sub l hl)
    rw [handOver_collect, Prod.mk.injEq] at drained
    exact ⟨drained.1, by rw [drained.2, Option.isSome_map]⟩
  obtain ⟨all, allFails⟩ := followed lines fun _ => id
  obtain ⟨solid, solidFails⟩ :=
    followed (lines.filter fun l => !isHollow l) fun l hl => (List.mem_filter.1 hl).1
  obtain ⟨before, beforeFails⟩ := followed (lines.takeWhile fun l => !isHollow l) fun l hl =>
    List.Sublist.subset ( List.takeWhile_prefix _).sublist hl
  rw [recordsOf_solid] at solid solidFails
  obtain ⟨records, fails⟩ := Reader.readAll_join h
  obtain ⟨records', fails'⟩ := recordsOf_reader lines
  refine ⟨fun none => ?_, all.trans solid.symm, allFails.trans solidFails.symm,
    (records.trans records').trans before.symm, ?_⟩
  · have same := takeWhile_solid none
    have noHollow : ¬ ∃ l ∈ lines, isHollow l = true :=
      fun ⟨l, hl, hollow⟩ => by simp [none l hl] at hollow
    rw [same] at records' fails'
    have alike : read.2.isSome = (recordsOf Text.isBlank Record.parse lines).2.isSome := by
      rw [fails, Bool.eq_iff_iff, fails', or_iff_left noHollow]
    refine ⟨(records.trans records').trans all.symm, by rw [alike, allFails], fun q => ?_⟩
    have prints := Report.read_prints q (join lines) (records.trans records') alike
    rwa [← Tail.drain_join (Report.Summary.add q) (show 0 < Tail.readSize by decide) {} clean]
      at prints
  · rw [fails, fails', beforeFails]

/-- A line of a single space in front of a record: reading finds nothing and fails. -/
theorem read_as_followed_spaced :
    let lines : List (List UInt8) :=
  [[0x20], [0x7b, 0x22, 0x65, 0x76, 0x22, 0x3a, 0x22, 0x61, 0x22, 0x7d]]
    (∀ l ∈ lines, newline ∉ l ∧ l.length < Reader.maxLine) ∧
      (Reader.readAll (join lines)).1 = [] ∧ (Reader.readAll (join lines)).2.isSome = true := by
  intro lines
  have short : ∀ l ∈ lines, newline ∉ l ∧ l.length < Reader.maxLine := by decide
  obtain ⟨-, -, -, before, fails⟩ := read_as_followed lines 4 (by decide) short
  have hollow : isHollow [0x20] = true := by
    decide +kernel
  have none : (lines.takeWhile fun l => !isHollow l) = [] :=
    List.takeWhile_cons_of_neg (by simp [hollow])
  rw [none] at before
  exact ⟨short, before, fails.2 (.inr ⟨[0x20], .head _, hollow⟩)⟩

end TxHeap.Event

namespace TxHeap.Event
open Text (isBlank)

variable {file : List UInt8}
open Text.Lines (split newline)

def WellFormed (file : List UInt8) : Prop :=
  ∀ line ∈ (split file).1, isBlank line = true ∨ ∃ r, Record.parse line = .ok r

def recordsIn (file : List UInt8) : List Record := (recordsOf isBlank Record.parse (split file).1).1

/-- One file comes after another: it has been appended to, or is a new one that is shorter. -/
def Succeeds (a b : List UInt8) : Prop := a <+: b ∨ b.length < a.length

namespace Tail
variable {σ : Type} (f : σ → Record → σ) {size : Nat} (hsize : 0 < size)

def accept (s : σ) (r : Record) : Except String σ := .ok (f s r)

theorem deliver_accept (s : σ) {lines : List (List UInt8)}
    (sound : ∀ line ∈ lines, isBlank line = true ∨ ∃ r, Record.parse line = .ok r) :
    deliver (accept f) s lines =
    ((recordsOf isBlank Record.parse lines).1.foldl f s, [], none) := by
  induction lines generalizing s with
  | nil => rfl
  | cons line rest ih =>
    obtain ⟨here, later⟩ := List.forall_mem_cons.1 sound
    by_cases blank : isBlank line = true
    · rw [deliver, recordsOf, if_pos blank, if_pos blank, ih s later]
    · obtain ⟨r, parsed⟩ := here.resolve_left blank
      rw [deliver, recordsOf, if_neg blank, if_neg blank, parsed]
      exact ih (f s r) later

def caughtUp (s : σ) (file : List UInt8) : Drained σ :=
  { state := (recordsIn file).foldl f s
    tail := { offset := file.length, pending := (split file).2 } }

include hsize

theorem drain_grown (s : σ) {a b : List UInt8} (grown : a <+: b) (sound : WellFormed b) :
    (caughtUp f s a).tail.drain (accept f) size (caughtUp f s a).state b = caughtUp f s b := by
  obtain ⟨more, rfl⟩ := grown
  have delivered := deliver_accept f s sound
  have whole := Text.Lines.split_append a more
  rw [WellFormed, whole, List.forall_mem_append] at sound
  rw [whole, deliver_append, deliver_accept f s sound.1, ← whole] at delivered
  have all : (chunks size more).flatten = more := by simp [chunks, flatten_pieces hsize]
  have followed : (caughtUp f s a).tail.follow (a ++ more) = (caughtUp f s a).tail :=
    if_neg (by simp [caughtUp])
  obtain ⟨-, -, taken⟩ :=
    takeAll_eq (accept f) (chunks size more) (caughtUp f s a).tail (caughtUp f s a).state
      (Text.Lines.not_mem_unfinished a)
  have here : deliver (accept f) (caughtUp f s a).state
      (split ((caughtUp f s a).tail.pending ++ more)).1 =
      ((recordsIn (a ++ more)).foldl f s, [], none) := delivered
  rw [all, here] at taken
  rw [drain]
  simp only [followed]
  rw [show (a ++ more).drop (caughtUp f s a).tail.offset = more from List.drop_left, taken rfl]
  simp only [caughtUp, whole, List.length_append]

theorem drain_first (s : σ) (sound : WellFormed file) :
    ({} : Tail).drain (accept f) size s file = caughtUp f s file :=
  drain_grown f hsize s List.nil_prefix sound

theorem drain_replaced (t : Tail) (s : σ) (shorter : file.length < t.offset)
    (sound : WellFormed file) :
    t.drain (accept f) size s file = caughtUp f s file := by
  rw [← drain_first f hsize s sound, drain, follow, if_pos shorter]
  rfl

omit hsize

theorem drainAll_append {give : σ → Record → Except String σ} {t : Tail} {s : σ}
    {files : List (List UInt8)}
    (fine : (drainAll give size t s files).error = none) (file : List UInt8) :
    drainAll give size t s (files ++ [file]) =
      (drainAll give size t s files).tail.drain give size
      (drainAll give size t s files).state file := by
  induction files generalizing t s with
  | nil =>
    rw [List.nil_append, drainAll, drainAll]
    split
    · rfl
    · next none => rw [drainAll, ← Option.not_isSome_iff_eq_none.1 none]
  | cons first rest ih =>
    rw [drainAll] at fine
    rw [List.cons_append, drainAll, drainAll]
    split at fine
    · next failed => simp [fine] at failed
    · next none =>
      rw [if_neg none, if_neg none]
      exact ih fine

end Tail

open Tail in
/-- Following does not depend on how a log grows. Between drains it is appended to, or replaced by a
shorter one. Since then the records of its complete lines have been handed over, each once and in
order, as by a single drain of the log as it is now, and its unfinished last line is held back. -/
theorem drained_as_at_once {σ : Type} (f : σ → Record → σ) (size : Nat) (hsize : 0 < size) (s : σ)
    (files : List (List UInt8)) (file : List UInt8) (grows : (files ++ [file]).IsChain Succeeds)
    (sound : ∀ b ∈ files ++ [file], WellFormed b) :
    let drains := drainAll (accept f) size {} s
    ∃ old since, files = old ++ since ∧ (since ++ [file]).IsChain (· <+: ·) ∧
      (∀ a ∈ old.getLast?, ∀ b ∈ (since ++ [file]).head?, b.length < a.length) ∧
      drains (files ++ [file]) = ({} : Tail).drain (accept f) size (drains old).state file ∧
      drains (files ++ [file]) =
        { state := (recordsIn file).foldl f (drains old).state
          tail := { offset := file.length, pending := (split file).2 } } := by
  intro drains
  have onward : ∀ files file, (drains files).error = none →
      drains (files ++ [file]) = (drains files).tail.drain (accept f) size
        (drains files).state file :=
    fun _ file fine => drainAll_append fine file
  -- The history is taken apart from its end: the last drain catches up or begins anew.
  induction files using List.reverseRecOn generalizing file with
  | nil =>
    have first := onward [] file rfl
    exact ⟨[], [], rfl, .singleton _, by simp, first,
      first.trans (drain_first f hsize s (sound file (by simp)))⟩
  | append_singleton before a ih =>
    obtain ⟨earlier, -, last⟩ := List.isChain_append.1 grows
    obtain ⟨old, since, rfl, chain, replaced, -, caught⟩ :=
      ih a earlier fun b hb => sound b (List.mem_append_left _ hb)
    have next := onward (old ++ since ++ [a]) file (by rw [caught])
    have once := fun s => drain_first f hsize s (sound file (by simp))
    obtain grown | shorter := last a (by simp) file (by simp)
    · rw [caught] at next
      have now := next.trans (drain_grown f hsize _ grown (sound file (by simp)))
      refine ⟨old, since ++ [a], by simp, ?_, by simpa using replaced, now.trans (once _).symm, now⟩
      exact List.isChain_append.2 ⟨chain, .singleton _, by simpa using grown⟩
    · have now := next.trans (drain_replaced f hsize _ _ (by rwa [caught]) (sound file (by simp)))
      exact ⟨old ++ since ++ [a], [], by simp, .singleton _, by simpa using shorter,
        now.trans (once _).symm, now⟩

/-- A log that is cut inside a line, goes on, and is then replaced by a shorter one. -/
theorem drained_as_at_once_replaced :
    let a : List UInt8 := [0x7b, 0x22, 0x65, 0x76, 0x22, 0x3a, 0x22, 0x61, 0x22, 0x7d, newline]
    let files := [a ++ a.take 5, a ++ a]
    let file := a ++ a.take 3
    (files ++ [file]).IsChain Succeeds ∧ (∀ f ∈ files ++ [file], WellFormed f) ∧
      (Tail.drainAll (Tail.accept fun names r => names ++ [r.event]) 4 {} []
        (files ++ [file])).tail =
        { offset := 14, pending := [0x7b, 0x22, 0x65] } := by
  intro a files file
  have grows : (files ++ [file]).IsChain Succeeds := by
    refine .cons_cons (.inl ?_) (.cons_cons (.inr ?_) (.singleton _)) <;> decide
  have sound : ∀ f ∈ files ++ [file], WellFormed f := by
    have parsed : ∀ f ∈ files ++ [file], ∀ line ∈ (split f).1, (Record.parse line).toBool =
        true := by decide +kernel
    intro f hf line hl
    have here := parsed f hf line hl
    cases found : Record.parse line with
    | ok r => exact .inr ⟨r, rfl⟩
    | error => simp [found, Except.toBool] at here
  obtain ⟨_, _, -, -, -, -, caught⟩ :=
    drained_as_at_once (fun names r => names ++ [r.event]) 4 (by decide) [] files file grows sound
  exact ⟨grows, sound, congrArg Drained.tail caught⟩

end TxHeap.Event
