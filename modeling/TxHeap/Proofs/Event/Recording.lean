import Mathlib.Algebra.Ring.Nat
import TxHeap.Event.Log
import TxHeap.Proofs.Event.Following
import TxHeap.Proofs.Json.Writing

/-! A log is read back as it was written: the first record is a header that is accepted, and the
others are those asked for, in order, each with its event, segment and fields. No conflict is lost.
-/

namespace TxHeap.Event

variable {v : Value} {raw : Json.Raw} {e : Entry} {name : String} {l : Log} {r : Request}
  {requests : List Request} {entries : List Entry}
open Text.Utf8 (encode)
open Text.Lines (join newline carriageReturn dropReturn)

/-- How a value may be written. Numbers of 64 bits may be strings; of a duration only that it is one
is known. -/
inductive Value.Writes : Value → Json.Raw → Prop
  | text {s : String} {raw : Json.Raw} (h : Json.Literal s raw) : Writes (.text s) raw
  | int (n : Int) : Writes (.int n) (encode (toString n))
  | uint (n : UInt64) : Writes (.uint n) (encode (toString n.toNat))
  | quoted {n : UInt64} {raw : Json.Raw} (h : Json.Literal (toString n.toNat) raw) :
      Writes (.uint n) raw
  | bool (b : Bool) : Writes (.bool b) (encode (if b then "true" else "false"))
  | nanos {n : Int} {s : String} {raw : Json.Raw} (h : Json.Literal s raw) : Writes (.nanos n) raw

theorem Value.Writes.scalar (h : v.Writes raw) : Json.Scalar raw := by
  cases h with
  | text h | quoted h | nanos h => exact h.scalar
  | int n => exact Json.scalar_int n
  | uint n => exact Json.scalar_int n.toNat
  | bool b => exact Json.scalar_bool b

theorem Value.writes_toText (v : Value) : v.Writes (encode v.toText) := by
  cases v with
  | text s => exact .text (Json.literal_quote s)
  | int n => exact .int n
  | uint n => exact .quoted (Json.literal_quote _)
  | bool b => exact .bool b
  | nanos n => exact .nanos (Json.literal_quote _)

theorem Value.Writes.decimal {n : UInt64} (h : (Value.uint n).Writes raw) :
    Text.Numeral.decimal (((Json.string? raw).map String.toList).getD (Text.Utf8.decode raw)) =
    .ok n.toNat := by
  have digits : (toString n.toNat).toList = Nat.toDigits 10 n.toNat := by
    rw [Nat.toString_eq_repr, Nat.toList_repr]
  have read : Text.Numeral.decimal (toString n.toNat).toList = .ok n.toNat := by
    rw [digits]
    exact Text.Numeral.decimal_toDigits n.toNat_lt
  cases h with
  | uint =>
    have kind : Json.Raw.kind (encode (toString n.toNat)) = .number := Json.kind_int n.toNat
    rwa [Json.string?, kind, Option.map_none, Option.getD_none, Text.Utf8.decode_encode]
  | quoted h => rwa [h.string?]

theorem lookup_of_mem {β : Type} {key : String} {value : β} {pairs : List (String × β)}
    (nodup : (pairs.map Prod.fst).Nodup)
    (mem : (key, value) ∈ pairs) : pairs.lookup key = some value := by
  induction pairs with
  | nil => cases mem
  | cons p rest ih =>
    rw [List.map_cons, List.nodup_cons] at nodup
    rw [List.lookup_cons]
    obtain rfl | mem := List.mem_cons.1 mem
    · simp
    · have other : (key == p.1) = false := by
        rw [beq_eq_false_iff_ne]
        rintro rfl
        exact nodup.1 (List.mem_map.2 ⟨_, mem, rfl⟩)
      rw [other]
      exact ih nodup.2 mem

namespace Entry

/-- What the caller has said; the level, the time and the like are added by whoever writes the line.
-/
def told (e : Entry) : List (String × Value) :=
  [("ev", .text e.event), ("seg", .int e.segment)] ++ e.fields ++ if e.message.isEmpty then []
    else [("msg", .text e.message)]

/-- A line as it may be written for the entry: an object with the given members, of which no two
have one name. What was said is among them, in whatever order and however it is written. -/
structure Line (e : Entry) (members : List (String × Json.Raw)) (line : List UInt8) : Prop where
  object : ∃ first others bytes more, members = first :: others ∧ Json.Member first bytes ∧
    Json.Others others more ∧
    line = 0x7b :: (bytes ++ more)
  names : (members.map Prod.fst).Nodup
  told : ∀ name v, (name, v) ∈ e.told → ∃ raw, (name, raw) ∈ members ∧ v.Writes raw

def Written (e : Entry) (line : List UInt8) : Prop := ∃ members, e.Line members line

/-- A record as it is read for the entry. -/
structure Read (e : Entry) (r : Record) : Prop where
  event : r.event = e.event
  segment : r.segment = e.segment
  told : ∀ name v, (name, v) ∈ e.told → ∃ raw, r.raw? name = some raw ∧ v.Writes raw
  text : ∀ name s, (name, .text s) ∈ e.told → r.text? name = some s
  uint : ∀ name n, (name, .uint n) ∈ e.told → r.uint name = .ok n.toNat

def toRecord (e : Entry) (members : List (String × Json.Raw)) : Record :=
  { event := e.event, segment := e.segment, fields := members }

/-- An entry that can be told from its line: no name stands for two fields, and the segment fits
into a word. -/
structure Fit (e : Entry) : Prop where
  names : (e.allFields.map Prod.fst).Nodup
  low : -9223372036854775808 ≤ e.segment
  high : e.segment < 9223372036854775808

section Lines
variable {e : Entry} {members : List (String × Json.Raw)} {line : List UInt8}
  (h : e.Line members line)
include h

theorem Line.visible : ∀ b ∈ line, 0x20 ≤ b := by
  obtain ⟨_, _, _, _, -, first, others, rfl⟩ := h.object
  exact List.forall_mem_cons.2 ⟨by decide, List.forall_mem_append.2 ⟨first.visible, others.visible⟩⟩

theorem Line.newline_not_mem : newline ∉ line := fun mem => by
  have := h.visible _ mem
  simp [newline, UInt8.le_iff_toNat_le] at this

theorem Line.dropReturn : dropReturn line = line ∧ line.isEmpty = false := by
  obtain ⟨_, _, bytes, more, -, -, others, rfl⟩ := h.object
  refine ⟨?_, rfl⟩
  have last : (0x7b :: (bytes ++ more)).getLast? = some 0x7d := by
    rw [List.getLast?_cons, List.getLast?_append, others.getLast?]
    rfl
  rw [Text.Lines.dropReturn, last, if_neg (by decide)]

theorem Line.field (name : String) (v : Value) (mem : (name, v) ∈ e.told) :
    ∃ raw, Record.field? members name = some raw ∧ v.Writes raw := by
  obtain ⟨raw, mem, writes⟩ := h.told name v mem
  refine ⟨raw, lookup_of_mem ?_ (List.mem_reverse.2 mem), writes⟩
  rw [List.map_reverse]
  exact List.pairwise_reverse.2 (h.names.imp .symm)

theorem Line.read : e.Read (e.toRecord members) where
  event := rfl
  segment := rfl
  told _ _ mem := h.field _ _ mem
  text name s mem := by
    obtain ⟨raw, found, ⟨literal⟩⟩ := h.field _ _ mem
    rw [Record.text?, Record.raw?, toRecord, found]
    exact literal.string?
  uint name n mem := by
    obtain ⟨raw, found, writes⟩ := h.field _ _ mem
    have read := writes.decimal
    rw [Record.uint, Record.raw?, toRecord, found]
    dsimp only
    cases text : Json.string? raw <;> rw [text] at read <;> exact read

theorem Line.parse (fit : e.Fit) : Record.parse line = .ok (e.toRecord members) := by
  obtain ⟨_, event, ⟨literal⟩⟩ := h.field "ev" (.text e.event) (by simp [Entry.told])
  obtain ⟨_, segment, ⟨_⟩⟩ := h.field "seg" (.int e.segment) (by simp [Entry.told])
  obtain ⟨_, _, _, _, all, first, others, rfl⟩ := h.object
  rw [Record.parse, Json.members_object first others, ← all]
  simp only [event, segment, Option.bind_some, literal.string?, Json.int_toString fit.low fit.high]
  rfl

end Lines

def rawFields (e : Entry) : List (String × Json.Raw) :=
  e.allFields.map fun f => (f.1, encode f.2.toText)

theorem object_intercalate (fields : List (String × Value)) (first : String × Value) : ∃ bytes more,
    Json.Member (first.1, encode first.2.toText) bytes ∧
    Json.Others (fields.map fun f => (f.1, encode f.2.toText)) more ∧
      encode (String.intercalate "," ((first :: fields).map fun f =>
        Event.quote f.1 ++ ":" ++ f.2.toText) ++ "\x7d") = bytes ++ more := by
  have colon : encode ":" = [0x3a] := rfl
  have comma : encode "," = [0x2c] := rfl
  have brace : encode "\x7d" = [0x7d] := rfl
  have member : ∀ f : String × Value, Json.Member (f.1, encode f.2.toText)
      (encode (Event.quote f.1 ++ ":" ++ f.2.toText)) := fun f =>
    ⟨_, Json.literal_quote f.1, f.2.writes_toText.scalar, by simp [Json.encode_append, colon]⟩
  induction fields generalizing first with
  | nil =>
    refine ⟨_, _, member first, .nil, ?_⟩
    rw [List.map_singleton, String.intercalate_singleton, Json.encode_append, brace]
  | cons second rest ih =>
    obtain ⟨bytes, more, here, others, same⟩ := ih second
    refine ⟨_, _, member first, .cons here others, ?_⟩
    have split : ∀ a b : String, encode (a ++ "," ++ b ++ "\x7d") = encode a ++ 0x2c :: encode
        (b ++ "\x7d") := fun a b => by
      simp [Json.encode_append, comma]
    rw [List.map_cons] at same
    rw [List.map_cons, List.map_cons, String.intercalate_cons_cons, split, same]

/-- One way to write it. -/
theorem line_of_fit (fit : e.Fit) : e.Line e.rawFields (encode e.line) where
  object := by
    have brace : encode "\x7b" = [0x7b] := rfl
    obtain ⟨first, others, all⟩ : ∃ first others, e.allFields = first :: others := ⟨_, _, rfl⟩
    obtain ⟨bytes, more, here, rest, same⟩ := object_intercalate others first
    refine ⟨_, _, bytes, more, by rw [rawFields, all, List.map_cons], here, rest, ?_⟩
    rw [line, String.append_assoc, Json.encode_append, brace, all, same]
    rfl
  names := by
    rw [rawFields, List.map_map]
    exact fit.names
  told name v mem := ⟨_, List.mem_map.2 ⟨(name, v), .tail _ mem, rfl⟩, v.writes_toText⟩

end Entry

inductive Request
  | event (level : Level) (event : String) (segment : Int) (fields : List (String × Value))
      (message : String)
  | contention (segment : Int) (ref : UInt64) (kind : String)
  /-- A conflict about which the rate limiter has decided. -/
  | decided (allowed : Bool) (segment : Int) (ref : UInt64) (kind : String)
  | close

namespace Log

def perform (l : Log) : Request → Log
  | .event .info event segment fields message => l.info event segment fields message
  | .event .debug event segment fields message => l.debug event segment fields message
  | .contention segment ref kind => l.contention segment ref kind
  | .decided allowed segment ref kind => l.contentionIf allowed segment ref kind
  | .close => l.close

def file (l : Log) : List UInt8 := join (l.entries.toList.map fun e => encode e.line)

def conflict (l : Log) (segment : Int) (ref : UInt64) (kind : String) : Entry :=
  { level := .info, event := Kind.contention.name, segment
    fields := [("ref", .uint ref), ("kind", .text kind), ("suppressed", .uint l.suppressed)] }

def summary (l : Log) : Entry :=
  { level := .info, event := Kind.summary.name, segment := -1
    fields := l.totals ++ [("suppressed", .uint l.suppressed)] }

def wanted? (l : Log) : Request → Option Entry
  | .event level event segment fields message =>
    if level = .debug ∧ ¬ l.options.debug then none
      else some { level, event, segment, fields, message }
  | .contention segment ref kind =>
    if l.allows segment then some (l.conflict segment ref kind) else none
  | .decided allowed segment ref kind =>
    if allowed then some (l.conflict segment ref kind) else none
  | .close => if l.closed then none else some l.summary

def written (l : Log) (e : Option Entry) : List Entry :=
  if l.closed && l.ownsFile then [] else e.toList

def asked (l : Log) : List Request → List Entry
  | [] => []
  | r :: rest => l.written (l.wanted? r) ++ asked (l.perform r) rest

end Log

/-- A request with fields whose names differ from each other and from those of every record, and a
segment that fits a word. -/
def Request.Fit : Request → Prop
  | .event level name segment fields message =>
    Entry.Fit { level, event := name, segment, fields, message }
  | .contention segment _ _ => -9223372036854775808 ≤ segment ∧ segment < 9223372036854775808
  | .decided _ segment _ _ => -9223372036854775808 ≤ segment ∧ segment < 9223372036854775808
  | .close => True

namespace Log

theorem entries_put (l : Log) (e : Entry) :
    (l.put e).entries.toList = l.entries.toList ++ l.written (some e) := by
  rw [put, written]
  split <;> simp

theorem entries_none (l : Log) : l.entries.toList = l.entries.toList ++ l.written none := by
  simp [written]

theorem lookup_bump {other : String} (counts : List (String × UInt64)) (h : other ≠ name) :
    (bump name counts).lookup other = counts.lookup other := by
  have differs := beq_false_of_ne h
  induction counts with
  | nil => rw [bump, List.lookup_cons, differs]
  | cons p rest ih =>
    obtain ⟨key, n⟩ := p
    rw [bump]
    split
    · rename_i same
      obtain rfl := beq_iff_eq.1 same
      rw [List.lookup_cons, List.lookup_cons, differs]
    · rw [List.lookup_cons, List.lookup_cons, ih]

theorem totals_tick (l : Log) : (l.tick Kind.summary.name).totals = l.totals := by
  have counted : ∀ k : Kind, k ≠ .summary →
      (l.tick Kind.summary.name).count k.name = l.count k.name := by
    intro k hk
    have other : k.name ≠ Kind.summary.name := by
      cases k <;> first | exact absurd rfl hk | simp [Kind.name]
    rw [count, tick, lookup_bump _ other, count]
  rw [totals, totals]
  congr 1
  funext k
  by_cases hk : k = .summary
  · simp [hk]
  · rw [counted k hk]

theorem entries_contentionIf (allowed : Bool) (l : Log) (segment : Int) (ref : UInt64)
    (kind : String) :
    (contentionIf allowed l segment ref kind).entries.toList =
      l.entries.toList ++ l.written
      (if allowed then some (l.conflict segment ref kind) else none) := by
  cases allowed with
  | true => exact entries_put _ _
  | false => exact l.entries_none

theorem entries_perform (l : Log) (r : Request) :
    (l.perform r).entries.toList = l.entries.toList ++ l.written (l.wanted? r) := by
  cases r with
  | event level event =>
    cases level with
    | info => exact entries_put (l.tick event) _
    | debug =>
      rw [perform, debug, wanted?]
      cases l.options.debug with
      | true => exact entries_put (l.tick event) _
      | false => exact l.entries_none
  | contention =>
    rw [perform, contention, wanted?, entries_contentionIf]
    rfl
  | decided allowed segment ref kind => exact entries_contentionIf allowed l segment ref kind
  | close =>
    rw [perform, close, wanted?]
    by_cases closed : l.closed = true
    · rw [if_pos closed, if_pos closed, ← entries_none]
    · rw [if_neg closed, if_neg closed, summary, ← totals_tick]
      exact entries_put (l.tick Kind.summary.name) _

theorem entries_performAll (l : Log) (requests : List Request) :
    (requests.foldl perform l).entries.toList = l.entries.toList ++ l.asked requests := by
  induction requests generalizing l with
  | nil => simp [asked]
  | cons r rest ih => rw [List.foldl_cons, ih, entries_perform, asked, List.append_assoc]

def header (options : Options) : Entry :=
  { level := .info, event := Kind.header.name, segment := -1
    fields := ("format", .text formatVersion) :: options.origin }

theorem fit_header (options : Options) : (header options).Fit := by
  obtain ⟨debug, rate, limiter, process⟩ := options
  cases process <;> exact ⟨by simp [header, Options.origin, Entry.allFields], by simp [header],
    by simp [header]⟩

theorem totals_names (l : Log) : (l.totals.map Prod.fst).Sublist (Kind.all.map Kind.name) := by
  rw [totals]
  generalize Kind.all = kinds
  induction kinds with
  | nil => exact .slnil
  | cons k rest ih =>
    rw [List.filterMap_cons]
    split
    · exact ih.cons _
    · rename_i total h
      cases (Option.ite_none_left_eq_some.1 h).2
      exact ih.cons_cons _

theorem fit_summary (l : Log) : l.summary.Fit := by
  have all : (["lvl", "ev", "seg"] ++ Kind.all.map Kind.name ++ ["suppressed"]).Nodup := by
    decide +kernel
  have names := (l.totals_names.append_left ["lvl", "ev", "seg"]).append_right ["suppressed"]
  have fields : l.summary.allFields.map Prod.fst =
      ["lvl", "ev", "seg"] ++ l.totals.map Prod.fst ++ ["suppressed"] := by
    simp [summary, Entry.allFields]
  refine ⟨?_, (by decide : (-9223372036854775808 : Int) ≤ -1),
    (by decide : (-1 : Int) < 9223372036854775808)⟩
  rw [fields]
  exact all.sublist names

theorem fit_of_wanted? (fit : r.Fit) (h : l.wanted? r = some e) : e.Fit := by
  have conflict : ∀ {segment : Int} {ref : UInt64} {kind : String}, -9223372036854775808 ≤ segment →
      segment < 9223372036854775808 →
      (l.conflict segment ref kind).Fit :=
        fun low high => ⟨by simp [conflict, Entry.allFields], low, high⟩
  cases r with
  | event =>
    rw [wanted?, Option.ite_none_left_eq_some] at h
    cases h.2
    exact fit
  | contention | decided =>
    rw [wanted?, Option.ite_none_right_eq_some] at h
    cases h.2
    exact conflict fit.1 fit.2
  | close =>
    rw [wanted?, Option.ite_none_left_eq_some] at h
    cases h.2
    exact l.fit_summary

theorem fit_of_asked (fit : ∀ r ∈ requests, r.Fit) : ∀ e ∈ l.asked requests, e.Fit := by
  induction requests generalizing l with
  | nil => intro e he; cases he
  | cons r rest ih =>
    obtain ⟨here, later⟩ := List.forall_mem_cons.1 fit
    intro e he
    rw [asked, written, List.mem_append] at he
    obtain he | he := he
    · split at he
      · cases he
      · exact fit_of_wanted? here (Option.mem_toList.1 he)
    · exact ih later e he

theorem fit_performAll (options : Options) (ownsFile : Bool) (fit : ∀ r ∈ requests, r.Fit) :
    ∀ e ∈ (requests.foldl perform (start options ownsFile)).entries.toList, e.Fit := by
  rw [entries_performAll]
  exact List.forall_mem_append.2
    ⟨List.forall_mem_singleton.2 (fit_header options), fit_of_asked fit⟩

end Log

theorem Reader.readAll_lines {lines : List (List UInt8)} (fit : ∀ e ∈ entries, e.Fit)
    (written : List.Forall₂ Entry.Written entries lines) (short : ∀ l ∈ lines, l.length < maxLine) :
    ∃ records, readAll (join lines) = (records, none) ∧
    List.Forall₂ Entry.Read entries records := by
  have found : ∃ records, recordsOf passes parse lines = (records, none) ∧
      List.Forall₂ Entry.Read entries records ∧
      ∀ l ∈ lines, newline ∉ l := by
    clear short
    induction written with
    | nil => exact ⟨[], rfl, .nil, by simp⟩
    | @cons e line entries lines here _ ih =>
      obtain ⟨members, here⟩ := here
      obtain ⟨own, others⟩ := List.forall_mem_cons.1 fit
      obtain ⟨same, notEmpty⟩ := here.dropReturn
      obtain ⟨records, found, read, single⟩ := ih others
      have solid : passes line = false := by rw [passes, same, notEmpty]
      have parsed : parse line = .ok (e.toRecord members) := by rw [parse, same, here.parse own]
      refine ⟨e.toRecord members :: records, ?_, .cons here.read read,
        List.forall_mem_cons.2 ⟨here.newline_not_mem, single⟩⟩
      rw [recordsOf, solid, parsed, found]
      rfl
  obtain ⟨all, found, read, single⟩ := found
  obtain ⟨records, fails⟩ := readAll_join fun l hl => ⟨single l hl, short l hl⟩
  rw [found] at records fails
  exact ⟨all, Prod.ext records
    (Option.isSome_eq_false_iff.1 fails |> Option.isNone_iff_eq_none.1), read⟩

/-- The log's own way of writing is one of those. -/
theorem Log.written_file (fit : ∀ e ∈ l.entries.toList, e.Fit) :
    List.Forall₂ Entry.Written l.entries.toList (l.entries.toList.map fun e => encode e.line) := by
  rw [List.forall₂_map_right_iff, List.forall₂_same]
  exact fun e he => ⟨_, Entry.line_of_fit (fit e he)⟩

def Entry.conflicts (e : Entry) : Nat :=
  if e.event = Kind.contention.name then
    match e.fields.lookup "suppressed" with
    | some (.uint n) => 1 + n.toNat
    | _ => 1
  else 0

def Entry.Honest (e : Entry) : Prop :=
  e.event = Kind.contention.name → ∃ n, ("suppressed", .uint n) ∈ e.fields ∧
    e.conflicts = 1 + n.toNat

def Request.isConflict : Request → Bool
  | .contention _ _ _ => true
  | .decided _ _ _ _ => true
  | _ => false

def Request.Ordinary : Request → Prop
  | .event _ name _ _ _ => name ≠ Kind.contention.name
  | .close => False
  | _ => True

namespace Log

theorem lookup_bump_self (name : String) (counts : List (String × UInt64)) :
    ((bump name counts).lookup name).getD 0 = (counts.lookup name).getD 0 + 1 := by
  induction counts with
  | nil => simp [bump]
  | cons p rest ih =>
    obtain ⟨key, n⟩ := p
    rw [bump]
    by_cases same : key = name
    · simp [same]
    · rwa [if_neg (by simpa using same), List.lookup_cons, List.lookup_cons,
        beq_false_of_ne (Ne.symm same)]

/-- All of `n` conflicts are accounted for, but for counters that have run over. -/
structure Accounts (l : Log) (n : Nat) : Prop where
  told : ∃ laps, (l.entries.toList.map Entry.conflicts).sum + l.suppressed.toNat +
    18446744073709551616 * laps = n
  counted : l.count Kind.contention.name = UInt64.ofNat n
  unended : l.closed = false
  honest : ∀ e ∈ l.entries.toList, e.Honest

variable {l : Log} {n : Nat}

theorem Accounts.other (h : l.Accounts n) (other : e.event ≠ Kind.contention.name) :
    ((l.tick e.event).put e).Accounts n := by
  have put : (l.tick e.event).put e = { l.tick e.event with entries := l.entries.push e } :=
    if_neg (by simp [tick, h.unended])
  have none : e.conflicts = 0 := if_neg other
  rw [put]
  refine ⟨by simpa [none, tick] using h.told, ?_, h.unended, ?_⟩
  · rw [← h.counted, count, tick, lookup_bump _ (Ne.symm other), count]
  · rw [Array.toList_push, List.forall_mem_append]
    exact ⟨h.honest, List.forall_mem_singleton.2 fun same => absurd same other⟩

theorem Accounts.conflict (h : l.Accounts n) (allowed : Bool) (segment : Int) (ref : UInt64)
    (kind : String) :
    (contentionIf allowed l segment ref kind).Accounts (n + 1) := by
  have counted : (l.tick Kind.contention.name).count Kind.contention.name = UInt64.ofNat
      (n + 1) := by
    rw [count, tick, lookup_bump_self, ← count, h.counted, UInt64.ofNat_add]
    rfl
  obtain ⟨laps, told⟩ := h.told
  cases allowed with
  | false =>
    refine ⟨?_, counted, h.unended, h.honest⟩
    have more : (l.suppressed + 1).toNat = (l.suppressed.toNat + 1) % 18446744073709551616 :=
      UInt64.toNat_add _ _
    -- The count of those left out runs over, or goes up by one.
    refine ⟨laps + (l.suppressed.toNat + 1) / 18446744073709551616, ?_⟩
    simp only [contentionIf, Bool.false_eq_true, if_false, tick, more]
    omega
  | true =>
    have put : contentionIf true l segment ref kind =
        { l.tick Kind.contention.name with
          entries := l.entries.push (l.conflict segment ref kind)
          suppressed := 0 } := by
      rw [contentionIf, if_pos rfl, info, put, if_neg (by simp [tick, h.unended])]
      rfl
    have own : (l.conflict segment ref kind).conflicts = 1 + l.suppressed.toNat := by
      simp [Entry.conflicts, Log.conflict, List.lookup_cons]
    rw [put]
    refine ⟨⟨laps, ?_⟩, counted, h.unended, ?_⟩
    · simp only [Array.toList_push, List.map_append, List.sum_append, List.map_cons, List.map_nil,
        List.sum_cons, List.sum_nil, own,
        UInt64.toNat_zero]
      omega
    · rw [Array.toList_push, List.forall_mem_append]
      exact ⟨h.honest, List.forall_mem_singleton.2 fun _ =>
        ⟨l.suppressed, by simp [Log.conflict], own⟩⟩

theorem Accounts.perform (h : l.Accounts n) (ordinary : r.Ordinary) :
    (l.perform r).Accounts (n + [r].countP Request.isConflict) := by
  cases r with
  | event level event segment fields message =>
    cases level with
    | info => exact h.other ordinary
    | debug =>
      rw [Log.perform, debug]
      split
      · exact h.other ordinary
      · exact h
  | contention segment =>
    exact conflict (l := { l with spent := spend segment l.spent }) { h with } ..
  | decided => exact h.conflict ..
  | close => exact ordinary.elim

theorem Accounts.performAll (h : l.Accounts n) (ordinary : ∀ r ∈ requests, r.Ordinary) :
    (requests.foldl Log.perform l).Accounts (n + requests.countP Request.isConflict) := by
  induction requests generalizing l n with
  | nil => exact h
  | cons r rest ih =>
    obtain ⟨here, later⟩ := List.forall_mem_cons.1 ordinary
    have := ih (h.perform here) later
    rwa [Nat.add_assoc, ← List.countP_append] at this

theorem accounts_start (options : Options) (ownsFile : Bool) :
    (start options ownsFile).Accounts 0 :=
  .other
    (l := { options, ownsFile }) ⟨⟨0, rfl⟩, rfl, rfl, by simp⟩ (by simp [Kind.name])

theorem entries_close (h : l.closed = false) :
    l.close.entries.toList = l.entries.toList ++ [l.summary] := by
  have := l.entries_perform .close
  rwa [wanted?, h, written, h] at this

theorem mem_totals :
    (name, v) ∈ l.totals ↔ (∃ k : Kind, k ≠ .summary ∧ k.name = name) ∧ l.count name ≠ 0 ∧
    v = .uint (l.count name) := by
  simp only [totals, List.mem_filterMap, Kind.mem_all, true_and, Option.ite_none_left_eq_some,
    Option.some.injEq, Prod.mk.injEq, not_or]
  constructor
  · rintro ⟨k, ⟨some, other⟩, rfl, rfl⟩
    exact ⟨⟨k, other, rfl⟩, some, rfl⟩
  · rintro ⟨⟨k, other, rfl⟩, some, rfl⟩
    exact ⟨k, ⟨some, other⟩, rfl, rfl⟩

end Log

/-- No conflict is lost, whatever the rate limiter decides. Those that the records tell of and those
still to be told of are all there were, and so many are counted. The summary has their number,
unless it is 0, and what is still to be told of. Counters have 64 bits. -/
theorem conflicts_accounted (options : Options) (ownsFile : Bool) (requests : List Request)
    (ordinary : ∀ r ∈ requests, r.Ordinary) :
    let log := requests.foldl Log.perform (Log.start options ownsFile)
    let calls := requests.countP Request.isConflict
    let told := (log.entries.toList.map Entry.conflicts).sum + log.suppressed.toNat
    told % 18446744073709551616 = calls % 18446744073709551616 ∧
      (calls < 18446744073709551616 → told = calls) ∧
      log.count Kind.contention.name = UInt64.ofNat calls ∧
      ∃ summary : Entry, log.close.entries.toList = log.entries.toList ++ [summary] ∧
        summary.event = Kind.summary.name ∧
        (∀ v, (Kind.contention.name, v) ∈ summary.fields ↔ UInt64.ofNat calls ≠ 0 ∧
          v = .uint (UInt64.ofNat calls)) ∧
        ∀ v, ("suppressed", v) ∈ summary.fields ↔ v = .uint log.suppressed := by
  intro log calls told
  have account : log.Accounts (0 + calls) :=
    (Log.accounts_start options ownsFile).performAll ordinary
  rw [Nat.zero_add] at account
  obtain ⟨laps, sum⟩ := account.told
  refine ⟨by omega, by omega, account.counted, log.summary, log.entries_close account.unended, rfl,
    fun v => ?_, fun v => ?_⟩
  · have kind : ∃ k : Kind, k ≠ .summary ∧ k.name = Kind.contention.name :=
      ⟨.contention, by decide, rfl⟩
    have other : Kind.contention.name ≠ "suppressed" := by decide
    simp [Log.summary, Log.mem_totals, account.counted, kind, other]
  · have none : ¬ ∃ k : Kind, k ≠ .summary ∧ k.name = "suppressed" := by
      rintro ⟨k, -, same⟩
      cases k <;> simp [Kind.name] at same
    simp [Log.summary, Log.mem_totals, none]

theorem conflicts_accounted_limited :
    let requests : List Request :=
  [.decided true 0 16 "read", .decided false 0 16 "read", .event .info "wait_done" 0 [] "",
    .decided true 1 16 "write"]
    let log := requests.foldl Log.perform (Log.start {})
    (∀ r ∈ requests, r.Ordinary) ∧
      (log.entries.toList.map Entry.conflicts).sum + log.suppressed.toNat = 3 := by
  intro requests log
  have ordinary : ∀ r ∈ requests, r.Ordinary := by simp [requests, Request.Ordinary, Kind.name]
  exact ⟨ordinary, (conflicts_accounted {} false requests ordinary).2.1 (by decide)⟩

theorem Tally.count_increase (event name : String) (n : UInt64) (t : Tally) :
    Tally.count (increase event n t) name = Tally.count t name + if event = name then n else 0 := by
  induction t with
  | nil | cons => grind [increase, count]

theorem Tally.count_entries {records : List Record} (read : List.Forall₂ Entry.Read entries records)
    (honest : ∀ e ∈ entries, e.Honest) (t : Tally) :
    Tally.count (records.foldl add t) Kind.contention.name =
      Tally.count t Kind.contention.name + UInt64.ofNat (entries.map Entry.conflicts).sum := by
  induction read generalizing t with
  | nil => simp
  | @cons e r entries records here _ ih =>
    obtain ⟨own, others⟩ := List.forall_mem_cons.1 honest
    have step : Tally.count (add t r) Kind.contention.name =
        Tally.count t Kind.contention.name + UInt64.ofNat e.conflicts := by
      rw [add, count_increase, weight, here.event]
      by_cases conflict : e.event = Kind.contention.name
      · obtain ⟨k, mem, told⟩ := own conflict
        have read : r.uint "suppressed" = .ok k.toNat := here.uint _ _ (by simp [Entry.told, mem])
        rw [if_pos conflict, if_pos conflict, read, told, UInt64.ofNat_add]
        rfl
      · rw [if_neg conflict, Entry.conflicts, if_neg conflict]
        rfl
    rw [List.foldl_cons, ih others, step, List.map_cons, List.sum_cons, UInt64.ofNat_add,
      UInt64.add_assoc]

/-- A tally of a closed log finds the conflicts that there were, less those left out after the last
that was told: these stand in the summary. -/
theorem tallied_but_for_summary (options : Options) (ownsFile : Bool) (requests : List Request)
    (ordinary : ∀ r ∈ requests, r.Ordinary) (fit : ∀ r ∈ requests, r.Fit) :
    let log := requests.foldl Log.perform (Log.start options ownsFile)
    let calls := UInt64.ofNat (requests.countP Request.isConflict)
    let read := Reader.readAll log.close.file
    let tally := Tally.count (read.1.foldl Tally.add []) Kind.contention.name
    (∀ e ∈ log.close.entries.toList, (encode e.line).length < Reader.maxLine) →
      read.2 = none ∧ tally + log.suppressed = calls ∧ (tally = calls ↔ log.suppressed = 0) ∧
      ∃ summary, read.1.getLast? = some summary ∧ summary.event = Kind.summary.name ∧
        summary.uint "suppressed" = .ok log.suppressed.toNat := by
  intro log calls read tally short
  have account : log.Accounts (0 + requests.countP Request.isConflict) :=
    (Log.accounts_start options ownsFile).performAll ordinary
  rw [Nat.zero_add] at account
  have entries := log.entries_close account.unended
  have fits : ∀ e ∈ log.close.entries.toList, e.Fit := by
    rw [entries]
    exact List.forall_mem_append.2
      ⟨Log.fit_performAll options ownsFile fit, List.forall_mem_singleton.2 log.fit_summary⟩
  obtain ⟨records, found, same⟩ :=
    Reader.readAll_lines fits (Log.written_file fits) (List.forall_mem_map.2 short)
  replace found : read = (records, none) := found
  have sum : tally + log.suppressed = calls := by
    obtain ⟨laps, told⟩ := account.told
    have honest : ∀ e ∈ log.close.entries.toList, e.Honest := by
      rw [entries]
      exact List.forall_mem_append.2 ⟨account.honest,
        List.forall_mem_singleton.2 fun same : Kind.summary.name = _ => absurd same (by decide)⟩
    have counted := Tally.count_entries same honest []
    rw [entries, List.map_append, List.sum_append] at counted
    apply UInt64.toNat.inj
    have none : (Tally.count [] Kind.contention.name).toNat = 0 ∧
        ([log.summary].map Entry.conflicts).sum = 0 := ⟨rfl, rfl⟩
    simp only [tally, found, counted, calls, ← told, UInt64.toNat_add, UInt64.toNat_ofNat', none]
    omega
  rw [entries, ← List.forall₂_reverse_iff, List.reverse_concat, List.forall₂_cons_left_iff] at same
  obtain ⟨summary, others, told, -, last⟩ := same
  refine ⟨by rw [found], sum, ?_, summary, ?_, told.event,
    told.uint _ _ (by simp [Entry.told, Log.summary])⟩
  · rw [← sum]
    exact UInt64.left_eq_add
  · rw [found, List.getLast?_eq_head?_reverse, last]
    rfl

/-- The last conflict is left out, so that one of two is found. -/
theorem tallied_but_for_summary_silenced :
    let requests : List Request := [.decided true 0 16 "read", .decided false 0 16 "read"]
    let log := requests.foldl Log.perform (Log.start {})
    (∀ r ∈ requests, r.Ordinary) ∧ (∀ r ∈ requests, r.Fit) ∧
      (∀ e ∈ log.close.entries.toList, (encode e.line).length < Reader.maxLine) ∧
      Tally.count ((Reader.readAll log.close.file).1.foldl Tally.add [])
        Kind.contention.name + 1 = 2 := by
  intro requests log
  have ordinary : ∀ r ∈ requests, r.Ordinary := by simp [requests, Request.Ordinary]
  have fit : ∀ r ∈ requests, r.Fit := by simp [requests, Request.Fit]
  have short : ∀ e ∈ log.close.entries.toList, (encode e.line).length < Reader.maxLine := by
    decide +kernel
  exact ⟨ordinary, fit, short, (tallied_but_for_summary {} false requests ordinary fit short).2.1⟩

end TxHeap.Event
