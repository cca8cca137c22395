import TxHeap.Json.Members

/-! Records as they are read: an event, a segment number and the fields as they are written. -/

namespace TxHeap.Event

structure Record where
  event : String
  segment : Int
  /-- All fields in the order of the line. Of fields with one name the last one counts. -/
  fields : List (String × Json.Raw)

inductive RecordError
  | malformed (e : Json.Error)
  | noEvent
  | badSegment (e : Json.Error)

namespace RecordError

def summary : RecordError → String
  | malformed _ => "stmlog: malformed record"
  | noEvent => "stmlog: record without event name"
  | badSegment _ => "stmlog: bad segment field"

def text : RecordError → String
  | malformed e => (malformed e).summary ++ ": " ++ e.text
  | noEvent => noEvent.summary
  | badSegment e => (badSegment e).summary ++ ": " ++ e.text

end RecordError

namespace Record

def field? (fields : List (String × Json.Raw)) (key : String) : Option Json.Raw :=
  fields.reverse.lookup key

def raw? (r : Record) (key : String) : Option Json.Raw := field? r.fields key

def text? (r : Record) (key : String) : Option String := (r.raw? key).bind Json.string?

def uint (r : Record) (key : String) : Except Text.Numeral.Error Nat :=
  match r.raw? key with
  | none => .error .malformed
  | some raw =>
    match Json.string? raw with
    | some s => Text.Numeral.decimal s.toList
    | none => Text.Numeral.decimal (Text.Utf8.decode raw)

/-- Of neighbours with one name, the last. -/
def keepLast : List (String × Json.Raw) → List (String × Json.Raw) → List (String × Json.Raw)
  | kept, [] => kept.reverse
  | (k, v) :: kept, (k', v') :: rest =>
    if k = k' then keepLast ((k', v') :: kept) rest
    else keepLast ((k', v') :: (k, v) :: kept) rest
  | [], f :: rest => keepLast [f] rest

def sortedFields (r : Record) : List (String × Json.Raw) :=
  keepLast [] (r.fields.mergeSort fun a b => decide (a.1 ≤ b.1))

def parse (line : List UInt8) : Except RecordError Record :=
  match Json.members line with
  | .error e => .error (.malformed e)
  | .ok fields =>
    match (field? fields "ev").bind Json.string? with
    | none => .error .noEvent
    | some event =>
      match field? fields "seg" with
      | none => .ok { event, segment := -1, fields }
      | some raw =>
        match Json.int raw (-1) with
        | .error e => .error (.badSegment e)
        | .ok segment => .ok { event, segment, fields }

end Record

end TxHeap.Event
