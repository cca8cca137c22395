import TxHeap.Event.Entry
import TxHeap.Proofs.Json.Scan

/-! Reading back what is written. A string, a number or a truth value passes the checker, is cut off
where it ends and reads as what it stands for. -/

namespace TxHeap.Json
open Text.Utf8 (encode)

variable {c : Char} {depth n : Nat} {taken : Array UInt8} {rest : List UInt8} {b : UInt8}
  {read : Array (String × Raw)}
open Event (escapeChar quote)

theorem encode_append (a b : String) : encode (a ++ b) = encode a ++ encode b := by
  simp [Text.Utf8.encode_eq]

def escapeBytes (c : Char) : List UInt8 := (escapeChar c).flatMap String.utf8EncodeChar

theorem encode_quote (s : String) :
    encode (quote s) = 0x22 :: (s.toList.flatMap escapeBytes ++ [0x22]) := by
  have mark : encode "\"" = [0x22] := rfl
  rw [quote, encode_append, encode_append, mark, Text.Utf8.encode_eq, String.toList_ofList,
    List.flatMap_assoc]
  rfl

/-- How a character may stand in a string. -/
inductive Escaped : Char → List UInt8 → Prop
  | short (b : UInt8) (known : b ∈ [0x22, 0x2f, 0x5c, 0x62, 0x66, 0x6e, 0x72, 0x74]) :
      Escaped (ofEscape b) [0x5c, b]
  | code (a b c d : UInt8) (hex : ∀ x ∈ [a, b, c, d], isHexDigit x = true)
      (high : isHighSurrogate (codeUnit a b c d) = false)
      (low : isLowSurrogate (codeUnit a b c d) = false) :
      Escaped (Char.ofNat (codeUnit a b c d)) [0x5c, 0x75, a, b, c, d]
  | pair (a b c d a' b' c' d' : UInt8)
      (hex : ∀ x ∈ [a, b, c, d, a', b', c', d'], isHexDigit x = true)
      (high : isHighSurrogate (codeUnit a b c d) = true)
      (low : isLowSurrogate (codeUnit a' b' c' d') = true) :
      Escaped
        (Char.ofNat
        (0x10000 + (codeUnit a b c d - 0xd800) * 0x400 + (codeUnit a' b' c' d' - 0xdc00)))
        [0x5c, 0x75, a, b, c, d, 0x5c, 0x75, a', b', c', d']
  | plain (c : Char) (visible : 0x20 ≤ c.toNat) (notQuote : c ≠ '"') (notSlash : c ≠ '\\') :
      Escaped c (String.utf8EncodeChar c)

def hexByte (n : Nat) : UInt8 := UInt8.ofNat (Text.hexDigit n).toNat

theorem hexByte_spec : ∀ n < 16, isHexDigit (hexByte n) = true ∧ hexValue (hexByte n) = n ∧
    String.utf8EncodeChar (Text.hexDigit n) = [hexByte n] := by
  decide

theorem escaped_code (small : c.toNat < 0xd800) :
    Escaped c (('\\' :: 'u' :: Text.hexPadded 4 c.toNat).flatMap String.utf8EncodeChar) := by
  obtain ⟨v, hv⟩ : ∃ v, v = c.toNat := ⟨_, rfl⟩
  rw [← hv] at small ⊢
  have digit : ∀ n : Nat, n % 16 < 16 := fun n => Nat.mod_lt _ (by decide)
  have unit : codeUnit (hexByte (v / 16 / 16 / 16 % 16)) (hexByte (v / 16 / 16 % 16))
      (hexByte (v / 16 % 16)) (hexByte (v % 16)) = v := by
    simp only [codeUnit, (hexByte_spec _ (digit _)).2.1]
    omega
  have bytes : ('\\' :: 'u' :: Text.hexPadded 4 v).flatMap String.utf8EncodeChar =
      [0x5c, 0x75, hexByte (v / 16 / 16 / 16 % 16), hexByte (v / 16 / 16 % 16),
        hexByte (v / 16 % 16), hexByte (v % 16)] := by
    simp only [Text.hexPadded, List.flatMap_cons, List.flatMap_nil, List.flatMap_append,
      List.nil_append,
      (hexByte_spec _ (digit _)).2.2]
    rfl
  have char : c = Char.ofNat v := by rw [hv, Char.ofNat_toNat]
  rw [bytes, char]
  refine (congrArg (fun n => Escaped (Char.ofNat n) _) unit).mp ?_
  refine .code _ _ _ _ (fun x hx => ?_) (by rw [unit, isHighSurrogate]; simp; omega)
    (by rw [unit, isLowSurrogate]; simp; omega)
  simp only [List.mem_cons, List.not_mem_nil, or_false] at hx
  obtain rfl | rfl | rfl | rfl := hx <;> exact (hexByte_spec _ (digit _)).1

theorem escaped (c : Char) : Escaped c (escapeBytes c) := by
  unfold escapeBytes escapeChar
  split
  · exact .short 0x22 (by decide)
  · exact .short 0x5c (by decide)
  · exact .short 0x62 (by decide)
  · exact .short 0x66 (by decide)
  · exact .short 0x6e (by decide)
  · exact .short 0x72 (by decide)
  · exact .short 0x74 (by decide)
  · split
    · rename_i special
      refine escaped_code ?_
      obtain low | rfl | rfl | rfl | here | here := special
      · omega
      · decide
      · decide
      · decide
      · omega
      · omega
    · rename_i common
      simp only [not_or] at common
      rw [List.flatMap_singleton]
      exact .plain _ (Nat.not_lt.1 common.1) (by assumption) (by assumption)

theorem plain_bytes (visible : 0x20 ≤ c.toNat) (notQuote : c ≠ '"') (notSlash : c ≠ '\\') :
    ∀ b ∈ String.utf8EncodeChar c, 0x20 ≤ b ∧ b ≠ 0x22 ∧ b ≠ 0x5c := by
  have quote : c.toNat ≠ 0x22 := fun h => notQuote (Char.toNat_inj.1 h)
  have slash : c.toNat ≠ 0x5c := fun h => notSlash (Char.toNat_inj.1 h)
  have far : ∀ n, 128 ≤ n → n < 256 → 0x20 ≤ UInt8.ofNat n ∧ UInt8.ofNat n ≠ 0x22 ∧
      UInt8.ofNat n ≠ 0x5c := by
    intro n low high
    simp only [UInt8.le_iff_toNat_le, ne_eq, ← UInt8.toNat_inj, Text.Utf8.toNat_byte high]
    simp
    omega
  intro b hb
  rw [String.utf8EncodeChar] at hb
  simp only [show c.val.toNat = c.toNat from rfl] at hb
  split at hb
  · obtain rfl := List.mem_singleton.1 hb
    simp only [UInt8.le_iff_toNat_le, ne_eq, ← UInt8.toNat_inj,
      Text.Utf8.toNat_byte (show c.toNat < 256 by omega)]
    simp
    omega
  · split at hb
    · simp only [List.mem_cons, List.not_mem_nil, or_false] at hb
      obtain rfl | rfl := hb <;> exact far _ (by omega) (by omega)
    · split at hb
      · simp only [List.mem_cons, List.not_mem_nil, or_false] at hb
        obtain rfl | rfl | rfl := hb <;> exact far _ (by omega) (by omega)
      · simp only [List.mem_cons, List.not_mem_nil, or_false] at hb
        obtain rfl | rfl | rfl | rfl := hb <;> exact far _ (by omega) (by omega)

section Escapes

open Checker

variable {bytes : List UInt8} {s : Checker}

theorem Checker.run_text (here : s.place = .inString)
    (h : ∀ b ∈ bytes, 0x20 ≤ b ∧ b ≠ 0x22 ∧ b ≠ 0x5c) : s.run bytes = .ok s := by
  induction bytes with
  | nil => rfl
  | cons b rest ih =>
    obtain ⟨visible, notQuote, notSlash⟩ := h b (.head _)
    have step : s.step b = .ok s := by
      simp only [step, here, inString, if_neg notQuote, if_neg notSlash,
        if_neg (UInt8.not_lt.2 visible)]
    exact run_cons.2 ⟨s, step, ih fun b hb => h b (.tail _ hb)⟩

theorem Checker.run_code {x y z w : UInt8} (here : s.place = .inString)
    (hex : ∀ b ∈ [x, y, z, w], isHexDigit b = true) :
    s.run [0x5c, 0x75, x, y, z, w] = .ok s := by
  have back : ({ s with place := .inString } : Checker) = s := by rw [← here]
  simp only [List.mem_cons, List.not_mem_nil, or_false, forall_eq_or_imp, forall_eq] at hex
  obtain ⟨hx, hy, hz, hw⟩ := hex
  simp only [run, step, here]
  simp [inString, goto, inEscape, inCode, hx, hy, hz, hw, back]

theorem Escaped.run (h : Escaped c bytes) (here : s.place = .inString) : s.run bytes = .ok s := by
  have back : ({ s with place := .inString } : Checker) = s := by rw [← here]
  cases h with
  | short b known =>
    have step : ({ s with place := .inEscape } : Checker).step b = .ok s := by
      simp only [List.mem_cons, List.not_mem_nil, or_false] at known
      rw [← back]
      obtain rfl | rfl | rfl | rfl | rfl | rfl | rfl | rfl := known <;> rfl
    refine run_cons.2 ⟨{ s with place := .inEscape }, ?_, run_cons.2 ⟨s, step, rfl⟩⟩
    simp only [Checker.step, here]
    rfl
  | code a b c d hex => exact run_code here hex
  | pair a b c d a' b' c' d' hex =>
    exact (run_append (a := [0x5c, 0x75, a, b, c, d])).2
      ⟨s, run_code here fun x hx => hex x (List.mem_append_left [a', b', c', d'] hx),
        run_code here fun x hx => hex x (List.mem_append_right [a, b, c, d] hx)⟩
  | plain c visible notQuote notSlash => exact run_text here (plain_bytes visible notQuote notSlash)

theorem cutValue_bytes (h : ∀ b ∈ bytes, b ≠ 0x22 ∧ b ≠ 0x5c) :
    cutValue depth .string taken (bytes ++ rest) =
    cutValue depth .string (taken ++ bytes) rest := by
  induction bytes generalizing taken with
  | nil => simp
  | cons b more ih =>
    obtain ⟨notQuote, notSlash⟩ := h b (.head _)
    rw [List.cons_append, cutValue_text notQuote notSlash,
      ih fun b hb => h b (List.mem_cons_of_mem _ hb)]
    simp

theorem cutValue_code {x y z w : UInt8} (hex : ∀ b ∈ [x, y, z, w], isHexDigit b = true) :
    cutValue depth .string taken ([0x5c, 0x75, x, y, z, w] ++ rest) =
      cutValue depth .string (taken ++ [0x5c, 0x75, x, y, z, w]) rest := by
  have solid : ∀ b ∈ [x, y, z, w], b ≠ 0x22 ∧ b ≠ 0x5c := fun b hb =>
    ⟨fun h => absurd (hex b hb) (by rw [h]; decide), fun h => absurd (hex b hb) (by rw [h]; decide)⟩
  have start : cutValue depth .string taken ([0x5c, 0x75, x, y, z, w] ++ rest) =
      cutValue depth .string ((taken.push 0x5c).push 0x75) ([x, y, z, w] ++ rest) := by
    simp [cutValue]
  rw [start, cutValue_bytes solid]
  simp

theorem Escaped.cut (h : Escaped c bytes) :
    cutValue depth .string taken (bytes ++ rest) =
    cutValue depth .string (taken ++ bytes) rest := by
  cases h with
  | short => simp [cutValue]
  | code a b c d hex => rw [cutValue_code hex]
  | pair a b c d a' b' c' d' hex =>
    have joined : [0x5c, 0x75, a, b, c, d, 0x5c, 0x75, a', b', c', d'] ++ rest =
      [0x5c, 0x75, a, b, c, d] ++ ([0x5c, 0x75, a', b', c', d'] ++ rest) := rfl
    rw [joined, cutValue_code fun x hx => hex x (List.mem_append_left [a', b', c', d'] hx),
      cutValue_code fun x hx => hex x (List.mem_append_right [a, b, c, d] hx)]
    simp
  | plain c visible notQuote notSlash =>
    exact cutValue_bytes fun b hb => (plain_bytes visible notQuote notSlash b hb).2

theorem Escaped.first (h : Escaped c bytes) (rest : List UInt8) :
    ∃ a more, bytes ++ rest = a :: more ∧ a ≠ 0x22 ∧ firstChar a more = (c, rest) := by
  cases h with
  | short b known =>
    refine ⟨0x5c, b :: rest, rfl, by decide, ?_⟩
    simp only [List.mem_cons, List.not_mem_nil, or_false] at known
    obtain rfl | rfl | rfl | rfl | rfl | rfl | rfl | rfl := known <;> rfl
  | code a b c d hex high low =>
    refine ⟨0x5c, 0x75 :: a :: b :: c :: d :: rest, rfl, by decide, ?_⟩
    simp [firstChar, ofUnit, high, low]
  | pair a b c d a' b' c' d' hex high low =>
    refine ⟨0x5c, [0x75, a, b, c, d, 0x5c, 0x75, a', b', c', d'] ++ rest, rfl, by decide, ?_⟩
    simp [firstChar, ofUnit, high, escapedUnit?, Option.filter, low]
  | plain c visible notQuote notSlash =>
    obtain ⟨a, more, split, first⟩ := Text.Utf8.first_encodeChar c rest
    have some : String.utf8EncodeChar c ≠ [] := by
      rw [String.utf8EncodeChar]
      repeat' split
      all_goals simp
    have ha : a ∈ String.utf8EncodeChar c := by
      obtain ⟨a', tail, here⟩ := List.exists_cons_of_ne_nil some
      rw [here, List.cons_append, List.cons.injEq] at split
      rw [here, ← split.1]
      exact .head _
    obtain ⟨-, hq, hs⟩ := plain_bytes visible notQuote notSlash a ha
    exact ⟨a, more, split, hq, by rw [firstChar.eq_def, if_neg hs, first]⟩

theorem code_visible {x y z w : UInt8} (hex : ∀ b ∈ [x, y, z, w], isHexDigit b = true) :
    ∀ b ∈ [0x5c, 0x75, x, y, z, w], 0x20 ≤ b := by
  refine List.forall_mem_cons.2 ⟨by decide, List.forall_mem_cons.2 ⟨by decide, fun b hb => ?_⟩⟩
  have digit := hex b hb
  simp only [isHexDigit, isDigit, Bool.or_eq_true, Bool.and_eq_true, decide_eq_true_eq,
    UInt8.le_iff_toNat_le] at digit ⊢
  simp at digit ⊢
  omega

theorem Escaped.visible (h : Escaped c bytes) : ∀ b ∈ bytes, 0x20 ≤ b := by
  cases h with
  | short b known =>
    simp only [List.mem_cons, List.not_mem_nil, or_false] at known
    obtain rfl | rfl | rfl | rfl | rfl | rfl | rfl | rfl := known <;> simp [UInt8.le_iff_toNat_le]
  | code a b c d hex => exact code_visible hex
  | pair a b c d a' b' c' d' hex =>
    intro x hx
    obtain hx | hx := List.mem_append.1
      (show x ∈ [0x5c, 0x75, a, b, c, d] ++ [0x5c, 0x75, a', b', c', d'] from hx)
    · exact code_visible (fun y hy => hex y (List.mem_append_left [a', b', c', d'] hy)) x hx
    · exact code_visible (fun y hy => hex y (List.mem_append_right [a, b, c, d] hy)) x hx
  | plain c visible notQuote notSlash =>
    exact fun b hb => (plain_bytes visible notQuote notSlash b hb).1

end Escapes

/-- What stands between the quotes of a string. -/
inductive Spells : List Char → List UInt8 → Prop
  | nil : Spells [] []
  | cons {c : Char} {cs : List Char} {bytes more : List UInt8} (here : Escaped c bytes)
      (rest : Spells cs more) :
      Spells (c :: cs) (bytes ++ more)

def Literal (text : String) (raw : Raw) : Prop :=
  ∃ bytes, Spells text.toList bytes ∧ raw = 0x22 :: (bytes ++ [0x22])

theorem spells_escapeBytes (cs : List Char) : Spells cs (cs.flatMap escapeBytes) := by
  induction cs with
  | nil => exact .nil
  | cons c rest ih => exact .cons (escaped c) ih

theorem literal_quote (text : String) : Literal text (encode (quote text)) :=
  ⟨_, spells_escapeBytes _, encode_quote text⟩

namespace Spells
variable {cs : List Char} {bytes : List UInt8} (h : Spells cs bytes)
include h

theorem run {s : Checker} (here : s.place = .inString) : s.run bytes = .ok s := by
  induction h with
  | nil => rfl
  | cons escaped rest ih => exact Checker.run_append.2 ⟨s, escaped.run here, ih⟩

theorem cut : cutValue depth .string taken (bytes ++ rest) =
    cutValue depth .string (taken ++ bytes) rest := by
  induction h generalizing taken with
  | nil => simp
  | @cons c cs bytes more escaped _ ih =>
    have joined : taken ++ bytes ++ more = taken ++ (bytes ++ more) := Array.ext' (by simp)
    rw [List.append_assoc, escaped.cut, ih, joined]

theorem unescapeOnto (read : Array Char) (rest : List UInt8) :
    unescapeOnto read (bytes ++ 0x22 :: rest) = read ++ cs := by
  induction h generalizing read with
  | nil => simp [Json.unescapeOnto]
  | @cons c cs bytes more escaped _ ih =>
    obtain ⟨a, tail, split, open_, first⟩ := escaped.first (more ++ 0x22 :: rest)
    rw [List.append_assoc, split, Json.unescapeOnto, if_neg open_, first, ih]
    simp

theorem visible : ∀ b ∈ bytes, 0x20 ≤ b := by
  induction h with
  | nil => simp
  | cons escaped _ ih => exact List.forall_mem_append.2 ⟨escaped.visible, ih⟩

end Spells

namespace Literal
variable {text : String} {raw : Raw} (h : Literal text raw)
include h

theorem run {s : Checker} (begins : s.step 0x22 = .ok { s with place := .inString }) :
    s.run raw = .ok { s with place := .afterValue } := by
  obtain ⟨bytes, spells, rfl⟩ := h
  exact Checker.run_cons.2 ⟨_, begins, Checker.run_append.2 ⟨_, spells.run rfl, rfl⟩⟩

theorem take (rest : List UInt8) : takeValue (raw ++ rest) = (raw, rest) := by
  obtain ⟨bytes, spells, rfl⟩ := h
  have opening : takeValue (0x22 :: (bytes ++ [0x22]) ++ rest) = cutValue 0 .string #[0x22]
      (bytes ++ (0x22 :: rest)) := by
    rw [List.cons_append, List.append_assoc]
    rfl
  rw [opening, spells.cut, cutValue_quote, if_pos rfl]
  simp

theorem unquote : unquote raw = text := by
  obtain ⟨bytes, spells, rfl⟩ := h
  rw [Json.unquote, List.tail_cons, spells.unescapeOnto]
  simp

theorem string? : string? raw = some text := by
  have kind : Raw.kind raw = .string := by
    obtain ⟨bytes, spells, rfl⟩ := h
    rfl
  rw [Json.string?, kind]
  simp only [h.unquote]

theorem visible : ∀ b ∈ raw, 0x20 ≤ b := by
  obtain ⟨bytes, spells, rfl⟩ := h
  refine List.forall_mem_cons.2 ⟨by decide, List.forall_mem_append.2 ⟨spells.visible, ?_⟩⟩
  simp [UInt8.le_iff_toNat_le]

end Literal

/-- A value without parts: the checker reads it, and it is cut off where another member or the end
of the object follows. -/
structure Scalar (raw : Raw) : Prop where
  run : ∀ s : Checker, s.place = .beforeValue → ∃ place, s.run raw = .ok { s with place } ∧
    place.hasEnded = true
  cut : ∀ b rest, b = 0x2c ∨ b = 0x7d → takeValue (raw ++ b :: rest) = (raw, b :: rest)
  visible : ∀ b ∈ raw, 0x20 ≤ b

theorem Literal.scalar {text : String} {raw : Raw} (h : Literal text raw) : Scalar raw where
  run s here := ⟨.afterValue, h.run (by rw [Checker.step, here]; rfl), rfl⟩
  cut _ _ _ := h.take _
  visible := h.visible

theorem scalar_bool (value : Bool) : Scalar (encode (if value then "true" else "false")) := by
  have yes : encode "true" = [0x74, 0x72, 0x75, 0x65] := rfl
  have no : encode "false" = [0x66, 0x61, 0x6c, 0x73, 0x65] := rfl
  cases value with
  | true =>
    refine ⟨fun s here => ⟨.afterValue, ?_, rfl⟩, ?_, ?_⟩
    · refine Checker.run_cons.2 ⟨{ s with place := .inWord "true" ['r', 'u', 'e'] }, ?_, rfl⟩
      rw [Checker.step, here]
      rfl
    · rintro b rest (rfl | rfl) <;> rfl
    · simp [yes, UInt8.le_iff_toNat_le]
  | false =>
    refine ⟨fun s here => ⟨.afterValue, ?_, rfl⟩, ?_, ?_⟩
    · refine Checker.run_cons.2 ⟨{ s with place := .inWord "false" ['a', 'l', 's', 'e'] }, ?_, rfl⟩
      rw [Checker.step, here]
      rfl
    · rintro b rest (rfl | rfl) <;> rfl
    · simp [no, UInt8.le_iff_toNat_le]

section Numbers
variable {d : UInt8} {bytes ds : List UInt8} {s : Checker}

theorem isDigit_iff : isDigit b = true ↔ 48 ≤ b.toNat ∧ b.toNat ≤ 57 := by
  simp only [isDigit, Bool.and_eq_true, decide_eq_true_eq, UInt8.le_iff_toNat_le]
  rfl

theorem Checker.step_first_digit (here : s.place = .beforeValue ∨ s.place = .afterMinus)
    (digit : isDigit b = true) :
    s.step b = .ok { s with place := if b = 0x30 then .afterZero else .inWhole } := by
  have known : b = 0x30 ∨ b = 0x31 ∨ b = 0x32 ∨ b = 0x33 ∨ b = 0x34 ∨ b = 0x35 ∨ b = 0x36 ∨
      b = 0x37 ∨ b = 0x38 ∨ b = 0x39 := by
    have := isDigit_iff.1 digit
    simp only [← UInt8.toNat_inj]
    simp
    omega
  obtain here | here := here <;> rw [step, here] <;>
    obtain rfl | rfl | rfl | rfl | rfl | rfl | rfl | rfl | rfl | rfl := known <;> rfl

theorem Checker.run_digits (here : s.place = .inWhole) (digits : ∀ b ∈ bytes, isDigit b = true) :
    s.run bytes = .ok s := by
  induction bytes with
  | nil => rfl
  | cons b rest ih =>
    refine run_cons.2 ⟨s, ?_, ih fun b hb => digits b (.tail _ hb)⟩
    simp only [step, here, digits b List.mem_cons_self, if_true]

theorem Checker.run_whole (here : s.place = .beforeValue ∨ s.place = .afterMinus)
    (digits : ∀ b ∈ d :: ds, isDigit b = true) (short : d = 0x30 → ds = []) :
    ∃ place, s.run (d :: ds) = .ok { s with place } ∧ place.hasEnded = true := by
  have first := step_first_digit here (digits d (.head _))
  by_cases zero : d = 0x30
  · rw [if_pos zero] at first
    exact ⟨.afterZero, run_cons.2 ⟨_, first, by rw [short zero]; rfl⟩, rfl⟩
  · rw [if_neg zero] at first
    exact ⟨.inWhole, run_cons.2 ⟨_, first, run_digits rfl fun b hb => digits b (.tail _ hb)⟩, rfl⟩

theorem cutValue_solid (h : ∀ b ∈ bytes, isMark b = false) :
    cutValue depth .plain taken (bytes ++ rest) = cutValue depth .plain (taken ++ bytes) rest := by
  induction bytes generalizing taken with
  | nil => simp
  | cons b more ih =>
    rw [List.cons_append, cutValue_other (h b List.mem_cons_self),
      ih fun b hb => h b (List.mem_cons_of_mem _ hb)]
    simp

theorem takeValue_solid (some : bytes ≠ []) (h : ∀ b ∈ bytes, isMark b = false)
    (ends : b = 0x2c ∨ b = 0x7d) :
    takeValue (bytes ++ b :: rest) = (bytes, b :: rest) := by
  obtain ⟨a, more, rfl⟩ := List.exists_cons_of_ne_nil some
  have solid : isSpace a = false := by
    have := h a (.head _)
    simp only [isMark, Bool.or_eq_false_iff] at this
    simp [this]
  have front : skipSpace ((a :: more) ++ b :: rest) = (a :: more) ++ b :: rest := by
    simp [skipSpace, solid]
  rw [takeValue, front, cutValue_solid h]
  obtain rfl | rfl := ends
  · rw [cutValue_separator (.inr rfl)]
    simp
  · rw [cutValue_close (.inr rfl)]
    simp

theorem digits_visible (digits : ∀ b ∈ bytes, isDigit b = true) : ∀ b ∈ bytes, 0x20 ≤ b := by
  intro b hb
  have := (isDigit_iff.1 (digits b hb)).1
  rw [UInt8.le_iff_toNat_le]
  simp
  omega

theorem scalar_whole (digits : ∀ b ∈ d :: ds, isDigit b = true) (short : d = 0x30 → ds = []) :
    Scalar (d :: ds) where
  run _ here := Checker.run_whole (.inl here) digits short
  cut _ _ ends := takeValue_solid (by simp) (fun b hb => Checker.isMark_of_digit (digits b hb)) ends
  visible := digits_visible digits

theorem scalar_negative (digits : ∀ b ∈ d :: ds, isDigit b = true) (short : d = 0x30 → ds = []) :
    Scalar (0x2d :: d :: ds) where
  run s here := by
    obtain ⟨place, run, ended⟩ :=
      Checker.run_whole (s := { s with place := .afterMinus }) (.inr rfl) digits short
    exact ⟨place, Checker.run_cons.2 ⟨_, by rw [Checker.step, here]; rfl, run⟩, ended⟩
  cut _ _ ends := takeValue_solid (by simp)
    (List.forall_mem_cons.2 ⟨rfl, fun b hb => Checker.isMark_of_digit (digits b hb)⟩) ends
  visible := List.forall_mem_cons.2 ⟨by simp [UInt8.le_iff_toNat_le], digits_visible digits⟩

theorem digit_byte (h : c.isDigit = true) :
    ∃ b, String.utf8EncodeChar c = [b] ∧ isDigit b = true ∧ (b = 0x30 → c = '0') := by
  have bounds : 48 ≤ c.toNat ∧ c.toNat ≤ 57 := by
    simp only [Char.isDigit, Bool.and_eq_true, decide_eq_true_eq, UInt32.le_iff_toNat_le] at h
    exact h
  have byte : (UInt8.ofNat c.toNat).toNat = c.toNat := Text.Utf8.toNat_byte (by omega)
  refine ⟨UInt8.ofNat c.toNat, ?_, isDigit_iff.2 (by rwa [byte]), fun zero => ?_⟩
  · rw [String.utf8EncodeChar]
    exact if_pos (Nat.le_trans bounds.2 (by decide))
  · rw [zero] at byte
    exact Char.toNat_inj.1 byte.symm

theorem digit_bytes (n : Nat) :
    ∃ d ds, (Nat.toDigits 10 n).flatMap String.utf8EncodeChar = d :: ds ∧
    (∀ b ∈ d :: ds, isDigit b = true) ∧ (d = 0x30 → ds = []) := by
  have digits : ∀ b ∈ (Nat.toDigits 10 n).flatMap String.utf8EncodeChar, isDigit b = true := by
    intro b hb
    obtain ⟨c, hc, hb⟩ := List.mem_flatMap.1 hb
    obtain ⟨b', bytes, digit, -⟩ := digit_byte (Text.Numeral.isDigit_toDigits n c hc)
    rw [bytes, List.mem_singleton] at hb
    rwa [hb]
  cases n with
  | zero => exact ⟨0x30, [], rfl, digits, fun _ => rfl⟩
  | succ n =>
    obtain ⟨c, rest, here, notZero⟩ := Text.Numeral.toDigits_head (Nat.succ_pos n)
    obtain ⟨b, bytes, -, zero⟩ :=
      digit_byte (Text.Numeral.isDigit_toDigits (n + 1) c (by rw [here]; exact (.head _)))
    rw [here, List.flatMap_cons, bytes] at digits ⊢
    exact ⟨b, _, rfl, digits, fun h => absurd (zero h) notZero⟩

theorem encode_int (n : Int) : encode (toString n) =
    (if n < 0 then [0x2d] else []) ++ (Nat.toDigits 10 n.natAbs).flatMap String.utf8EncodeChar := by
  rw [Int.toString_eq_repr, Text.Utf8.encode_eq]
  cases n with
  | ofNat => simp [Int.repr, Nat.toList_repr]
  | negSucc m =>
    have minus : "-".toList = ['-'] := rfl
    rw [Int.repr, String.toList_append, Nat.toList_repr, minus, if_pos (Int.negSucc_lt_zero m)]
    rfl

theorem scalar_int (n : Int) : Scalar (encode (toString n)) := by
  obtain ⟨d, ds, bytes, digits, short⟩ := digit_bytes n.natAbs
  rw [encode_int, bytes]
  split
  · exact scalar_negative digits short
  · exact scalar_whole digits short

theorem kind_int (n : Int) : Raw.kind (encode (toString n)) = .number := by
  obtain ⟨d, ds, bytes, digits, -⟩ := digit_bytes n.natAbs
  rw [encode_int, bytes]
  split
  · rfl
  · have digit := isDigit_iff.1 (digits d (.head _))
    rw [List.nil_append, Raw.kind, Kind.ofByte]
    split <;> first | rfl | (rename_i mark; rw [ofNat_byte] at mark; simp at mark; omega)

theorem int_toString {n : Int} (low : -9223372036854775808 ≤ n) (high : n < 9223372036854775808)
    (absent : Int) :
    int (encode (toString n)) absent = .ok n := by
  rw [int, kind_int]
  simp only [Text.Utf8.decode_encode, Int.toString_eq_repr, Text.Numeral.signed_repr low high]

end Numbers

/-- A member of an object: its name as a string, a colon and a value without parts. -/
def Member (m : String × Raw) (bytes : List UInt8) : Prop :=
  ∃ key, Literal m.1 key ∧ Scalar m.2 ∧ bytes = key ++ 0x3a :: m.2

/-- What follows a member: the others, each after a comma, and the closing bracket. -/
inductive Others : List (String × Raw) → List UInt8 → Prop
  | nil : Others [] [0x7d]
  | cons {m : String × Raw} {ms : List (String × Raw)} {bytes more : List UInt8}
      (here : Member m bytes) (rest : Others ms more) : Others (m :: ms) (0x2c :: (bytes ++ more))

section Objects
variable {s : Checker} {m : String × Raw} {ms : List (String × Raw)} {bytes more : List UInt8}

theorem Others.ends (h : Others ms bytes) :
    ∃ b rest, bytes = b :: rest ∧ (b = 0x2c ∨ b = 0x7d) := by
  cases h with
  | nil => exact ⟨_, _, rfl, .inr rfl⟩
  | cons => exact ⟨_, _, rfl, .inl rfl⟩

theorem Member.begins (h : Member m bytes) : ∃ more, bytes = 0x22 :: more := by
  obtain ⟨_, ⟨_, -, rfl⟩, -, rfl⟩ := h
  exact ⟨_, rfl⟩

theorem Checker.step_ended (ended : s.place.hasEnded) (ends : b = 0x2c ∨ b = 0x7d) :
    s.step b = s.afterValue b := by
  have solid : isDigit b = false ∧ b ≠ 0x2e ∧ b ≠ 0x65 ∧ b ≠ 0x45 := by
    obtain rfl | rfl := ends <;> simp [isDigit, UInt8.le_iff_toNat_le]
  rw [step]
  cases here : s.place <;> simp_all [Place.hasEnded, afterZero]

theorem Member.run (h : Member m bytes) (here : s.place = .beforeFirstKey ∨ s.place = .beforeKey)
    (opened : s.opened = [.key]) :
    ∃ place, s.run bytes = .ok { s with place, opened := [.member] } ∧ place.hasEnded = true := by
  obtain ⟨key, literal, scalar, rfl⟩ := h
  have begins : s.step 0x22 = .ok { s with place := .inString } := by
    obtain here | here := here <;> rw [Checker.step, here] <;> rfl
  have colon : ({ s with place := .afterValue } : Checker).step 0x3a = .ok
      { s with place := .beforeValue, opened := [.member] } := by
    simp only [Checker.step, Checker.afterValue, opened]
    rfl
  obtain ⟨place, run, ended⟩ := scalar.run { s with place := .beforeValue, opened := [.member] } rfl
  exact ⟨place, Checker.run_append.2
    ⟨_, literal.run begins, Checker.run_cons.2 ⟨_, colon, run⟩⟩, ended⟩

theorem Others.run (h : Others ms bytes) (ended : s.place.hasEnded)
    (opened : s.opened = [.member]) :
    s.run bytes = .ok { place := .afterValue, opened := [], depth := s.depth - 1 } := by
  induction h generalizing s with
  | nil =>
    refine Checker.run_cons.2 ⟨_, ?_, rfl⟩
    rw [Checker.step_ended ended (.inr rfl), Checker.afterValue, opened]
    simp [isSpace, Checker.afterInner, Checker.leave, opened]
  | cons member _ ih =>
    have comma : s.step 0x2c = .ok { s with place := .beforeKey, opened := [.key] } := by
      rw [Checker.step_ended ended (.inl rfl), Checker.afterValue, opened]
      rfl
    obtain ⟨place, run, ended⟩ :=
      member.run (s := { s with place := .beforeKey, opened := [.key] }) (.inr rfl) rfl
    exact Checker.run_cons.2 ⟨_, comma, Checker.run_append.2 ⟨_, run, ih ended rfl⟩⟩

theorem Member.membersFrom (h : Member m bytes) (ends : b = 0x2c ∨ b = 0x7d) :
    membersFrom read (n + 1) (bytes ++ b :: rest) = membersFrom (read.push m) n (b :: rest) := by
  obtain ⟨more, start⟩ := h.begins
  obtain ⟨key, literal, scalar, rfl⟩ := h
  have front : skipSpace (key ++ 0x3a :: m.2 ++ b :: rest) = 0x22 :: (more ++ b :: rest) := by
    rw [start]
    rfl
  have name : takeValue (0x22 :: (more ++ b :: rest)) = (key, 0x3a :: (m.2 ++ b :: rest)) := by
    rw [← List.cons_append, ← start, List.append_assoc]
    exact literal.take _
  have value : takeValue ((skipSpace (0x3a :: (m.2 ++ b :: rest))).drop 1) = (m.2, b :: rest) :=
    scalar.cut b rest ends
  rw [Json.membersFrom, front]
  simp only [name, value, literal.unquote]

theorem membersFrom_comma : membersFrom read (n + 1) (0x2c :: rest) = membersFrom read n rest := rfl

theorem Others.membersFrom (h : Others ms bytes) (enough : bytes.length ≤ n)
    (read : Array (String × Raw)) :
    membersFrom read n bytes = read ++ ms := by
  induction h generalizing n read with
  | nil => cases n <;> simp [Json.membersFrom, skipSpace, isSpace]
  | @cons m ms bytes more member others ih =>
    obtain ⟨b, tail, follows, ends⟩ := others.ends
    obtain ⟨_, key⟩ := member.begins
    have long : more.length + 2 ≤ n := by
      rw [key] at enough
      simp only [List.length_cons, List.length_append] at enough
      omega
    obtain ⟨n, rfl⟩ : ∃ k, n = k + 2 := ⟨n - 2, by omega⟩
    rw [membersFrom_comma, follows, member.membersFrom ends, ← follows, ih (by omega)]
    simp

theorem members_object (first : Member m bytes) (others : Others ms more) :
    members (0x7b :: (bytes ++ more)) = .ok (m :: ms) := by
  have checked : check (0x7b :: (bytes ++ more)) = .ok () := by
    obtain ⟨place, run, ended⟩ := first.run (s := ⟨.beforeFirstKey, [.key], 1⟩) (.inl rfl) rfl
    exact check_ok.2 ⟨⟨.afterValue, [], 0⟩,
      Checker.run_cons.2 ⟨_, rfl, Checker.run_append.2 ⟨_, run, others.run ended rfl⟩⟩, rfl, rfl⟩
  obtain ⟨b, tail, follows, ends⟩ := others.ends
  have front : skipSpace (0x7b :: (bytes ++ more)) = 0x7b :: (bytes ++ more) := rfl
  have length : more.length ≤ (bytes ++ more).length := by simp
  have kind : Kind.ofByte 0x7b = .object := rfl
  rw [members, checked]
  simp only [front, kind, List.length_cons]
  rw [follows, first.membersFrom ends, ← follows, others.membersFrom length]
  simp

theorem Member.visible (h : Member m bytes) : ∀ b ∈ bytes, 0x20 ≤ b := by
  obtain ⟨key, literal, scalar, rfl⟩ := h
  exact List.forall_mem_append.2
    ⟨literal.visible, List.forall_mem_cons.2 ⟨by decide, scalar.visible⟩⟩

theorem Others.visible (h : Others ms bytes) : ∀ b ∈ bytes, 0x20 ≤ b := by
  induction h with
  | nil => simp [UInt8.le_iff_toNat_le]
  | cons member _ ih =>
    exact List.forall_mem_cons.2 ⟨by decide, List.forall_mem_append.2 ⟨member.visible, ih⟩⟩

theorem Others.getLast? (h : Others ms bytes) : bytes.getLast? = some 0x7d := by
  induction h with
  | nil => rfl
  | cons _ _ ih => rw [List.getLast?_cons, List.getLast?_append, ih]; rfl

end Objects
end TxHeap.Json
