import TxHeap.Text.Lines
import TxHeap.Text.Numeral
import TxHeap.Text.Utf8

/-! Characters, lines and decimal numbers are read back as they are written. -/

namespace TxHeap.Text.Utf8
variable {n : Nat} {k : UInt8}

theorem toList_decodeOnto (read : Array Char) (bytes : List UInt8) :
    (decodeOnto read bytes).toList = read.toList ++ decode bytes := by
  induction h : bytes.length using Nat.strongRecOn generalizing read bytes with
  | ind n ih =>
    subst h
    cases bytes with
    | nil => simp [decode, decodeOnto]
    | cons a rest =>
      have shorter := Nat.lt_succ_of_le (length_first a rest)
      rw [decode, decodeOnto, decodeOnto, ih _ shorter (read.push _) _ rfl,
        ih _ shorter (Array.push #[] _) _ rfl]
      simp

@[simp] theorem decode_nil : decode [] = [] := by simp [decode, decodeOnto]

theorem decode_cons (a : UInt8) (rest : List UInt8) :
    decode (a :: rest) = (first a rest).1 :: decode (first a rest).2 := by
  rw [decode, decodeOnto, toList_decodeOnto]
  simp

section First
variable {a b c d : UInt8} {ch : Char} {rest : List UInt8}

theorem first_ascii (h : a < 0x80) : first a rest = (Char.ofNat a.toNat, rest) := by
  rw [first.eq_def, if_pos h]

theorem first_two (h : ¬ a < 0x80) (two : two? a b = some ch) :
    first a (b :: rest) = (ch, rest) := by
  simp only [first, if_neg h, two]

theorem first_three (h : ¬ a < 0x80) (two : two? a b = none) (three : three? a b c = some ch) :
    first a (b :: c :: rest) = (ch, rest) := by
  simp only [first, if_neg h, two, three]

theorem first_four (h : ¬ a < 0x80) (two : two? a b = none) (three : three? a b c = none)
    (four : four? a b c d = some ch) :
    first a (b :: c :: d :: rest) = (ch, rest) := by
  simp only [first, if_neg h, two, three, four]

end First

theorem toNat_byte (h : n < 256) : (UInt8.ofNat n).toNat = n := by
  rw [UInt8.toNat_ofNat', Nat.mod_eq_of_lt h]

theorem le_byte (h : n < 256) : k ≤ UInt8.ofNat n ↔ k.toNat ≤ n := by
  rw [UInt8.le_iff_toNat_le, toNat_byte h]

theorem byte_le (h : n < 256) : UInt8.ofNat n ≤ k ↔ n ≤ k.toNat := by
  rw [UInt8.le_iff_toNat_le, toNat_byte h]

theorem byte_lt (h : n < 256) : UInt8.ofNat n < k ↔ n < k.toNat := by
  rw [UInt8.lt_iff_toNat_lt, toNat_byte h]

theorem isTail_byte (h : n < 64) : isTail (UInt8.ofNat (n + 128)) = true ∧
    tailBits (UInt8.ofNat (n + 128)) = n := by
  have small : n + 128 < 256 := by omega
  rw [isTail, tailBits, toNat_byte small, Bool.and_eq_true, decide_eq_true_eq, decide_eq_true_eq,
    le_byte small, byte_le small]
  exact ⟨⟨Nat.le_add_left .., Nat.le_of_lt_succ (Nat.add_lt_add_right h 128)⟩, by omega⟩

theorem first_encodeChar (c : Char) (rest : List UInt8) :
    ∃ a more, String.utf8EncodeChar c ++ rest = a :: more ∧ first a more = (c, rest) := by
  obtain ⟨v, hv⟩ : ∃ v, v = c.toNat := ⟨_, rfl⟩
  have char : Char.ofNat v = c := by rw [hv, Char.ofNat_toNat]
  have valid : v < 0xd800 ∨ 0xdfff < v ∧ v < 0x110000 := hv ▸ c.valid
  rw [String.utf8EncodeChar]
  simp only [show c.val.toNat = v from hv.symm]
  have tail : ∀ n, isTail (UInt8.ofNat (n % 64 + 128)) = true ∧
      tailBits (UInt8.ofNat (n % 64 + 128)) = n % 64 :=
    fun n => isTail_byte (Nat.mod_lt _ (by decide))
  -- The number of bytes follows from the first of them, so the shorter forms do not fit.
  by_cases one : v ≤ 127
  · refine ⟨_, rest, by rw [if_pos one]; rfl, ?_⟩
    have small : v < 256 := by omega
    rw [first_ascii ((byte_lt small).2 (Nat.lt_succ_of_le one)), toNat_byte small, char]
  by_cases two : v ≤ 2047
  · refine ⟨_, _, by rw [if_neg one, if_pos two]; rfl, ?_⟩
    have small : v / 64 % 32 + 192 < 256 := by omega
    have bits : (v / 64 % 32 + 192) % 32 * 64 + v % 64 = v := by omega
    refine first_two (fun h => absurd ((byte_lt small).1 h) (by simp)) ?_
    have low : 0xc2 ≤ UInt8.ofNat (v / 64 % 32 + 192) := (le_byte small).2 (by simp; omega)
    have high : UInt8.ofNat (v / 64 % 32 + 192) ≤ 0xdf := (byte_le small).2 (by simp; omega)
    rw [two?, toNat_byte small, (tail v).2, bits, if_pos ⟨low, high, (tail v).1⟩, char]
  by_cases three : v ≤ 65535
  · refine ⟨_, _, by rw [if_neg one, if_neg two, if_pos three]; rfl, ?_⟩
    have small : v / 4096 % 16 + 224 < 256 := by omega
    have bits : (v / 4096 % 16 + 224) % 16 * 4096 + v / 64 % 64 * 64 + v % 64 = v := by omega
    refine first_three (fun h => absurd ((byte_lt small).1 h) (by simp)) ?_ ?_
    · exact if_neg fun h => absurd ((byte_le small).1 h.2.1) (by simp)
    · have low : 0xe0 ≤ UInt8.ofNat (v / 4096 % 16 + 224) := (le_byte small).2 (by simp)
      have high : UInt8.ofNat (v / 4096 % 16 + 224) ≤ 0xef := (byte_le small).2 (by simp; omega)
      rw [three?, toNat_byte small, (tail v).2, (tail (v / 64)).2, bits,
        if_pos ⟨low, high, (tail _).1, (tail _).1, by omega, by omega⟩, char]
  · refine ⟨_, _, by rw [if_neg one, if_neg two, if_neg three]; rfl, ?_⟩
    have small : v / 262144 % 8 + 240 < 256 := by omega
    have bits : (v / 262144 % 8 + 240) % 8 * 262144 + v / 4096 % 64 * 4096 + v / 64 % 64 * 64 + v %
        64 = v := by omega
    refine first_four (fun h => absurd ((byte_lt small).1 h) (by simp)) ?_ ?_ ?_
    · exact if_neg fun h => absurd ((byte_le small).1 h.2.1) (by simp)
    · exact if_neg fun h => absurd ((byte_le small).1 h.2.1) (by simp)
    · have low : 0xf0 ≤ UInt8.ofNat (v / 262144 % 8 + 240) := (le_byte small).2 (by simp)
      have high : UInt8.ofNat (v / 262144 % 8 + 240) ≤ 0xf4 := (byte_le small).2 (by simp; omega)
      rw [four?, toNat_byte small, (tail v).2, (tail (v / 64)).2, (tail (v / 4096)).2, bits,
        if_pos ⟨low, high, (tail _).1, (tail _).1, (tail _).1, by omega, by omega⟩, char]

theorem decode_flatMap (cs : List Char) (rest : List UInt8) :
    decode (cs.flatMap String.utf8EncodeChar ++ rest) = cs ++ decode rest := by
  induction cs with
  | nil => rfl
  | cons c cs ih =>
    obtain ⟨a, more, bytes, char⟩ := first_encodeChar c (cs.flatMap String.utf8EncodeChar ++ rest)
    rw [List.flatMap_cons, List.append_assoc, bytes, decode_cons, char, ih]
    rfl

theorem encode_eq (s : String) : encode s = s.toList.flatMap String.utf8EncodeChar := by
  have bytes : s.toByteArray = s.toList.utf8Encode := by
    rw [← String.toByteArray_ofList, String.ofList_toList]
  rw [encode, String.toUTF8, bytes, List.utf8Encode, List.toList_data_toByteArray]

theorem decode_encode (s : String) : decode (encode s) = s.toList := by
  rw [encode_eq, ← List.append_nil (List.flatMap ..), decode_flatMap]
  simp

end TxHeap.Text.Utf8

namespace TxHeap.Text.Lines
variable {line : List UInt8} {lines : List (List UInt8)}

namespace Scan

theorem foldl_push (lines : List (List UInt8)) (current bytes : List UInt8) :
    bytes.foldl push ⟨lines, current⟩ =
      ⟨(bytes.foldl push ⟨[], current⟩).lines ++ lines,
        (bytes.foldl push ⟨[], current⟩).current⟩ := by
  induction bytes generalizing lines current with
  | nil => rfl
  | cons b rest ih =>
    simp only [List.foldl_cons]
    by_cases hb : b = newline
    · simp only [push, if_pos hb]
      rw [ih (current.reverse :: lines), ih [current.reverse]]
      simp
    · simp only [push, if_neg hb]
      exact ih lines (b :: current)

theorem foldl_line (h : newline ∉ line) (lines : List (List UInt8)) (current : List UInt8) :
    line.foldl push ⟨lines, current⟩ = ⟨lines, line.reverse ++ current⟩ := by
  induction line generalizing current with
  | nil => rfl
  | cons b rest ih =>
    obtain ⟨hb, hrest⟩ := not_or.1 (mt List.mem_cons.2 h)
    rw [List.foldl_cons, push, if_neg (Ne.symm hb), ih hrest]
    simp

theorem not_mem_current (bytes current : List UInt8) (h : newline ∉ current)
    (lines : List (List UInt8)) :
    newline ∉ (bytes.foldl push ⟨lines, current⟩).current := by
  induction bytes generalizing lines current with
  | nil => exact h
  | cons b rest ih =>
    rw [List.foldl_cons]
    by_cases hb : b = newline
    · rw [push, if_pos hb]
      exact ih [] List.not_mem_nil _
    · rw [push, if_neg hb]
      exact ih _ (fun hm => (List.mem_cons.1 hm).elim (fun h => hb h.symm) h) _

end Scan

theorem split_append (a b : List UInt8) :
    split (a ++ b) = ((split a).1 ++ (split ((split a).2 ++ b)).1,
      (split ((split a).2 ++ b)).2) := by
  have fresh := Scan.not_mem_current a [] nofun []
  simp only [split, List.foldl_append]
  generalize a.foldl Scan.push {} = p at fresh ⊢
  have unfinished : newline ∉ p.current.reverse := fun h => fresh (List.mem_reverse.1 h)
  rw [Scan.foldl_line unfinished, Scan.foldl_push p.lines p.current b]
  simp

theorem split_line (h : newline ∉ line) (rest : List UInt8) :
    split (line ++ newline :: rest) = (line :: (split rest).1, (split rest).2) := by
  simp only [split, List.foldl_append, List.foldl_cons]
  rw [Scan.foldl_line h, Scan.push, if_pos rfl, Scan.foldl_push]
  simp

theorem split_unfinished (h : newline ∉ line) : split line = ([], line) := by
  simp only [split]
  rw [Scan.foldl_line h]
  simp

theorem join_cons (line : List UInt8) (lines : List (List UInt8)) :
    join (line :: lines) = line ++ newline :: join lines := by
  simp [join]

theorem split_join (h : ∀ l ∈ lines, newline ∉ l) : split (join lines) = (lines, []) := by
  induction lines with
  | nil => rfl
  | cons line rest ih =>
    rw [join_cons, split_line (h line List.mem_cons_self),
      ih fun l hl => h l (List.mem_cons_of_mem _ hl)]

theorem all_join (h : ∀ l ∈ lines, newline ∉ l) : all (join lines) = lines := by
  rw [all, split_join h]

theorem not_mem_unfinished (bytes : List UInt8) : newline ∉ (split bytes).2 := fun h =>
  Scan.not_mem_current bytes [] nofun [] (List.mem_reverse.1 h)

end TxHeap.Text.Lines

namespace TxHeap.Text.Numeral
variable {n : Nat}

theorem digit?_of_isDigit {c : Char} (h : c.isDigit = true) :
    digit? 10 c = some (c.toNat - '0'.toNat) := by
  have bounds : 48 ≤ c.toNat ∧ c.toNat ≤ 57 := by
    simp only [Char.isDigit, Bool.and_eq_true, decide_eq_true_eq, UInt32.le_iff_toNat_le] at h
    exact h
  have small : c.toNat - 48 < 10 := by omega
  simp [digit?, bounds, small]

theorem readFrom_digits {cs : List Char} (digits : ∀ c ∈ cs, c.isDigit = true)
    (fits : Nat.ofDigitChars 10 cs n < 18446744073709551616) :
    readFrom 10 false n cs = .ok (Nat.ofDigitChars 10 cs n) := by
  induction cs generalizing n with
  | nil => rw [readFrom, Nat.ofDigitChars_nil]
  | cons c rest ih =>
    rw [Nat.ofDigitChars_cons] at fits ⊢
    have least : 10 * n + (c.toNat - '0'.toNat) ≤ Nat.ofDigitChars 10 rest
        (10 * n + (c.toNat - '0'.toNat)) := by
      rw [Nat.ofDigitChars_eq_ofDigitChars_zero]
      exact Nat.le_trans (Nat.le_mul_of_pos_left _ (Nat.pow_pos (by decide))) (Nat.le_add_right ..)
    have here : n * 10 + (c.toNat - '0'.toNat) = 10 * n + (c.toNat - '0'.toNat) := by
      rw [Nat.mul_comm]
    rw [readFrom, digit?_of_isDigit (digits c List.mem_cons_self)]
    simp only [Bool.false_and, Bool.false_eq_true, if_false, here]
    rw [if_pos (Nat.lt_of_le_of_lt least fits)]
    exact ih (fun c hc => digits c (.tail _ hc)) fits

theorem isDigit_toDigits (n : Nat) : ∀ c ∈ Nat.toDigits 10 n, c.isDigit = true :=
  fun _ hc => Nat.isDigit_of_mem_toDigits (by decide) (by decide) hc

theorem decimal_toDigits (fits : n < 18446744073709551616) :
    decimal (Nat.toDigits 10 n) = .ok n := by
  have read := readFrom_digits (isDigit_toDigits n)
    (by rwa [Nat.ofDigitChars_toDigits (by decide) (by decide)])
  rw [Nat.ofDigitChars_toDigits (by decide) (by decide)] at read
  rw [decimal, if_neg (by simp), read]

theorem toDigits_head (pos : 0 < n) : ∃ d rest, Nat.toDigits 10 n = d :: rest ∧ d ≠ '0' := by
  induction n using Nat.strongRecOn with
  | ind n ih =>
    rw [Nat.toDigits_eq_if (by decide)]
    split
    · exact ⟨_, [], rfl, by simp; omega⟩
    · obtain ⟨d, rest, here, nonzero⟩ := ih (n / 10) (by omega) (by omega)
      exact ⟨d, rest ++ [(n % 10).digitChar], by rw [here]; rfl, nonzero⟩

theorem signed_repr {n : Int} (low : -9223372036854775808 ≤ n) (high : n < 9223372036854775808) :
    signed decimal n.repr.toList = .ok n := by
  cases n with
  | ofNat m =>
    have small : m < 9223372036854775808 := Int.ofNat_lt.1 high
    have first : ∀ c ∈ Nat.toDigits 10 m, c ≠ '-' ∧ c ≠ '+' := by
      intro c hc
      have := isDigit_toDigits m c hc
      constructor <;> rintro rfl <;> simp at this
    rw [Int.repr, Nat.toList_repr]
    obtain ⟨d, rest, here⟩ := List.exists_cons_of_ne_nil (Nat.toDigits_ne_nil)
    have read := decimal_toDigits (n := m) (by omega)
    rw [here] at first read ⊢
    obtain ⟨minus, plus⟩ := first d (.head _)
    have plain : signed decimal (d :: rest) = (do
        let n ← decimal (d :: rest)
        if n < 9223372036854775808 then return (n : Int) else throw .outOfRange) := by
      simp [signed]
      split <;> simp_all
    rw [plain, read]
    simp only [bind, Except.bind]
    rw [if_pos small]
    rfl
  | negSucc m =>
    have small : m + 1 ≤ 9223372036854775808 := by omega
    have text : (Int.negSucc m).repr.toList = '-' :: Nat.toDigits 10 (m + 1) := by
      rw [Int.repr, String.toList_append, Nat.toList_repr]
      rfl
    rw [text]
    simp only [signed, decimal_toDigits (n := m + 1) (by omega), bind, Except.bind, if_true]
    rw [if_pos small]
    rfl

end TxHeap.Text.Numeral
