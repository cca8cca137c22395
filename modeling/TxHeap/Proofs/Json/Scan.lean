import TxHeap.Json.Members
import TxHeap.Proofs.Text

/-! Where the members of an object end. The checker of the syntax and the scan that cuts values off
go along byte by byte, so nothing that follows a well-formed object counts for its members, and
white space alone is no value. -/

namespace TxHeap.Json
variable {b : UInt8} {c : Char} {s'' : Checker} {rest : List UInt8}

theorem ofNat_byte : Char.ofNat b.toNat = c ↔ b.toNat = c.toNat := by
  have valid : b.toNat.isValidChar := .inl (Nat.lt_of_lt_of_le b.toNat_lt (by decide))
  constructor
  · rintro rfl
    rw [Char.ofNat, dif_pos valid]
    rfl
  · intro h
    rw [h, Char.ofNat_toNat]

namespace Place

def isPlain : Place → Bool
  | inString | inEscape | inCode _ => false
  | _ => true

def isText : Place → Bool
  | inString | inCode _ => true
  | _ => false

def hasBegun : Place → Bool
  | inWord .. | afterMinus | afterZero | inWhole | afterPoint | inFraction | afterE | afterSign
    | inExponent | afterValue => true
  | _ => false

def hasEnded : Place → Bool
  | afterValue | afterZero | inWhole | inFraction | inExponent => true
  | _ => false

theorem isPlain_of_hasBegun (place : Place) (h : place.hasBegun) : place.isPlain := by
  cases place <;> first | rfl | cases h

end Place

def isMark (b : UInt8) : Bool :=
  isSpace b || b == 0x22 || b == 0x2c || b == 0x3a || b == 0x5b || b == 0x5d ||
    b == 0x7b || b == 0x7d

def Place.Sane : Place → Prop
  | inWord _ rest => rest ≠ [] ∧ ∀ c ∈ rest, 97 ≤ c.toNat ∧ c.toNat ≤ 122
  | _ => True

namespace Checker
variable {s s' : Checker}

inductive Moves (s : Checker) (b : UInt8) : Checker → Prop
  | wait (blank : isSpace b) (before : s.place.hasBegun = false) : Moves s b s
  | rest (blank : isSpace b) (ended : s.place.hasEnded) : Moves s b { s with place := .afterValue }
  | quote (here : b = 0x22) (before : s.place.hasBegun = false) :
      Moves s b { s with place := .inString }
  | enter (c : Container) (place : Place) (here : b = 0x7b ∧ c = .key ∧ place = .beforeFirstKey ∨
      b = 0x5b ∧ c = .element ∧ place = .beforeFirstElement) (before : s.place.hasBegun = false) :
      Moves s b { place, opened := c :: s.opened, depth := s.depth + 1 }
  | leave (here : b = 0x5d ∨ b = 0x7d)
      (last : s.place = .beforeFirstKey ∨ s.place = .beforeFirstElement ∨
      s.place.hasEnded ∧ ∃ c outer, s.opened = c :: outer ∧ c ≠ .key) :
        Moves s b { place := .afterValue, opened := s.opened.tail, depth := s.depth - 1 }
  | colon (outer : List Container) (here : b = 0x3a) (ended : s.place.hasEnded)
      (opened : s.opened = .key :: outer) :
      Moves s b { s with place := .beforeValue, opened := .member :: outer }
  | comma (outer : List Container) (here : b = 0x2c) (ended : s.place.hasEnded)
      (opened : s.opened = .member :: outer) :
      Moves s b { s with place := .beforeKey, opened := .key :: outer }
  | next (outer : List Container) (here : b = 0x2c) (ended : s.place.hasEnded)
      (opened : s.opened = .element :: outer) :
      Moves s b { s with place := .beforeValue }
  | other (place : Place) (plain : isMark b = false) (begun : place.hasBegun) (sane : place.Sane)
      (going : s.place ≠ .afterValue) : Moves s b { s with place }

theorem afterInner_moves {c : Container} {outer : List Container} (opened : s.opened = c :: outer)
    (ended : s.place.hasEnded) (h : s.afterInner b c outer = .ok s') : Moves s b s' := by
  have byte : ∀ {c : Char}, Char.ofNat b.toNat = c → ∀ n : UInt8, n.toNat = c.toNat → b = n :=
    fun h n hn => UInt8.toNat_inj.1 ((ofNat_byte.1 h).trans hn.symm)
  unfold afterInner at h
  split at h
  · cases h; exact .colon outer (byte ‹_› _ rfl) ended opened
  · cases h
  · cases h; exact .comma outer (byte ‹_› _ rfl) ended opened
  · cases h; exact .leave (.inr (byte ‹_› _ rfl)) (.inr (.inr ⟨ended, _, _, opened, by simp⟩))
  · cases h
  · cases h; exact .next outer (byte ‹_› _ rfl) ended opened
  · cases h; exact .leave (.inl (byte ‹_› _ rfl)) (.inr (.inr ⟨ended, _, _, opened, by simp⟩))
  · cases h

theorem afterValue_moves (ended : s.place.hasEnded) (h : s.afterValue b = .ok s') :
    Moves s b s' := by
  unfold afterValue at h
  split at h
  · cases h; exact .rest ‹_› ended
  · split at h
    · cases h
    · exact afterInner_moves ‹_› ended h

theorem isMark_of_e (h : b = 0x65 ∨ b = 0x45) : isMark b = false := by
  obtain rfl | rfl := h <;> rfl

theorem isMark_of_sign (h : b = 0x2b ∨ b = 0x2d) : isMark b = false := by
  obtain rfl | rfl := h <;> rfl

theorem afterZero_moves (going : s.place ≠ .afterValue) (ended : s.place.hasEnded)
    (h : s.afterZero b = .ok s') : Moves s b s' := by
  unfold afterZero at h
  split at h
  · subst b
    cases h; exact .other .afterPoint rfl rfl trivial going
  · split at h
    · cases h
      exact .other .afterE (isMark_of_e ‹_›) rfl trivial going
    · exact afterValue_moves ended h

theorem isMark_of_digit (h : isDigit b = true) : isMark b = false := by
  simp only [isDigit, Bool.and_eq_true, decide_eq_true_eq, UInt8.le_iff_toNat_le] at h
  simp only [isMark, isSpace, Bool.or_eq_false_iff, beq_eq_false_iff_ne, ne_eq, ← UInt8.toNat_inj]
  simp at h ⊢
  omega

theorem beforeValue_moves (before : s.place.hasBegun = false) (h : s.beforeValue b = .ok s') :
    Moves s b s' := by
  have going : s.place ≠ .afterValue := fun h => by rw [h] at before; cases before
  have byte : ∀ {c : Char}, Char.ofNat b.toNat = c → ∀ n : UInt8, n.toNat = c.toNat → b = n :=
    fun h n hn => UInt8.toNat_inj.1 ((ofNat_byte.1 h).trans hn.symm)
  unfold beforeValue at h
  split at h
  · cases h; exact .wait ‹_› before
  · split at h
    · rw [enter] at h
      split at h <;> cases h
      exact .enter .key .beforeFirstKey (.inl ⟨byte ‹_› _ rfl, rfl, rfl⟩) before
    · rw [enter] at h
      split at h <;> cases h
      exact .enter .element .beforeFirstElement (.inr ⟨byte ‹_› _ rfl, rfl, rfl⟩) before
    · cases h; exact .quote (byte ‹_› _ rfl) before
    · cases h; exact .other _ (byte ‹_› 0x2d rfl ▸ rfl) rfl trivial going
    · cases h; exact .other _ (byte ‹_› 0x30 rfl ▸ rfl) rfl trivial going
    · cases h; exact .other _ (byte ‹_› 0x74 rfl ▸ rfl) rfl ⟨by simp, by simp⟩ going
    · cases h; exact .other _ (byte ‹_› 0x66 rfl ▸ rfl) rfl ⟨by simp, by simp⟩ going
    · cases h; exact .other _ (byte ‹_› 0x6e rfl ▸ rfl) rfl ⟨by simp, by simp⟩ going
    · split at h <;> cases h
      exact .other _ (isMark_of_digit ‹_›) rfl trivial going

theorem beforeKey_moves (before : s.place.hasBegun = false) (h : s.beforeKey b = .ok s') :
    Moves s b s' := by
  unfold beforeKey at h
  split at h
  · cases h; exact .wait ‹_› before
  · split at h <;> cases h
    exact .quote ‹_› before

theorem isMark_of_letter (letter : 97 ≤ c.toNat ∧ c.toNat ≤ 122) (h : b.toNat = c.toNat) :
    isMark b = false := by
  simp only [isMark, isSpace, Bool.or_eq_false_iff, beq_eq_false_iff_ne, ne_eq, ← UInt8.toNat_inj]
  simp
  omega

theorem afterSign_moves (going : s.place ≠ .afterValue) (h : s.afterSign b = .ok s') :
    Moves s b s' := by
  unfold afterSign at h
  split at h <;> cases h
  exact .other _ (isMark_of_digit ‹_›) rfl trivial going

theorem step_moves (sane : s.place.Sane) (plain : s.place.isPlain) (h : s.step b = .ok s') :
    Moves s b s' := by
  have digit : ∀ {place : Place}, isDigit b = true → place.hasBegun → place.Sane →
      s.place ≠ .afterValue →
      Moves s b { s with place } :=
        fun digit begun sane going => .other _ (isMark_of_digit digit) begun sane going
  unfold step at h
  split at h
  case h_1 here => exact beforeValue_moves (by rw [here]; rfl) h
  case h_2 here =>
    split at h
    · cases h; exact .leave (.inl ‹_›) (.inr (.inl here))
    · exact beforeValue_moves (by rw [here]; rfl) h
  case h_3 here =>
    split at h
    · cases h; exact .leave (.inr ‹_›) (.inl here)
    · exact beforeKey_moves (by rw [here]; rfl) h
  case h_4 here => exact beforeKey_moves (by rw [here]; rfl) h
  case h_5 here => exact afterValue_moves (by rw [here]; rfl) h
  case h_6 here => rw [here] at plain; cases plain
  case h_7 here => rw [here] at plain; cases plain
  case h_8 here => rw [here] at plain; cases plain
  case h_9 word rest here =>
    rw [here] at sane
    obtain ⟨more, letters⟩ := sane
    split at h
    · exact absurd rfl more
    · split at h <;> cases h
      exact .other _ (isMark_of_letter (letters _ (.head _)) ‹_›) rfl trivial (by simp [here])
    · split at h <;> cases h
      exact .other _ (isMark_of_letter (letters _ (.head _)) ‹_›) rfl
        ⟨‹_›, fun c hc => letters c (.tail _ hc)⟩ (by simp [here])
  case h_10 here =>
    split at h
    · subst b; cases h; exact .other _ rfl rfl trivial (by simp [here])
    · split at h <;> cases h
      exact digit ‹_› rfl trivial (by simp [here])
  case h_11 here => exact afterZero_moves (by simp [here]) (by rw [here]; rfl) h
  case h_12 here =>
    split at h
    · cases h; exact .other s.place (isMark_of_digit ‹_›) (by rw [here]; rfl) sane (by simp [here])
    · exact afterZero_moves (by simp [here]) (by rw [here]; rfl) h
  case h_13 here =>
    split at h <;> cases h
    exact digit ‹_› rfl trivial (by simp [here])
  case h_14 here =>
    split at h
    · cases h; exact .other s.place (isMark_of_digit ‹_›) (by rw [here]; rfl) sane (by simp [here])
    · split at h
      · cases h
        exact .other _ (isMark_of_e ‹_›) rfl trivial (by simp [here])
      · exact afterValue_moves (by rw [here]; rfl) h
  case h_15 here =>
    split at h
    · cases h
      exact .other _ (isMark_of_sign ‹_›) rfl trivial (by simp [here])
    · exact afterSign_moves (by simp [here]) h
  case h_16 here => exact afterSign_moves (by simp [here]) h
  case h_17 here =>
    split at h
    · cases h; exact .other s.place (isMark_of_digit ‹_›) (by rw [here]; rfl) sane (by simp [here])
    · exact afterValue_moves (by rw [here]; rfl) h

theorem Moves.sane (h : Moves s b s') (sane : s.place.Sane) : s'.place.Sane := by
  cases h with
  | wait | other place plain begun sane => exact sane
  | enter c place here =>
    obtain ⟨-, -, rfl⟩ | ⟨-, -, rfl⟩ := here <;> trivial
  | _ => trivial

section Texts

theorem step_inString (here : s.place = .inString) (h : s.step b = .ok s') :
    b = 0x22 ∧ s' = { s with place := .afterValue } ∨
    b = 0x5c ∧ s' = { s with place := .inEscape } ∨
      b ≠ 0x22 ∧ b ≠ 0x5c ∧ s' = s := by
  simp only [step, here, inString] at h
  split at h
  · cases h; exact .inl ⟨‹_›, rfl⟩
  · split at h
    · cases h; exact .inr (.inl ⟨‹_›, rfl⟩)
    · split at h <;> cases h
      exact .inr (.inr ⟨‹_›, ‹_›, rfl⟩)

theorem step_inEscape (here : s.place = .inEscape) (h : s.step b = .ok s') :
    s' = { s with place := .inString } ∨ s' = { s with place := .inCode [] } := by
  simp only [step, here, inEscape] at h
  split at h
  · cases h; exact .inr rfl
  · split at h <;> cases h
    exact .inl rfl

theorem step_inCode {digits : List UInt8} (here : s.place = .inCode digits)
    (h : s.step b = .ok s') :
    b ≠ 0x22 ∧ b ≠ 0x5c ∧ (s' = { s with place := .inString } ∨
      s' = { s with place := .inCode (digits ++ [b]) }) := by
  simp only [step, here, inCode] at h
  split at h <;> cases h
  rename_i hex
  refine ⟨(by rintro rfl; cases hex), (by rintro rfl; cases hex), ?_⟩
  split
  · exact .inr rfl
  · exact .inl rfl

end Texts

theorem run_append {a c : List UInt8} :
    s.run (a ++ c) = .ok s'' ↔ ∃ s', s.run a = .ok s' ∧ s'.run c = .ok s'' := by
  induction a generalizing s with
  | nil => simp [run]
  | cons b rest ih =>
    rw [List.cons_append, run, run]
    cases s.step b with
    | ok => exact ih
    | error => simp

theorem run_cons : s.run (b :: rest) = .ok s'' ↔
    ∃ s', s.step b = .ok s' ∧ s'.run rest = .ok s'' := by
  rw [run]
  cases s.step b <;> simp

end Checker

theorem isSpace_iff : isSpace b = true ↔ b = 0x20 ∨ b = 0x09 ∨ b = 0x0a ∨ b = 0x0d := by
  simp [isSpace, or_assoc]

section Cutting
variable {depth : Nat} {taken : Array UInt8}

theorem cutValue_space (h : isSpace b = true) : cutValue depth .plain taken (b :: rest) =
    if depth = 0 then (taken.toList, b :: rest) else cutValue depth .plain (taken.push b) rest := by
  obtain rfl | rfl | rfl | rfl := isSpace_iff.1 h <;> rfl

theorem cutValue_other (h : isMark b = false) :
    cutValue depth .plain taken (b :: rest) = cutValue depth .plain (taken.push b) rest := by
  simp only [isMark, Bool.or_eq_false_iff, beq_eq_false_iff_ne, ne_eq, ← UInt8.toNat_inj] at h
  rw [cutValue.eq_def]
  split <;> simp_all [ofNat_byte]

theorem cutValue_text (h : b ≠ 0x22) (h' : b ≠ 0x5c) :
    cutValue depth .string taken (b :: rest) = cutValue depth .string (taken.push b) rest := by
  rw [cutValue.eq_def]
  simp only
  split <;> simp_all [ofNat_byte, ← UInt8.toNat_inj]

theorem cutValue_quote : cutValue depth .string taken (0x22 :: rest) =
    if depth = 0 then ((taken.push 0x22).toList, rest)
    else cutValue depth .plain (taken.push 0x22) rest := rfl

theorem cutValue_close (h : b = 0x5d ∨ b = 0x7d) : cutValue depth .plain taken (b :: rest) =
    if depth = 0 then (taken.toList, b :: rest)
    else if depth = 1 then ((taken.push b).toList, rest)
    else cutValue (depth - 1) .plain (taken.push b) rest := by
  obtain rfl | rfl := h <;> rfl

theorem cutValue_separator (h : b = 0x3a ∨ b = 0x2c) : cutValue depth .plain taken (b :: rest) =
    if depth = 0 then (taken.toList, b :: rest) else cutValue depth .plain (taken.push b) rest := by
  obtain rfl | rfl := h <;> rfl

end Cutting

/-- The checker stands inside a value of which `depth` brackets are open, and `outer` are open
around it. -/
structure Checker.Within (outer : List Container) (depth : Nat) (inside : Inside)
    (s : Checker) : Prop where
  sane : s.place.Sane
  opened : ∃ inner, s.opened = inner ++ outer ∧ inner.length = depth
  place : match inside with
    | .plain => s.place.isPlain ∧ (depth = 0 → s.place.hasBegun)
    | .string => s.place.isText
    | .escape => s.place = .inEscape

/-- The value at the front of some bytes ends where the checker has `mid`. Nothing that follows the
bytes matters. -/
structure Cuts (outer : List Container) (depth : Nat) (inside : Inside) (s last : Checker)
    (bytes value rest : List UInt8)
    (mid : Checker) : Prop where
  parts : bytes = value ++ rest
  before : s.run value = .ok mid
  after : mid.run rest = .ok last
  opened : mid.opened = outer
  ended : mid.place.hasEnded
  sane : mid.place.Sane
  text : inside ≠ .plain → depth = 0 → mid.place = .afterValue
  cut : ∀ taken more, cutValue depth inside taken (bytes ++ more) =
    (taken.toList ++ value, rest ++ more)

section Within
variable {outer : List Container} {depth depth' : Nat} {inside inside' : Inside}
  {s s' last mid : Checker}
  {bytes value : List UInt8}

theorem Cuts.cons (h : Cuts outer depth' inside' s' last bytes value rest mid)
    (step : s.step b = .ok s') (text : inside ≠ .plain → depth = 0 → inside' ≠ .plain ∧ depth' = 0)
    (cut : ∀ taken more, cutValue depth inside taken (b :: more) =
      cutValue depth' inside' (taken.push b) more) :
    Cuts outer depth inside s last (b :: bytes) (b :: value) rest mid :=
  { h with
    parts := by rw [h.parts]; rfl
    before := Checker.run_cons.2 ⟨s', step, h.before⟩
    text := fun hi hd => h.text (text hi hd).1 (text hi hd).2
    cut := fun taken more => by
      rw [List.cons_append, cut, h.cut]
      simp }

theorem Cuts.before_byte (within : s.Within outer 0 .plain) (ended : s.place.hasEnded)
    (run : s.run (b :: bytes) = .ok last)
    (cut : ∀ taken more, cutValue 0 .plain taken (b :: more) = (taken.toList, b :: more)) :
    Cuts outer 0 .plain s last (b :: bytes) [] (b :: bytes) s where
  parts := rfl
  before := rfl
  after := run
  opened := by
    obtain ⟨inner, opened, none⟩ := within.opened
    rw [opened, List.length_eq_zero_iff.1 none]
    rfl
  ended := ended
  sane := within.sane
  text := fun h => absurd rfl h
  cut taken more := by
    rw [List.cons_append, cut]
    simp

theorem Cuts.with_byte (step : s.step b = .ok s') (place : s'.place = .afterValue)
    (opened : s'.opened = outer) (run : s'.run bytes = .ok last)
    (cut : ∀ taken more, cutValue depth inside taken (b :: more) = ((taken.push b).toList, more)) :
    Cuts outer depth inside s last (b :: bytes) [b] bytes s' where
  parts := rfl
  before := Checker.run_cons.2 ⟨s', step, rfl⟩
  after := run
  opened := opened
  ended := by rw [place]; rfl
  sane := by rw [place]; trivial
  text _ _ := place
  cut taken more := by
    rw [List.cons_append, cut]
    simp

theorem Checker.Within.cuts (within : s.Within outer depth inside) (run : s.run bytes = .ok last)
    (closes : last.opened.length < outer.length) :
    ∃ value rest mid, Cuts outer depth inside s last bytes value rest mid := by
  induction bytes generalizing depth inside s with
  | nil =>
    obtain ⟨inner, opened, -⟩ := within.opened
    cases run
    rw [opened, List.length_append] at closes
    omega
  | cons b bytes ih =>
    obtain ⟨s', step, run'⟩ := run_cons.1 run
    obtain ⟨inner, opened, size⟩ := within.opened
    have place := within.place
    -- The byte belongs to the value, and the scan goes on behind it.
    have go : ∀ depth' inside', s'.Within outer depth' inside' →
        (inside ≠ .plain → depth = 0 → inside' ≠ .plain ∧ depth' = 0) →
        (∀ taken more, cutValue depth inside taken (b :: more) = cutValue depth' inside'
          (taken.push b) more) →
        ∃ value rest mid, Cuts outer depth inside s last (b :: bytes) value rest mid := by
      intro depth' inside' within' text cut
      obtain ⟨value, rest, mid, cuts⟩ := ih within' run'
      exact ⟨_, _, _, cuts.cons step text cut⟩
    cases inside with
    | escape =>
      refine go depth .string ⟨?_, ⟨inner, ?_, size⟩, ?_⟩ (fun _ hd => ⟨by simp, hd⟩) fun _ _ => rfl
      all_goals obtain rfl | rfl := step_inEscape place step
      all_goals trivial
    | string =>
      cases here : s.place with
      | inString =>
        obtain ⟨rfl, rfl⟩ | ⟨rfl, rfl⟩ | ⟨hb, hb', rfl⟩ := step_inString here step
        · by_cases flat : depth = 0
          · subst flat
            have same : ({ s with place := .afterValue } : Checker).opened = s.opened := rfl
            exact ⟨_, _, _, .with_byte step rfl
              (by rw [same, opened, List.length_eq_zero_iff.1 size]; rfl) run' fun _ _ => rfl⟩
          · refine go depth .plain ⟨trivial, ⟨inner, opened, size⟩, rfl, fun h => absurd h flat⟩
              (fun _ h => absurd h flat) fun _ _ => ?_
            rw [cutValue_quote, if_neg flat]
        · exact go depth .escape ⟨trivial, ⟨inner, opened, size⟩, rfl⟩ (fun _ hd => ⟨by simp, hd⟩)
            fun _ _ => rfl
        · exact go depth .string within (fun _ hd => ⟨by simp, hd⟩) fun _ _ => cutValue_text hb hb'
      | inCode =>
        obtain ⟨hb, hb', next⟩ := step_inCode here step
        refine go depth .string ⟨?_, ⟨inner, ?_, size⟩, ?_⟩ (fun _ hd => ⟨by simp, hd⟩) fun _ _ =>
          cutValue_text hb hb'
        all_goals obtain rfl | rfl := next
        all_goals trivial
      | _ => rw [here] at place; cases place
    | plain =>
      obtain ⟨plain, begun⟩ := place
      have moves := step_moves within.sane plain step
      have sane := moves.sane within.sane
      have deep : s.place.hasBegun = false → depth ≠ 0 := by
        intro before flat
        rw [begun flat] at before
        cases before
      -- A byte that only separates values belongs to the value if brackets are open in it.
      have mark : s.place.hasEnded → s'.place.isPlain →
          (depth ≠ 0 → ∃ inner', s'.opened = inner' ++ outer ∧ inner'.length = depth) →
          (∀ taken more, cutValue depth .plain taken (b :: more) =
            if depth = 0 then (taken.toList, b :: more)
              else cutValue depth .plain (taken.push b) more) →
          ∃ value rest mid, Cuts outer depth .plain s last (b :: bytes) value rest mid := by
        intro ended plain' opened' cut
        by_cases flat : depth = 0
        · subst flat
          exact ⟨_, _, _, .before_byte within ended run fun taken more => cut taken more⟩
        · exact go depth .plain ⟨sane, opened' flat, plain', fun h => absurd h flat⟩
            (fun h => absurd rfl h)
            fun taken more => (cut taken more).trans (if_neg flat)
      have swap : ∀ {c outer'}, s.opened = c :: outer' → depth ≠ 0 → ∀ c' : Container,
          ∃ inner', c' :: outer' = inner' ++ outer ∧ inner'.length = depth := by
        intro c outer' here deep c'
        obtain ⟨c1, inner1, rfl⟩ :=
          List.exists_cons_of_length_pos (Nat.lt_of_lt_of_eq (Nat.pos_of_ne_zero deep) size.symm)
        rw [opened, List.cons_append, List.cons.injEq] at here
        exact ⟨c' :: inner1, by rw [← here.2]; rfl, size⟩
      cases moves with
      | wait blank before =>
        refine go depth .plain within (fun h => absurd rfl h) fun _ _ => ?_
        rw [cutValue_space blank, if_neg (deep before)]
      | rest blank ended =>
        exact mark ended rfl (fun _ => ⟨inner, opened, size⟩) fun _ _ => cutValue_space blank
      | quote here =>
        subst here
        exact go depth .string ⟨trivial, ⟨inner, opened, size⟩, rfl⟩ (fun h => absurd rfl h)
          fun _ _ => rfl
      | enter c place here =>
        refine go (depth + 1) .plain
          ⟨sane, ⟨c :: inner, by simp [opened], by simp [size]⟩, ?_, fun h => by omega⟩
          (fun h => absurd rfl h) fun _ _ => ?_
        all_goals obtain ⟨rfl, rfl, rfl⟩ | ⟨rfl, rfl, rfl⟩ := here <;> rfl
      | leave here last =>
        obtain flat | single | many : depth = 0 ∨ depth = 1 ∨ 1 < depth := by omega
        · subst flat
          have ended : s.place.hasEnded := by
            obtain first | first | ⟨ended, -⟩ := last
            · cases first ▸ begun rfl
            · cases first ▸ begun rfl
            · exact ended
          exact ⟨_, _, _, .before_byte within ended run fun _ _ => cutValue_close here⟩
        · subst single
          obtain ⟨c, rfl⟩ := List.length_eq_one_iff.1 size
          exact ⟨_, _, _, .with_byte step rfl (congrArg List.tail opened) run' fun _ _ =>
            cutValue_close here⟩
        · obtain ⟨c, inner, rfl⟩ :=
            List.exists_cons_of_length_pos (Nat.lt_of_lt_of_eq (Nat.lt_of_succ_lt many) size.symm)
          refine go (depth - 1) .plain
            ⟨sane, ⟨inner, congrArg List.tail opened, by rw [← size]; rfl⟩, rfl, fun _ => rfl⟩
            (fun h => absurd rfl h) fun _ _ => ?_
          rw [cutValue_close here, if_neg (by omega), if_neg (by omega)]
      | colon outer' here ended opened' =>
        exact mark ended rfl (fun deep => swap opened' deep _) fun _ _ =>
          cutValue_separator (.inl here)
      | comma outer' here ended opened' =>
        exact mark ended rfl (fun deep => swap opened' deep _) fun _ _ =>
          cutValue_separator (.inr here)
      | next outer' here ended =>
        exact mark ended rfl (fun _ => ⟨inner, opened, size⟩) fun _ _ =>
          cutValue_separator (.inr here)
      | other place plain begun =>
        exact go depth .plain ⟨sane, ⟨inner, opened, size⟩, place.isPlain_of_hasBegun begun,
          fun _ => begun⟩ (fun h => absurd rfl h) fun _ _ => cutValue_other plain

end Within

section Members

open Checker

variable {s s' last : Checker} {bytes : List UInt8} {outer : List Container}

theorem Checker.Moves.of_space (h : s.Moves b s') (blank : isSpace b = true) :
    s' = s ∨ s.place.hasEnded ∧ s' = { s with place := .afterValue } := by
  cases h with
  | wait => exact .inl rfl
  | rest _ ended => exact .inr ⟨ended, rfl⟩
  | quote here | colon _ here | comma _ here | next _ here => subst here; cases blank
  | enter c place here => obtain ⟨rfl, -⟩ | ⟨rfl, -⟩ := here <;> cases blank
  | leave here => obtain rfl | rfl := here <;> cases blank
  | other place plain => rw [isMark, blank] at plain; cases plain

theorem Checker.run_skipSpace (sane : s.place.Sane) (plain : s.place.isPlain)
    (run : s.run bytes = .ok last) :
    ∃ s', s'.run (skipSpace bytes) = .ok last ∧
    (s' = s ∨ s.place.hasEnded ∧ s' = { s with place := .afterValue }) := by
  induction bytes generalizing s with
  | nil => exact ⟨s, run, .inl rfl⟩
  | cons b bytes ih =>
    by_cases blank : isSpace b = true
    · obtain ⟨s1, step, run1⟩ := run_cons.1 run
      have skip : skipSpace (b :: bytes) = skipSpace bytes := List.dropWhile_cons_of_pos blank
      rw [skip]
      obtain rfl | ⟨ended, rfl⟩ := (step_moves sane plain step).of_space blank
      · exact ih sane plain run1
      · obtain ⟨s2, run2, rfl | ⟨-, rfl⟩⟩ :=
          ih (s := { s with place := .afterValue }) trivial rfl run1
        · exact ⟨_, run2, .inr ⟨ended, rfl⟩⟩
        · exact ⟨_, run2, .inr ⟨ended, rfl⟩⟩
    · exact ⟨s, by rwa [skipSpace, List.dropWhile_cons_of_neg blank], .inl rfl⟩

theorem skipSpace_append (here : skipSpace bytes = b :: rest) (more : List UInt8) :
    skipSpace (bytes ++ more) = b :: (rest ++ more) := by
  rw [skipSpace] at here ⊢
  rw [List.dropWhile_append, here]
  rfl

theorem not_isSpace_of_skipSpace (here : skipSpace bytes = b :: rest) : isSpace b = false := by
  have head := List.head?_dropWhile_not isSpace bytes
  rw [skipSpace] at here
  rw [here] at head
  simpa using head

theorem Checker.within_value (place : s.place = .beforeValue) (opened : s.opened = outer)
    (solid : isSpace b = false)
    (step : s.step b = .ok s') : ∃ depth inside, s'.Within outer depth inside ∧
      ∀ more, cutValue 0 .plain #[] (b :: more) = cutValue depth inside #[b] more := by
  have moves := step_moves (by rw [place]; trivial) (by rw [place]; rfl) step
  have sane := moves.sane (by rw [place]; trivial)
  cases moves with
  | wait blank | rest blank => rw [blank] at solid; cases solid
  | quote here => subst here; exact ⟨0, .string, ⟨sane, ⟨[], opened, rfl⟩, rfl⟩, fun _ => rfl⟩
  | enter c place' here =>
    refine ⟨1, .plain, ⟨sane, ⟨[c], by rw [opened]; rfl, rfl⟩, ?_, by simp⟩, fun more => ?_⟩
    all_goals obtain ⟨rfl, rfl, rfl⟩ | ⟨rfl, rfl, rfl⟩ := here <;> rfl
  | leave here last => rw [place] at last; simp [Place.hasEnded] at last
  | colon _ here ended | comma _ here ended | next _ here ended => rw [place] at ended; cases ended
  | other place' plain begun =>
    exact ⟨0, .plain, ⟨sane, ⟨[], opened, rfl⟩, place'.isPlain_of_hasBegun begun, fun _ => begun⟩,
      fun _ => cutValue_other plain⟩

theorem takeValue_append (place : s.place = .beforeValue) (opened : s.opened = outer)
    (run : s.run bytes = .ok last) (closes : last.opened.length < outer.length) :
    ∃ (value rest : List UInt8) (mid : Checker),
    (∀ more, takeValue (bytes ++ more) = (value, rest ++ more)) ∧ mid.run rest = .ok last ∧
      mid.opened = outer ∧ mid.place.hasEnded ∧ mid.place.Sane := by
  obtain ⟨s1, run1, same⟩ := run_skipSpace (by rw [place]; trivial) (by rw [place]; rfl) run
  obtain rfl := same.resolve_right fun h => by rw [place] at h; cases h.1
  cases here : skipSpace bytes with
  | nil =>
    rw [here] at run1
    cases run1
    rw [opened] at closes
    omega
  | cons b =>
    rw [here] at run1
    obtain ⟨s2, step, run2⟩ := run_cons.1 run1
    obtain ⟨depth, inside, within, cut⟩ :=
      within_value place opened (not_isSpace_of_skipSpace here) step
    obtain ⟨value, rest', mid, cuts⟩ := within.cuts run2 closes
    refine ⟨b :: value, rest', mid, fun more => ?_, cuts.after, cuts.opened, cuts.ended, cuts.sane⟩
    rw [takeValue, skipSpace_append here, cut, cuts.cut]
    rfl

structure Checker.Between (s : Checker) : Prop where
  sane : s.place.Sane
  place : s.place.hasBegun = false ∧ s.place.isPlain ∧ s.opened = [.key] ∨
    s.place.hasEnded ∧ s.opened = [.member]

theorem Place.isPlain_of_hasEnded (place : Place) (h : place.hasEnded) : place.isPlain := by
  cases place <;> first | rfl | cases h

theorem Checker.Between.isPlain (h : s.Between) : s.place.isPlain :=
  h.place.elim (fun h => h.2.1) fun h => s.place.isPlain_of_hasEnded h.1

theorem Place.hasBegun_of_hasEnded (place : Place) (h : place.hasEnded) : place.hasBegun := by
  cases place <;> first | rfl | cases h

theorem Checker.step_afterKey (place : s.place = .afterValue) (opened : s.opened = [.key])
    (solid : isSpace b = false)
    (step : s.step b = .ok s') : s' = { s with place := .beforeValue, opened := [.member] } := by
  have begun : s.place.hasBegun ≠ false := by rw [place]; simp [Place.hasBegun]
  have moves := step_moves (by rw [place]; trivial) (by rw [place]; rfl) step
  cases moves with
  | wait blank before | quote here before | enter c place here before => exact absurd before begun
  | rest blank => rw [blank] at solid; cases solid
  | leave here last => simp [place, opened] at last
  | colon outer here ended opened' =>
    rw [opened, List.cons.injEq] at opened'
    rw [← opened'.2]
  | comma outer here ended opened' | next outer here ended opened' =>
    rw [opened] at opened'; cases opened'
  | other place' plain begun sane' going => exact absurd place going

theorem Checker.Moves.of_quote (h : s.Moves 0x22 s') :
    s.place.hasBegun = false ∧ s' = { s with place := .inString } := by
  cases h with
  | quote here before => exact ⟨before, rfl⟩
  | wait blank | rest blank => cases blank
  | enter c place here | leave here | colon outer here | comma outer here | next outer here =>
    simp at here
  | other place plain => cases plain

theorem Checker.Between.comma (h : s.Between) (step : s.step 0x2c = .ok s') : s'.Between := by
  have opened : ∀ {c outer}, s.place.hasEnded → s.opened = c :: outer → c = .member ∧
      outer = [] := by
    intro c outer ended here
    obtain ⟨before, -⟩ | ⟨-, opened⟩ := h.place
    · rw [s.place.hasBegun_of_hasEnded ended] at before
      cases before
    · rwa [here, List.cons.injEq] at opened
  have moves := step_moves h.sane h.isPlain step
  cases moves with
  | wait blank | rest blank => cases blank
  | quote here | enter c place here | leave here | colon outer here => simp at here
  | comma outer here ended here' =>
    obtain ⟨-, rfl⟩ := opened ended here'
    exact ⟨trivial, .inl ⟨rfl, rfl, rfl⟩⟩
  | next outer here ended here' => cases (opened ended here').1
  | other place plain => cases plain

theorem member_append (between : s.Between) (step : s.step 0x22 = .ok s')
    (run : s'.run bytes = .ok last) (closed : last.opened = []) :
    ∃ (key value rest : List UInt8) (mid : Checker), mid.Between ∧ mid.run rest = .ok last ∧
      ∀ more, ∃ rest', takeValue (0x22 :: (bytes ++ more)) = (key, rest') ∧
        takeValue ((skipSpace rest').drop 1) = (value, rest ++ more) := by
  obtain ⟨before, rfl⟩ := (step_moves between.sane between.isPlain step).of_quote
  have opened : s.opened = [.key] := by
    obtain ⟨-, -, opened⟩ | ⟨ended, -⟩ := between.place
    · exact opened
    · rw [s.place.hasBegun_of_hasEnded ended] at before
      cases before
  have within : Within [.key] 0 .string { s with place := .inString } :=
    ⟨trivial, ⟨[], opened, rfl⟩, rfl⟩
  obtain ⟨key, rest, mid, cuts⟩ := within.cuts run (by simp [closed])
  have afterKey := cuts.text (by simp) rfl
  obtain ⟨mid', run', same⟩ :=
    run_skipSpace cuts.sane (mid.place.isPlain_of_hasEnded cuts.ended) cuts.after
  obtain rfl := same.elim id fun h => by rw [h.2, ← afterKey]
  cases here : skipSpace rest with
  | nil =>
    rw [here] at run'
    cases run'
    cases closed.symm.trans cuts.opened
  | cons =>
    rw [here] at run'
    obtain ⟨s1, step1, run1⟩ := run_cons.1 run'
    obtain rfl := step_afterKey afterKey cuts.opened (not_isSpace_of_skipSpace here) step1
    obtain ⟨value, rest2, mid2, take, run2, opened2, ended2, sane2⟩ :=
      takeValue_append rfl (Eq.refl [Container.member]) run1 (by simp [closed])
    refine ⟨0x22 :: key, value, rest2, mid2, ⟨sane2, .inr ⟨ended2, opened2⟩⟩, run2,
      fun more => ⟨rest ++ more, ?_, ?_⟩⟩
    · exact cuts.cut #[0x22] more
    · rw [skipSpace_append here]
      exact take more

theorem membersFrom_append (between : s.Between) (run : s.run bytes = .ok last)
    (closed : last.opened = []) (read : Array (String × Raw)) (n : Nat) (more : List UInt8) :
    membersFrom read n (bytes ++ more) = membersFrom read n bytes := by
  induction n generalizing s bytes read with
  | zero => rfl
  | succ n ih =>
    obtain ⟨s1, run1, same⟩ := run_skipSpace between.sane between.isPlain run
    have between1 : s1.Between := by
      obtain rfl | ⟨ended, rfl⟩ := same
      · exact between
      · refine ⟨trivial, .inr ⟨rfl, ?_⟩⟩
        obtain ⟨before, -⟩ | ⟨-, opened⟩ := between.place
        · rw [s.place.hasBegun_of_hasEnded ended] at before
          cases before
        · exact opened
    cases here : skipSpace bytes with
    | nil =>
      rw [here] at run1
      cases run1
      obtain ⟨-, -, opened⟩ | ⟨-, opened⟩ :=
        between1.place <;> rw [closed] at opened <;> cases opened
    | cons b =>
      rw [here] at run1
      obtain ⟨s2, step, run2⟩ := run_cons.1 run1
      simp only [membersFrom, here, skipSpace_append here]
      by_cases quote : b = 0x22
      · subst quote
        obtain ⟨key, value, rest2, mid, between2, run3, take⟩ :=
          member_append between1 step run2 closed
        obtain ⟨rest1, takeKey, takeMember⟩ := take more
        obtain ⟨rest1', takeKey', takeMember'⟩ := take []
        rw [List.append_nil] at takeKey' takeMember'
        simp only [takeKey, takeMember, takeKey', takeMember']
        exact ih between2 run3 _
      · by_cases comma : b = 0x2c
        · subst comma
          exact ih (between1.comma step) run2 read
        · split <;> split <;> simp_all

theorem length_cutValue (depth : Nat) (inside : Inside) (taken : Array UInt8) (bytes : List UInt8) :
    (cutValue depth inside taken bytes).2.length ≤ bytes.length := by
  fun_induction cutValue depth inside taken bytes with
  | case1 => exact Nat.le_refl _
  | _ => simp_all <;> omega

theorem length_skipSpace (bytes : List UInt8) : (skipSpace bytes).length ≤ bytes.length :=
  (List.dropWhile_suffix isSpace).length_le

theorem length_takeValue (bytes : List UInt8) : (takeValue bytes).2.length ≤ bytes.length :=
  Nat.le_trans (length_cutValue ..) (length_skipSpace bytes)

theorem membersFrom_enough {n m : Nat} (hn : bytes.length ≤ n) (hm : bytes.length ≤ m)
    (read : Array (String × Raw)) :
    membersFrom read n bytes = membersFrom read m bytes := by
  induction n generalizing m bytes read with
  | zero =>
    obtain rfl := List.length_eq_zero_iff.1 (Nat.le_zero.1 hn)
    cases m <;> rfl
  | succ n ih =>
    cases m with
    | zero =>
      obtain rfl := List.length_eq_zero_iff.1 (Nat.le_zero.1 hm)
      rfl
    | succ =>
      have skip := length_skipSpace bytes
      simp only [membersFrom]
      split
      · rename_i rest here
        rw [here, List.length_cons] at skip
        have key : (takeValue (0x22 :: rest)).2.length ≤ rest.length :=
          length_cutValue 0 .string #[0x22] rest
        have value := length_takeValue ((skipSpace (takeValue (0x22 :: rest)).2).drop 1)
        have colon := length_skipSpace (takeValue (0x22 :: rest)).2
        rw [List.length_drop] at value
        exact ih (by omega) (by omega) _
      · rename_i rest here
        rw [here, List.length_cons] at skip
        exact ih (by omega) (by omega) read
      · rfl

theorem Checker.step_sane (sane : s.place.Sane) (step : s.step b = .ok s') : s'.place.Sane := by
  cases here : s.place with
  | inString =>
    obtain ⟨-, rfl⟩ | ⟨-, rfl⟩ | ⟨-, -, rfl⟩ := step_inString here step
    · trivial
    · trivial
    · exact sane
  | inEscape => obtain rfl | rfl := step_inEscape here step <;> trivial
  | inCode => obtain ⟨-, -, rfl | rfl⟩ := step_inCode here step <;> trivial
  | _ => exact (step_moves sane (by rw [here]; rfl) step).sane sane

theorem Checker.run_sane (sane : s.place.Sane) (run : s.run bytes = .ok last) :
    last.place.Sane := by
  induction bytes generalizing s with
  | nil => cases run; exact sane
  | cons b rest ih =>
    obtain ⟨s', step, run'⟩ := run_cons.1 run
    exact ih (step_sane sane step) run'

theorem Checker.mayEnd_iff : s.mayEnd = true ↔ s.place.hasEnded ∧ s.opened = [] := by
  rw [mayEnd]
  cases s.place <;> simp [Place.hasEnded]

theorem check_ok : check bytes = .ok () ↔ ∃ s, ({} : Checker).run bytes = .ok s ∧ s.place.hasEnded ∧
    s.opened = [] := by
  rw [check]
  cases ({} : Checker).run bytes with
  | error => simp
  | ok => simp [finish, ← mayEnd_iff]

theorem Checker.step_space_of_ended (blank : isSpace b = true) (ended : s.place.hasEnded) :
    s.step b = .ok { s with place := .afterValue } := by
  have solid : isDigit b = false ∧ b ≠ 0x2e ∧ b ≠ 0x65 ∧ b ≠ 0x45 := by
    obtain rfl | rfl | rfl | rfl := isSpace_iff.1 blank <;> decide
  rw [step]
  cases here : s.place <;> simp_all [Place.hasEnded, afterZero, afterValue, goto]

theorem Checker.ended_of_step_space (sane : s.place.Sane) (blank : isSpace b = true)
    (step : s.step b = .ok s')
    (ended : s'.place.hasEnded) : s.place.hasEnded ∧ s'.opened = s.opened := by
  cases here : s.place with
  | inString =>
    obtain ⟨rfl, -⟩ | ⟨-, rfl⟩ | ⟨-, -, rfl⟩ := step_inString here step
    · cases blank
    · cases ended
    · rw [here] at ended; cases ended
  | inEscape => obtain rfl | rfl := step_inEscape here step <;> cases ended
  | inCode => obtain ⟨-, -, rfl | rfl⟩ := step_inCode here step <;> cases ended
  | _ =>
    rw [← here]
    obtain rfl | ⟨ended', rfl⟩ := (step_moves sane (by rw [here]; rfl) step).of_space blank
    · exact ⟨ended, rfl⟩
    · exact ⟨ended', rfl⟩

theorem check_append_space (blank : isSpace b = true) : check (bytes ++ [b]) = .ok () ↔
    check bytes = .ok () := by
  rw [check_ok, check_ok]
  constructor
  · rintro ⟨s', run, ended, closed⟩
    obtain ⟨s, run, last⟩ := run_append.1 run
    obtain ⟨s1, step, same⟩ := run_cons.1 last
    cases same
    obtain ⟨ended', opened⟩ := ended_of_step_space (run_sane (s := {}) trivial run) blank step ended
    exact ⟨s, run, ended', opened ▸ closed⟩
  · rintro ⟨s, run, ended, closed⟩
    exact ⟨_, run_append.2 ⟨s, run, run_cons.2 ⟨_, step_space_of_ended blank ended, rfl⟩⟩,
      rfl, closed⟩

theorem ofByte_object (h : Kind.ofByte b = .object) : b = 0x7b := by
  unfold Kind.ofByte at h
  split at h <;> first | exact UInt8.toNat_inj.1 (ofNat_byte.1 ‹_›) | cases h

theorem members_append_space (blank : isSpace b = true) :
    (members (bytes ++ [b])).toOption = (members bytes).toOption := by
  by_cases ok : check bytes = .ok ()
  · have ok' := (check_append_space blank).2 ok
    obtain ⟨last, run, ended, closed⟩ := check_ok.1 ok
    obtain ⟨s, run, same⟩ := run_skipSpace (s := {}) trivial rfl run
    obtain rfl := same.resolve_right fun h => by cases h.1
    cases here : skipSpace bytes with
    | nil =>
      rw [here] at run
      cases run
      cases ended
    | cons x =>
      rw [here] at run
      obtain ⟨s, step, run⟩ := run_cons.1 run
      have less := length_skipSpace bytes
      rw [here, List.length_cons] at less
      simp only [members, ok, ok', here, skipSpace_append here]
      cases kind : Kind.ofByte x with
      | object =>
        obtain rfl := ofByte_object kind
        cases step
        have between : Between { place := .beforeFirstKey, opened := [.key], depth := 1 } :=
          ⟨trivial, .inl ⟨rfl, rfl, rfl⟩⟩
        simp only [membersFrom_append between run closed]
        rw [membersFrom_enough (by simp; omega) (Nat.le_of_succ_le less)]
      | _ => rfl
  · have bad := mt (check_append_space blank).1 ok
    have none : ∀ bytes, check bytes ≠ .ok () → (members bytes).toOption = none := by
      intro bytes h
      rw [members]
      cases he : check bytes with
      | ok => exact absurd he h
      | error => rfl
    rw [none _ ok, none _ bad]

end Members

section Blank

open Checker

variable {s : Checker} {a : UInt8} {bytes : List UInt8}

theorem isSpace_of_ascii (ascii : a < 0x80) (space : Text.isSpace (Char.ofNat a.toNat) = true) :
    isSpace a = true ∨ a = 0x0b ∨ a = 0x0c := by
  have code : (Char.ofNat a.toNat).toNat = a.toNat := (ofNat_byte.1 rfl).symm
  simp only [Text.isSpace, code, Bool.or_eq_true, Bool.and_eq_true, decide_eq_true_eq, beq_iff_eq]
    at space
  rw [UInt8.lt_iff_toNat_lt] at ascii
  simp only [isSpace, Bool.or_eq_true, beq_iff_eq, ← UInt8.toNat_inj]
  simp at ascii ⊢
  omega

theorem Checker.step_strange (here : s.place = .beforeValue)
    (strange : 0x80 ≤ a ∨ a = 0x0b ∨ a = 0x0c) :
    s.step a = .error (.character .valueStart) := by
  simp only [UInt8.le_iff_toNat_le, ← UInt8.toNat_inj] at strange
  simp at strange
  rw [step, here]
  simp only [beforeValue]
  have solid : isSpace a = false := by
    simp only [isSpace, Bool.or_eq_false_iff, beq_eq_false_iff_ne, ne_eq, ← UInt8.toNat_inj]
    simp
    omega
  have digit : isDigit a = false := by
    simp only [isDigit, Bool.and_eq_false_iff, decide_eq_false_iff_not, UInt8.le_iff_toNat_le]
    simp
    omega
  rw [if_neg (by simp [solid])]
  split
  all_goals first
    | (rename_i char; exfalso; simp only [ofNat_byte] at char; simp at char; omega)
    | (rw [if_neg (by simp [digit])]; rfl)

theorem Checker.run_blank (here : s.place = .beforeValue) (blank : Text.isBlank bytes = true)
    {last : Checker} (run : s.run bytes = .ok last) : last = s := by
  induction bytes with
  | nil => cases run; rfl
  | cons a rest ih =>
    obtain ⟨s', step, run'⟩ := run_cons.1 run
    rw [Text.isBlank, Text.Utf8.decode_cons, List.all_cons, Bool.and_eq_true] at blank
    by_cases ascii : a < 0x80
    · rw [Text.Utf8.first_ascii ascii] at blank
      obtain space | strange := isSpace_of_ascii ascii blank.1
      · have same := (step_moves (by rw [here]; trivial) (by rw [here]; rfl) step).of_space space
        obtain rfl := same.resolve_right fun h => by rw [here] at h; cases h.1
        exact ih blank.2 run'
      · rw [step_strange here (.inr strange)] at step
        cases step
    · rw [step_strange here (.inl (UInt8.not_lt.1 ascii))] at step
      cases step

theorem check_blank (blank : Text.isBlank bytes = true) : check bytes ≠ .ok () := by
  intro ok
  obtain ⟨last, run, ended, -⟩ := check_ok.1 ok
  rw [run_blank rfl blank run] at ended
  cases ended

theorem members_blank (blank : Text.isBlank bytes = true) : ∃ e, members bytes = .error e := by
  rw [members]
  cases h : check bytes with
  | ok => exact absurd h (check_blank blank)
  | error => exact ⟨_, rfl⟩

end Blank
end TxHeap.Json
