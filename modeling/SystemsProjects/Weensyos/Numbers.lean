import SystemsProjects.Lib.CString
import SystemsProjects.Lib.Numeral
import Mathlib.Data.UInt
import Mathlib.Tactic.SplitIfs

/-!
# Reading and printing numbers

`from_chars` for `unsigned long` (`lab4-TheCarton-main/lib.cc:252-283`) and `print_number`
(`lib.cc:363-392`). A pointer into the characters is the list of those from there on up to `last`.
-/

namespace SystemsProjects.Weensyos

open SystemsProjects.Lib

/-! ## `from_chars` -/

def eInval : Int := -22
def eRange : Int := -34

/-- `ULONG_MAX`, the value of `-1UL`. -/
def ulongMax : Nat := 2 ^ 64 - 1

/-- The value of a character, with the tests of the source in their order (`lib.cc:259-267`). A
`char` is signed. -/
def digitOf (base : Int) (c : UInt8) : Option Nat :=
  let ch := c.toInt8.toInt
  if ch ≥ 48 ∧ ch < 48 + base then some (ch - 48).toNat
  else if ch ≥ 97 ∧ ch < 97 + base - 10 then some (ch - 97 + 10).toNat
  else if ch ≥ 65 ∧ ch < 65 + base - 10 then some (ch - 65 + 10).toNat
  else none

/-- The loop of `from_chars`: the characters that are left, `x` and `overflow`. -/
def fromCharsLoop (base : Int) : List UInt8 → Nat → Bool → List UInt8 × Nat × Bool
  | [], x, overflow => ([], x, overflow)
  | c :: s, x, overflow =>
    match digitOf base c with
    | none => (c :: s, x, overflow)
    | some digit =>
      if x > (ulongMax - digit) / base.toNat then fromCharsLoop base s x true
      else fromCharsLoop base s ((x * base.toNat + digit) % 2 ^ 64) overflow

/-- `from_chars_result`: the pointer, as the characters from there on, and the error code. -/
structure FromCharsResult where
  ptr : List UInt8
  ec : Int
  deriving DecidableEq

/-- `from_chars`, with what `value` holds afterwards. -/
def fromChars (first : List UInt8) (value : Nat) (base : Int) : FromCharsResult × Nat :=
  let (s, x, overflow) := fromCharsLoop base first 0 false
  if s.length = first.length then (⟨s, eInval⟩, value)
  else if overflow then (⟨s, eRange⟩, value)
  else (⟨s, 0⟩, x)

/-- What a reading of the longest prefix of digits gives. -/
def parsedBy (digit : UInt8 → Option Nat) (base : Nat) (first : List UInt8) (value : Nat) :
    FromCharsResult × Nat :=
  if digitText digit first = [] then (⟨digitRest digit first, eInval⟩, value)
  else if 2 ^ 64 ≤ textValue digit base (digitText digit first) then
    (⟨digitRest digit first, eRange⟩, value)
  else (⟨digitRest digit first, 0⟩, textValue digit base (digitText digit first))

/-- The usual value of a character: the digits, and the letters of either case from 10 on. -/
def usualValue (c : UInt8) : Option Nat :=
  if 48 ≤ c.toNat ∧ c.toNat ≤ 57 then some (c.toNat - 48)
  else if 97 ≤ c.toNat ∧ c.toNat ≤ 122 then some (c.toNat - 87)
  else if 65 ≤ c.toNat ∧ c.toNat ≤ 90 then some (c.toNat - 55)
  else none

/-- The digits of a base. -/
def digitIn (base : Nat) (c : UInt8) : Option Nat := (usualValue c).filter (· < base)

/-- A character behind the digits that the first test takes all the same. -/
def Misread (base : Nat) (c : UInt8) : Prop := 57 < c.toNat ∧ c.toNat < 48 + base

instance decidableMisread (base : Nat) (c : UInt8) : Decidable (Misread base c) :=
  inferInstanceAs (Decidable (57 < c.toNat ∧ c.toNat < 48 + base))

section Base
variable {base : Nat} (h2 : 2 ≤ base) (h36 : base ≤ 36) {c : UInt8} {d : Nat} {s : List UInt8}

theorem toInt8_toInt (c : UInt8) :
    c.toInt8.toInt = if c.toNat < 128 then (c.toNat : Int) else c.toNat - 256 := by
  have hc := c.toNat_lt
  rw [show c.toInt8.toInt = c.toBitVec.toInt from rfl, BitVec.toInt_eq_toNat_cond,
    show c.toBitVec.toNat = c.toNat from rfl]
  split_ifs <;> omega

/-- The digits of a base, spelt out. -/
theorem digitIn_eq (base : Nat) (c : UInt8) : digitIn base c =
    if 48 ≤ c.toNat ∧ c.toNat ≤ 57 ∧ c.toNat < 48 + base then some (c.toNat - 48)
    else if 97 ≤ c.toNat ∧ c.toNat ≤ 122 ∧ c.toNat < 87 + base then some (c.toNat - 87)
    else if 65 ≤ c.toNat ∧ c.toNat ≤ 90 ∧ c.toNat < 55 + base then some (c.toNat - 55)
    else none := by
  unfold digitIn usualValue
  split_ifs
  all_goals simp only [Option.filter_some, Option.filter_none, decide_eq_true_eq]
  all_goals grind

/-- The source takes the misread characters for digits, and is right about the others. -/
theorem digitOf_eq (h36 : base ≤ 36) (c : UInt8) :
    digitOf base c = if Misread base c then some (c.toNat - 48) else digitIn base c := by
  have hc := c.toNat_lt
  have hch := toInt8_toInt c
  unfold digitOf
  dsimp only
  by_cases h : Misread base c
  · obtain ⟨h57, hlt⟩ := id h
    rw [if_pos (by omega)] at hch
    rw [if_pos h, hch, if_pos (by omega), show ((c.toNat : Int) - 48).toNat = c.toNat - 48 by omega]
  · rw [if_neg h, digitIn_eq, hch]
    unfold Misread at h
    split_ifs
    all_goals first
      | rfl
      | omega
      | (rw [Option.some.injEq]; omega)

theorem usualValue_of_misread (h36 : base ≤ 36) (h : Misread base c) (hd : usualValue c = some d) :
    d + 7 = c.toNat - 48 := by
  obtain ⟨h57, hlt⟩ := h
  unfold usualValue at hd
  split_ifs at hd <;> simp at hd <;> omega

theorem digitIn_lt (hd : digitIn base c = some d) : d < base := by
  have h := (Option.filter_eq_some_iff.mp hd).2
  exact of_decide_eq_true h

include h36 in
theorem digitOf_lt (hd : digitOf base c = some d) : d < base := by
  rw [digitOf_eq h36] at hd
  split_ifs at hd with h
  · obtain rfl := Option.some.inj hd
    obtain ⟨h57, hlt⟩ := h
    omega
  · exact digitIn_lt hd

/-- Every digit is taken, with its value or a larger one. -/
theorem digitOf_of_digitIn (h36 : base ≤ 36) (c : UInt8) (d : Nat) (hd : digitIn base c = some d) :
    ∃ e, digitOf base c = some e ∧ d ≤ e := by
  rw [digitOf_eq h36]
  by_cases h : Misread base c
  · have hval := usualValue_of_misread h36 h (Option.filter_eq_some_iff.mp hd).1
    exact ⟨c.toNat - 48, if_pos h, by omega⟩
  · exact ⟨d, by rw [if_neg h, hd], le_rfl⟩

theorem digitOf_ne_iff (h36 : base ≤ 36) (hd : digitIn base c = some d) :
    digitOf base c ≠ digitIn base c ↔ Misread base c := by
  rw [digitOf_eq h36]
  by_cases h : Misread base c
  · have hval := usualValue_of_misread h36 h (Option.filter_eq_some_iff.mp hd).1
    rw [if_pos h, hd]
    refine iff_of_true (fun heq => ?_) h
    have := Option.some.inj heq
    omega
  · rw [if_neg h]
    exact iff_of_false (fun hne => hne rfl) h

/-! ## The loop -/

include h2 h36

/-- The loop reads the longest prefix of what it takes for digits and counts its value. -/
theorem fromCharsLoop_eq (s : List UInt8) {v x : Nat} {overflow : Bool}
    (h : Counted ulongMax v x overflow) :
    ∃ x' overflow', fromCharsLoop base s x overflow = (digitRest (digitOf base) s, x', overflow') ∧
      Counted ulongMax (((digitText (digitOf base) s).map fun c => (digitOf base c).getD 0).foldl
        (fun n d => n * base + d) v) x' overflow' := by
  induction s generalizing v x overflow with
  | nil => exact ⟨x, overflow, rfl, h⟩
  | cons c s ih =>
    unfold fromCharsLoop
    cases hc : digitOf base c with
    | none =>
      rw [digitText_cons_none hc, digitRest_cons_none hc]
      exact ⟨x, overflow, rfl, h⟩
    | some d =>
      have hd := digitOf_lt h36 hc
      have hbound : d ≤ ulongMax := by
        unfold ulongMax
        omega
      rw [digitText_cons_some hc, digitRest_cons_some hc]
      simp only [Int.toNat_natCast, List.map_cons, List.foldl_cons, hc, Option.getD_some, gt_iff_lt]
      by_cases hover : (ulongMax - d) / base < x
      · rw [if_pos hover]
        exact ih (h.overflow (by omega) hbound hover)
      · have hfits := mt (div_lt_iff_overflow (by omega : 0 < base) hbound).mpr hover
        have hmod : (x * base + d) % 2 ^ 64 = x * base + d := by
          apply Nat.mod_eq_of_lt
          unfold ulongMax at hfits
          omega
        rw [if_neg hover, hmod]
        exact ih (h.keep (by omega) hbound hover)

theorem fromChars_eq (s : List UInt8) (value : Nat) :
    fromChars s value base = parsedBy (digitOf base) base s value := by
  have hzero : Counted ulongMax 0 0 false := .inl ⟨rfl, rfl, Nat.zero_le _⟩
  obtain ⟨x, overflow, hloop, hcount⟩ := fromCharsLoop_eq h2 h36 s hzero
  have hsplit : (digitText (digitOf base) s).length + (digitRest (digitOf base) s).length =
      s.length := by
    rw [← List.length_append, digitText, digitRest, List.takeWhile_append_dropWhile]
  unfold fromChars parsedBy
  rw [hloop]
  dsimp only
  by_cases hnil : digitText (digitOf base) s = []
  · rw [hnil, List.length_nil, Nat.zero_add] at hsplit
    rw [if_pos hsplit, if_pos hnil]
  · have hpos := List.length_pos_iff.mpr hnil
    rw [if_neg (by omega), if_neg hnil]
    have hvalue : Counted ulongMax (textValue (digitOf base) base (digitText (digitOf base) s)) x
      overflow := hcount
    unfold ulongMax at hvalue
    rcases hvalue with ⟨rfl, rfl, hle⟩ | ⟨rfl, hlt⟩
    · rw [if_neg Bool.false_ne_true, if_neg (by omega)]
    · rw [if_pos rfl, if_pos (by omega)]

end Base

/-! ## What is parsed exactly -/

section Exact
variable {base : Nat} (h36 : base ≤ 36) {first : List UInt8}

theorem parsedBy_ptr (digit : UInt8 → Option Nat) (base : Nat) (first : List UInt8) (value : Nat) :
    (parsedBy digit base first value).1.ptr = digitRest digit first := by
  unfold parsedBy
  split_ifs <;> rfl

include h36

/-- A misread character behind the digits is consumed with them. -/
theorem parsedBy_ne_of_next {c : UInt8} (hc : c ∈ (digitRest (digitIn base) first).head?)
    (hmis : Misread base c) (value : Nat) :
    parsedBy (digitOf base) base first value ≠ parsedBy (digitIn base) base first value := by
  intro h
  have hptr : digitRest (digitOf base) first = digitRest (digitIn base) first := by
    rw [← parsedBy_ptr _ base first value, h, parsedBy_ptr]
  obtain ⟨s, hs⟩ := List.head?_eq_some_iff.mp hc
  have hsome : digitOf base c = some (c.toNat - 48) := by rw [digitOf_eq h36, if_pos hmis]
  rw [← digitRest_digitRest (digitOf_of_digitIn h36), hs, digitRest_cons_some hsome] at hptr
  have hshort : (digitRest (digitOf base) s).length ≤ s.length := List.length_dropWhile_le _ _
  rw [hptr, List.length_cons] at hshort
  exact absurd hshort (Nat.not_succ_le_self s.length)

/-- A misread digit counts seven too many. -/
theorem textValue_lt_of_misread (h2 : 2 ≤ base) {c : UInt8}
    (hc : c ∈ digitText (digitIn base) first) (hmis : Misread base c) :
    textValue (digitIn base) base (digitText (digitIn base) first) <
      textValue (digitOf base) base (digitText (digitIn base) first) := by
  have hsome : ∀ x ∈ digitText (digitIn base) first, (digitIn base x).isSome :=
    fun x => isSome_of_mem_digitText
  obtain ⟨d, hd⟩ := Option.isSome_iff_exists.mp (hsome c hc)
  apply textValue_strictMono (digitOf_of_digitIn h36) (by omega) hsome
  exact ⟨c, hc, (digitOf_ne_iff h36 hd).mpr hmis⟩

theorem textValue_of_read {t : List UInt8} (h : ∀ c ∈ t, ¬ Misread base c) :
    textValue (digitOf base) base t = textValue (digitIn base) base t := by
  unfold textValue
  congr 1
  apply List.map_congr_left
  intro c hc
  rw [digitOf_eq h36, if_neg (h c hc)]

/-- With no misread character behind the digits, only the value can be wrong. -/
theorem parsedBy_eq_iff_of_next (h2 : 2 ≤ base)
    (hnext : ∀ c ∈ (digitRest (digitIn base) first).head?, ¬ Misread base c) (value : Nat) :
    parsedBy (digitOf base) base first value = parsedBy (digitIn base) base first value ↔
      2 ^ 64 ≤ textValue (digitIn base) base (digitText (digitIn base) first) ∨
        ∀ c ∈ digitText (digitIn base) first, ¬ Misread base c := by
  have hstop : ∀ c ∈ (digitRest (digitIn base) first).head?, digitOf base c = none := by
    intro c hc
    rw [digitOf_eq h36, if_neg (hnext c hc)]
    exact head?_digitRest hc
  obtain ⟨htext, hrest⟩ := digitText_congr (digitOf_of_digitIn h36) hstop
  unfold parsedBy
  rw [htext, hrest]
  by_cases hnil : digitText (digitIn base) first = []
  · rw [if_pos hnil, if_pos hnil, hnil]
    exact iff_of_true rfl (.inr fun c hc => absurd hc List.not_mem_nil)
  rw [if_neg hnil, if_neg hnil]
  by_cases hread : ∀ c ∈ digitText (digitIn base) first, ¬ Misread base c
  · rw [textValue_of_read h36 hread]
    exact iff_of_true rfl (.inr hread)
  push Not at hread
  obtain ⟨c, hc, hmis⟩ := hread
  have hlt := textValue_lt_of_misread h36 h2 hc hmis
  by_cases hrange : 2 ^ 64 ≤ textValue (digitIn base) base (digitText (digitIn base) first)
  · rw [if_pos hrange, if_pos (by omega)]
    exact iff_of_true rfl (.inl hrange)
  · rw [if_neg hrange]
    refine iff_of_false ?_ (fun h => h.elim hrange fun h => h c hc hmis)
    split_ifs
    · intro h
      have hec : eRange = 0 := congrArg (fun r => r.1.ec) h
      exact absurd hec (by decide)
    · intro h
      exact hlt.ne' (Prod.mk.inj h).2

end Exact

/-- `from_chars` parses the longest prefix of digits exactly when the character behind it is not
misread and, unless its value is out of range, no character of it is. -/
theorem fromChars_exact_iff {base : Nat} (h2 : 2 ≤ base) (h36 : base ≤ 36) (first : List UInt8)
    (value : Nat) :
    fromChars first value base = parsedBy (digitIn base) base first value ↔
      (∀ c ∈ (digitRest (digitIn base) first).head?, ¬ Misread base c) ∧
      (2 ^ 64 ≤ textValue (digitIn base) base (digitText (digitIn base) first) ∨
        ∀ c ∈ digitText (digitIn base) first, ¬ Misread base c) := by
  rw [fromChars_eq h2 h36]
  by_cases hnext : ∀ c ∈ (digitRest (digitIn base) first).head?, ¬ Misread base c
  · rw [parsedBy_eq_iff_of_next h36 h2 hnext]
    exact (and_iff_right hnext).symm
  · refine iff_of_false ?_ (fun h => hnext h.1)
    push Not at hnext
    obtain ⟨c, hc, hmis⟩ := hnext
    exact parsedBy_ne_of_next h36 hc hmis value

/-- `7f` in base 16. -/
theorem fromChars_exact_hex :
    fromChars [55, 102] 0 (16 : Nat) = parsedBy (digitIn 16) 16 [55, 102] 0 ↔
      (∀ c ∈ (digitRest (digitIn 16) [55, 102]).head?, ¬ Misread 16 c) ∧
      (2 ^ 64 ≤ textValue (digitIn 16) 16 (digitText (digitIn 16) [55, 102]) ∨
        ∀ c ∈ digitText (digitIn 16) [55, 102], ¬ Misread 16 c) :=
  fromChars_exact_iff (by decide) (by decide) [55, 102] 0

/-- In base 16 the colon is parsed as 10, in base 36 the letter `A` as 17. -/
theorem fromChars_colon :
    fromChars [58] 0 (16 : Nat) ≠ parsedBy (digitIn 16) 16 [58] 0 ∧
      fromChars [58] 0 (16 : Nat) = (⟨[], 0⟩, 10) ∧
      fromChars [65] 0 (36 : Nat) = (⟨[], 0⟩, 17) := by
  decide

/-! ## `print_number` -/

def flagThousands : BitVec 32 := 1 <<< 5

/-- `upper_digits` with its NUL. -/
def upperDigits : List UInt8 :=
  [48, 49, 50, 51, 52, 53, 54, 55, 56, 57, 65, 66, 67, 68, 69, 70, 0]

/-- `lower_digits` with its NUL. -/
def lowerDigits : List UInt8 :=
  [48, 49, 50, 51, 52, 53, 54, 55, 56, 57, 97, 98, 99, 100, 101, 102, 0]

/-- `pos - (base == 10 ? 3 : 4)`, which may lie before the buffer. -/
def thousandsBefore (base pos : Nat) : Int := pos - if base = 10 then 3 else 4

/-- What `print_number` leaves: the pointer it returns, the buffer, and what was left of `val`. -/
structure Printed where
  pos : Nat
  buf : List UInt8
  left : Nat

/-- The loop of `print_number` (`lib.cc:382-390`) with `pos` and `thousands_pos`. A store before the
buffer, a digit that the table does not have and a division by zero are faults. -/
def printLoop (digits : List UInt8) (base : Nat) :
    (pos : Nat) → List UInt8 → Nat → Option Int → Option Printed
  | 0, _, _, _ => none
  | pos + 1, buf, val, thousandsPos =>
    if thousandsPos = some (pos + 1 : Int) then
      let buf := buf.set pos (if base = 10 then 44 else 39)
      if val ≠ 0 ∧ pos ≠ 0 then printLoop digits base pos buf val (some (thousandsBefore base pos))
      else some ⟨pos, buf, val⟩
    else if base = 0 then none
    else do
      let d ← digits[val % base]?
      let buf := buf.set pos d
      if val / base ≠ 0 ∧ pos ≠ 0 then printLoop digits base pos buf (val / base) thousandsPos
      else some ⟨pos, buf, val / base⟩

/-- `print_number`; `sz` is the length of the buffer. -/
def printNumber (buf : List UInt8) (val : Nat) (base : Int) (flags : BitVec 32) : Option Printed :=
  let digits := if base < 0 then lowerDigits else upperDigits
  let base := base.natAbs
  match buf.length with
  | 0 => none
  | pos + 1 =>
    printLoop digits base pos (buf.set pos 0) val
      (if flags &&& flagThousands ≠ 0 then some (thousandsBefore base pos) else none)

/-- The text of a number. -/
def numberText (digits : List UInt8) (base n : Nat) : List UInt8 :=
  (digitsOf base n).map fun d => digits.getD d 0

section Print
variable {digits : List UInt8} {base : Nat} (h1 : 1 < base) (htable : base ≤ digits.length)

theorem drop_set_self {buf : List UInt8} {pos : Nat} (h : pos < buf.length) (c : UInt8) :
    (buf.set pos c).drop pos = c :: buf.drop (pos + 1) := by
  rw [List.drop_eq_getElem_cons (by rw [List.length_set]; exact h), List.getElem_set_self,
    List.drop_set_of_lt (Nat.lt_succ_self pos)]

include h1 htable

/-- With room for the digits, the loop stores the text of the number before `pos`. -/
theorem printLoop_eq (pos : Nat) (buf : List UInt8) {val : Nat} (hpos : 0 < pos)
    (hbuf : pos ≤ buf.length) (hval : val < base ^ pos) :
    ∃ p buf', printLoop digits base pos buf val none = some ⟨p, buf', 0⟩ ∧
      buf'.drop p = numberText digits base val ++ buf.drop pos := by
  induction pos generalizing buf val with
  | zero => exact absurd hpos (lt_irrefl 0)
  | succ pos ih =>
    have hdigit : digits[val % base]? = some (digits.getD (val % base) 0) := by
      have hlt : val % base < digits.length :=
        Nat.lt_of_lt_of_le (Nat.mod_lt val (by omega)) htable
      rw [List.getD_eq_getElem?_getD, List.getElem?_eq_getElem hlt, Option.getD_some]
    unfold printLoop
    rw [if_neg (by simp), if_neg (by omega), hdigit]
    simp only [Option.bind_eq_bind, Option.bind_some]
    by_cases hzero : val / base = 0
    · rw [if_neg (fun h => h.1 hzero), hzero]
      refine ⟨pos, _, rfl, ?_⟩
      rw [drop_set_self (by omega), numberText, digitsOf_single h1 hzero]
      rfl
    · have hdiv : val / base < base ^ pos := by
        rw [Nat.div_lt_iff_lt_mul (by omega), ← Nat.pow_succ]
        exact hval
      have hne : pos ≠ 0 := by
        rintro rfl
        rw [pow_zero, Nat.lt_one_iff] at hdiv
        exact hzero hdiv
      rw [if_pos ⟨hzero, hne⟩]
      obtain ⟨p, buf', hloop, hdrop⟩ := ih (buf.set pos (digits.getD (val % base) 0))
        (Nat.pos_of_ne_zero hne) (by rw [List.length_set]; omega) hdiv
      refine ⟨p, buf', hloop, ?_⟩
      rw [hdrop, drop_set_self (by omega), numberText, numberText, digitsOf_snoc h1 hzero,
        List.map_append, List.append_assoc]
      rfl

end Print

/-- A table of digits, and a base in which `from_chars` reads its characters back. -/
structure ReadsBack (digits : List UInt8) (base : Nat) : Prop where
  base_ge : 10 ≤ base
  base_le : base ≤ 36
  table : base ≤ digits.length
  reads : ∀ d < base, digitOf base (digits.getD d 0) = some d
  nonzero : ∀ d < base, digits.getD d 0 ≠ 0

theorem readsBack_upper : ReadsBack upperDigits 10 ∧ ReadsBack upperDigits 16 :=
  ⟨⟨by decide, by decide, by decide, by decide, by decide⟩,
    ⟨by decide, by decide, by decide, by decide, by decide⟩⟩

theorem readsBack_lower : ReadsBack lowerDigits 16 :=
  ⟨by decide, by decide, by decide, by decide, by decide⟩

section Back
variable {digits : List UInt8} {base : Nat} (h : ReadsBack digits base)
include h

theorem ReadsBack.mem_numberText {n : Nat} {c : UInt8} (hc : c ∈ numberText digits base n) :
    ∃ d < base, digits.getD d 0 = c := by
  obtain ⟨d, hd, rfl⟩ := List.mem_map.mp hc
  have h10 := h.base_ge
  exact ⟨d, digitsOf_lt (by omega) n d hd, rfl⟩

/-- `from_chars` reads the text of a number. -/
theorem ReadsBack.fromChars_numberText {n : Nat} (hn : n < 2 ^ 64) (value : Nat) :
    fromChars (numberText digits base n) value base = (⟨[], 0⟩, n) := by
  have h10 := h.base_ge
  have hsome : ∀ c ∈ numberText digits base n, (digitOf base c).isSome := by
    intro c hc
    obtain ⟨d, hd, rfl⟩ := h.mem_numberText hc
    exact Option.isSome_of_eq_some (h.reads d hd)
  obtain ⟨htext, hrest⟩ := digitText_of_all hsome [] (by simp)
  rw [List.append_nil] at htext hrest
  have hvalue : textValue (digitOf base) base (numberText digits base n) = n := by
    unfold textValue numberText
    rw [List.map_map, List.map_congr_left (g := id), List.map_id, numeralValue_digitsOf]
    intro d hd
    simp only [Function.comp_apply, h.reads d (digitsOf_lt (by omega) n d hd), Option.getD_some,
      id_eq]
  rw [fromChars_eq (by omega) h.base_le]
  unfold parsedBy
  rw [htext, hrest, hvalue, if_neg (by simp [numberText, digitsOf_ne_nil]), if_neg (by omega)]

/-- Printed into 32 bytes and parsed again. -/
theorem ReadsBack.print_parse {buf : List UInt8} (hbuf : buf.length = 32) {n : Nat}
    (hn : n < 2 ^ 64) (value : Nat) :
    ∃ pos buf' text, printLoop digits base 31 (buf.set 31 0) n none = some ⟨pos, buf', 0⟩ ∧
      cstr (buf'.drop pos) = some text ∧ fromChars text value base = (⟨[], 0⟩, n) := by
  have h10 := h.base_ge
  have hroom : n < base ^ 31 := by
    have hpow : 10 ^ 31 ≤ base ^ 31 := Nat.pow_le_pow_left h10 31
    have hsmall : 2 ^ 64 ≤ 10 ^ 31 := by norm_num
    omega
  obtain ⟨pos, buf', hloop, hdrop⟩ := printLoop_eq (by omega) h.table 31 (buf.set 31 0)
    (by omega) (by rw [List.length_set]; omega) hroom
  refine ⟨pos, buf', numberText digits base n, hloop, ?_, h.fromChars_numberText hn value⟩
  have hend : (buf.set 31 0).drop 31 = [0] := by
    rw [drop_set_self (by omega), List.drop_of_length_le (by omega)]
  rw [hdrop, hend]
  refine cstr_eq_some_iff.mpr ⟨?_, List.prefix_rfl⟩
  intro hzero
  obtain ⟨d, hd, hc⟩ := h.mem_numberText hzero
  exact h.nonzero d hd hc

end Back

/-- Parsing undoes printing: in base 10, 16 or -16, and without `FLAG_THOUSANDS`, `print_number`
stores all digits of a number in 32 bytes, and `from_chars` reads the number back. -/
theorem fromChars_printNumber (v : BitVec 64) {base : Int}
    (hbase : base = 10 ∨ base = 16 ∨ base = -16)
    {flags : BitVec 32} (hflags : flags &&& flagThousands = 0) {buf : List UInt8}
    (hbuf : buf.length = 32) (value : Nat) :
    ∃ pos buf' text, printNumber buf v.toNat base flags = some ⟨pos, buf', 0⟩ ∧
      cstr (buf'.drop pos) = some text ∧ fromChars text value base.natAbs = (⟨[], 0⟩, v.toNat) := by
  have hprint : printNumber buf v.toNat base flags =
      printLoop (if base < 0 then lowerDigits else upperDigits) base.natAbs 31 (buf.set 31 0)
        v.toNat none := by
    unfold printNumber
    rw [hbuf]
    simp only [hflags, ne_eq, not_true_eq_false, if_false]
  rw [hprint]
  rcases hbase with rfl | rfl | rfl
  · exact readsBack_upper.1.print_parse hbuf v.isLt value
  · exact readsBack_upper.2.print_parse hbuf v.isLt value
  · exact readsBack_lower.print_parse hbuf v.isLt value

/-- The largest number in lower-case hexadecimal. -/
theorem fromChars_printNumber_max : ∃ pos buf' text,
    printNumber (List.replicate 32 0) (BitVec.allOnes 64).toNat (-16) 0 = some ⟨pos, buf', 0⟩ ∧
      cstr (buf'.drop pos) = some text ∧
      fromChars text 0 (-16 : Int).natAbs = (⟨[], 0⟩, (BitVec.allOnes 64).toNat) :=
  fromChars_printNumber (BitVec.allOnes 64) (.inr (.inr rfl)) (by decide) (by decide) 0

end SystemsProjects.Weensyos
