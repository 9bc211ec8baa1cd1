import Mathlib.Data.Nat.Digits.Defs
import Mathlib.Data.List.TakeWhile

/-!
# Decimal text

`decimal n` is the text that `printf` writes for `%d`. `atoi` is the number that a text denotes,
without a bound, and `atoiInt` the `int` that the function of this name returns.
-/

namespace SystemsProjects.Lib

/-- The text of a number in decimal. -/
def decimal (n : Nat) : List UInt8 :=
  if n = 0 then [48] else (Nat.digits 10 n).reverse.map fun d => UInt8.ofNat (48 + d)

/-- `isdigit`. -/
def isDigit (c : UInt8) : Bool := 48 ≤ c && c ≤ 57

/-- `isspace`: blank and the control characters from tab to carriage return. -/
def isSpace (c : UInt8) : Bool := c == 32 || (9 ≤ c && c ≤ 13)

/-- The number that the digits at the head of a text denote. -/
def digitsValue (s : List UInt8) : Nat :=
  (s.takeWhile isDigit).foldl (fun n c => 10 * n + (c.toNat - 48)) 0

/-- The number that a text denotes, with its sign. -/
def atoi (s : List UInt8) : Int :=
  match s.dropWhile isSpace with
  | [] => 0
  | c :: s =>
    if c = 45 then -(digitsValue s : Int)
    else if c = 43 then digitsValue s
    else digitsValue (c :: s)

/-- `atoi` on a string: the number as a `long`, which holds at its bounds, and of it the lower half.
-/
def atoiInt (s : List UInt8) : BitVec 32 :=
  BitVec.ofInt 32 (max (-2 ^ 63) (min (2 ^ 63 - 1) (atoi s)))

theorem toNat_digit {d : Nat} (hd : d < 10) : (UInt8.ofNat (48 + d)).toNat = 48 + d := by
  rw [UInt8.toNat_ofNat']
  exact Nat.mod_eq_of_lt (by omega)

theorem isDigit_digit {d : Nat} (hd : d < 10) : isDigit (UInt8.ofNat (48 + d)) = true := by
  have h := toNat_digit hd
  simp only [isDigit, Bool.and_eq_true, decide_eq_true_eq, UInt8.le_iff_toNat_le, h]
  exact ⟨Nat.le_add_right 48 d, by change 48 + d ≤ 57; omega⟩

/-- The text of digits denotes the number with these digits. -/
theorem foldl_digits (ds : List Nat) (hds : ∀ d ∈ ds, d < 10) :
    (ds.reverse.map fun d => UInt8.ofNat (48 + d)).foldl
      (fun n c => 10 * n + (c.toNat - 48)) 0 = Nat.ofDigits 10 ds := by
  induction ds with
  | nil => rfl
  | cons d ds ih =>
    have ih := ih fun e he => hds e (List.mem_cons_of_mem d he)
    rw [List.reverse_cons, List.map_append, List.foldl_append, ih, Nat.ofDigits_cons]
    simp only [List.map_cons, List.map_nil, List.foldl_cons, List.foldl_nil,
      toNat_digit (hds d List.mem_cons_self)]
    rw [Nat.add_sub_cancel_left, Nat.add_comm]

theorem isDigit_of_mem_decimal {n : Nat} {c : UInt8} (hc : c ∈ decimal n) : isDigit c = true := by
  unfold decimal at hc
  split at hc
  · rw [List.mem_singleton.mp hc]
    rfl
  · obtain ⟨d, hd, rfl⟩ := List.mem_map.mp hc
    exact isDigit_digit (Nat.digits_lt_base (by omega) (List.mem_reverse.mp hd))

/-- The digits end where the text of the number does. -/
theorem digitsValue_decimal_append (n : Nat) {rest : List UInt8}
    (hrest : rest.takeWhile isDigit = []) : digitsValue (decimal n ++ rest) = n := by
  unfold digitsValue
  rw [List.takeWhile_append_of_pos fun c hc => isDigit_of_mem_decimal hc, hrest, List.append_nil]
  unfold decimal
  by_cases hn : n = 0
  · rw [if_pos hn, hn]
    rfl
  · rw [if_neg hn, foldl_digits _ fun d => Nat.digits_lt_base (by omega), Nat.ofDigits_digits]

/-- The text of a number starts with a digit. -/
theorem decimal_cons (n : Nat) : ∃ c s, decimal n = c :: s ∧ isDigit c = true := by
  unfold decimal
  by_cases hn : n = 0
  · rw [if_pos hn]
    exact ⟨48, [], rfl, rfl⟩
  · rw [if_neg hn]
    have hne : (Nat.digits 10 n).reverse ≠ [] :=
      mt List.reverse_eq_nil_iff.mp (Nat.digits_ne_nil_iff_ne_zero.mpr hn)
    obtain ⟨d, ds, hds⟩ := List.exists_cons_of_ne_nil hne
    have hd : d ∈ Nat.digits 10 n := by
      rw [← List.mem_reverse, hds]
      exact List.mem_cons_self
    rw [hds, List.map_cons]
    exact ⟨_, _, rfl, isDigit_digit (Nat.digits_lt_base (by omega) hd)⟩

/-- A digit is neither a blank nor a sign. -/
theorem isDigit_ne {c : UInt8} (hc : isDigit c = true) : isSpace c = false ∧ c ≠ 45 ∧ c ≠ 43 := by
  simp only [isDigit, Bool.and_eq_true, decide_eq_true_eq, UInt8.le_iff_toNat_le,
    UInt8.toNat_ofNat] at hc
  refine ⟨?_, ?_, ?_⟩
  · simp only [isSpace, Bool.or_eq_false_iff, beq_eq_false_iff_ne, ne_eq, Bool.and_eq_false_iff,
      decide_eq_false_iff_not, UInt8.le_iff_toNat_le, UInt8.toNat_ofNat]
    refine ⟨?_, Or.inr (by omega)⟩
    intro h
    rw [h] at hc
    exact absurd hc.1 (by decide)
  · intro h
    rw [h] at hc
    exact absurd hc.1 (by decide)
  · intro h
    rw [h] at hc
    exact absurd hc.1 (by decide)

/-- `atoi` reads the text of a number, whatever comes behind its digits. -/
theorem atoi_decimal_append (n : Nat) {rest : List UInt8} (hrest : rest.takeWhile isDigit = []) :
    atoi (decimal n ++ rest) = n := by
  obtain ⟨c, s, hs, hc⟩ := decimal_cons n
  obtain ⟨hspace, hminus, hplus⟩ := isDigit_ne hc
  have hvalue := digitsValue_decimal_append n hrest
  rw [hs, List.cons_append] at hvalue ⊢
  rw [atoi, List.dropWhile_cons_of_neg (by rw [hspace]; exact Bool.false_ne_true)]
  simp only [if_neg hminus, if_neg hplus, hvalue]

/-- `atoi` reads what `%d` writes. -/
theorem atoi_decimal (n : Nat) : atoi (decimal n) = n := by
  have hnil : ([] : List UInt8).takeWhile isDigit = [] := rfl
  have h := atoi_decimal_append n hnil
  rwa [List.append_nil] at h

/-- The text of `%d`, with its sign. -/
def signed (z : Int) : List UInt8 :=
  if z < 0 then 45 :: decimal z.natAbs else decimal z.natAbs

theorem signed_ne_nil (z : Int) : signed z ≠ [] := by
  unfold signed
  split
  · exact List.cons_ne_nil _ _
  · obtain ⟨c, s, hs, -⟩ := decimal_cons z.natAbs
    rw [hs]
    exact List.cons_ne_nil c s

/-- A sign or a digit. -/
theorem mem_signed {z : Int} {c : UInt8} (hc : c ∈ signed z) : c = 45 ∨ isDigit c = true := by
  unfold signed at hc
  split at hc
  · rcases List.mem_cons.mp hc with hc | hc
    · exact Or.inl hc
    · exact Or.inr (isDigit_of_mem_decimal hc)
  · exact Or.inr (isDigit_of_mem_decimal hc)

/-- `atoi` reads a signed number, whatever comes behind its digits. -/
theorem atoi_signed_append (z : Int) {rest : List UInt8} (hrest : rest.takeWhile isDigit = []) :
    atoi (signed z ++ rest) = z := by
  unfold signed
  split
  · rw [List.cons_append, atoi, List.dropWhile_cons_of_neg (by decide)]
    simp only [if_true, digitsValue_decimal_append _ hrest]
    omega
  · rw [atoi_decimal_append _ hrest]
    omega

/-- A text that denotes an `int` is read as this `int`. -/
theorem atoiInt_of_atoi {s : List UInt8} {k : BitVec 32} (h : atoi s = k.toInt) :
    atoiInt s = k := by
  have hlow := k.le_toInt
  have hhigh := k.toInt_lt
  unfold atoiInt
  rw [h, min_eq_right (by omega), max_eq_right (by omega), BitVec.ofInt_toInt]

theorem toInt_atoiInt {s : List UInt8} {n : Nat} (h : atoi s = n) (hn : n < 2 ^ 31) :
    (atoiInt s).toInt = n := by
  have hk : (BitVec.ofNat 32 n).toInt = n := by
    rw [BitVec.toInt_ofNat', Int.bmod_eq_of_le (by omega) (by omega)]
  rw [atoiInt_of_atoi (h.trans hk.symm), hk]

end SystemsProjects.Lib
