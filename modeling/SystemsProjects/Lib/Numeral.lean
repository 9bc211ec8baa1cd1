import Mathlib.Data.Nat.Digits.Defs
import Mathlib.Data.List.TakeWhile

/-!
# Positional numerals

A number is read off the digits at the head of a text: `digitText` is the longest prefix of digits
and `textValue` what it denotes. Which characters are digits, and of which value, is a parameter,
so that two readings of one text can be compared. `digitsOf` are the digits of a number, and
`Counted` is what an accumulator that tests for overflow holds.
-/

namespace SystemsProjects.Lib

variable {α : Type} {digit digit' : α → Option Nat} {b : Nat} {s t : List α}

/-- The number that digits denote in base `b`, the most significant first. -/
def numeralValue (b : Nat) (ds : List Nat) : Nat := ds.foldl (fun n d => n * b + d) 0

/-- The digits at the head of a text. -/
def digitText (digit : α → Option Nat) (s : List α) : List α :=
  s.takeWhile fun c => (digit c).isSome

/-- What follows them. -/
def digitRest (digit : α → Option Nat) (s : List α) : List α :=
  s.dropWhile fun c => (digit c).isSome

/-- The number that a text of digits denotes. -/
def textValue (digit : α → Option Nat) (b : Nat) (s : List α) : Nat :=
  numeralValue b (s.map fun c => (digit c).getD 0)

/-- The digits of a number, the most significant first. -/
def digitsOf (b n : Nat) : List Nat := if n = 0 then [0] else (Nat.digits b n).reverse

/-! ## Values -/

theorem numeralValue_snoc (b : Nat) (ds : List Nat) (d : Nat) :
    numeralValue b (ds ++ [d]) = numeralValue b ds * b + d := by
  simp only [numeralValue, List.foldl_append, List.foldl_cons, List.foldl_nil]

theorem numeralValue_reverse (b : Nat) (ds : List Nat) :
    numeralValue b ds.reverse = Nat.ofDigits b ds := by
  induction ds with
  | nil => rfl
  | cons d ds ih =>
    rw [List.reverse_cons, numeralValue_snoc, ih, Nat.ofDigits_cons, Nat.mul_comm b, Nat.add_comm]

theorem numeralValue_digitsOf (b n : Nat) : numeralValue b (digitsOf b n) = n := by
  unfold digitsOf
  by_cases hn : n = 0
  · rw [if_pos hn, hn]
    simp only [numeralValue, List.foldl_cons, List.foldl_nil, Nat.zero_mul, Nat.add_zero]
  · rw [if_neg hn, numeralValue_reverse, Nat.ofDigits_digits]

theorem digitsOf_lt (hb : 1 < b) (n : Nat) : ∀ d ∈ digitsOf b n, d < b := by
  intro d hd
  unfold digitsOf at hd
  split at hd
  · obtain rfl := List.mem_singleton.mp hd
    exact Nat.lt_of_succ_lt hb
  · exact Nat.digits_lt_base hb (List.mem_reverse.mp hd)

theorem digitsOf_ne_nil (b n : Nat) : digitsOf b n ≠ [] := by
  unfold digitsOf
  split
  · exact List.cons_ne_nil 0 []
  · rename_i hn
    exact mt List.reverse_eq_nil_iff.mp (Nat.digits_ne_nil_iff_ne_zero.mpr hn)

/-- The last digit is the remainder. -/
theorem digitsOf_snoc (hb : 1 < b) {n : Nat} (hn : n / b ≠ 0) :
    digitsOf b n = digitsOf b (n / b) ++ [n % b] := by
  have hpos : n ≠ 0 := by
    intro h
    rw [h, Nat.zero_div] at hn
    exact hn rfl
  unfold digitsOf
  rw [if_neg hpos, if_neg hn, Nat.digits_def' hb (Nat.pos_of_ne_zero hpos), List.reverse_cons]

theorem digitsOf_single {n : Nat} (hb : 1 < b) (hn : n / b = 0) : digitsOf b n = [n % b] := by
  have hlt : n < b := (Nat.div_eq_zero_iff_lt (Nat.lt_of_succ_lt hb)).mp hn
  rw [Nat.mod_eq_of_lt hlt]
  unfold digitsOf
  split
  · rename_i h
    rw [h]
  · rename_i h
    rw [Nat.digits_of_lt b n h hlt]
    rfl

/-! ## Texts -/

section Cons
variable {c : α}

theorem digitText_cons_none (h : digit c = none) (s : List α) : digitText digit (c :: s) = [] :=
  List.takeWhile_cons_of_neg (by simp [h])

theorem digitRest_cons_none (h : digit c = none) (s : List α) :
    digitRest digit (c :: s) = c :: s :=
  List.dropWhile_cons_of_neg (by simp [h])

theorem digitText_cons_some {d : Nat} (h : digit c = some d) (s : List α) :
    digitText digit (c :: s) = c :: digitText digit s :=
  List.takeWhile_cons_of_pos (by simp [h])

theorem digitRest_cons_some {d : Nat} (h : digit c = some d) (s : List α) :
    digitRest digit (c :: s) = digitRest digit s :=
  List.dropWhile_cons_of_pos (by simp [h])

theorem head?_digitRest (h : c ∈ (digitRest digit s).head?) : digit c = none := by
  induction s with
  | nil => exact absurd h (by simp [digitRest])
  | cons x s ih =>
    cases hx : digit x with
    | none =>
      rw [digitRest_cons_none hx, List.head?_cons, Option.mem_some_iff] at h
      rw [← h, hx]
    | some d =>
      rw [digitRest_cons_some hx] at h
      exact ih h

theorem isSome_of_mem_digitText (h : c ∈ digitText digit s) : (digit c).isSome := by
  induction s with
  | nil => exact absurd h List.not_mem_nil
  | cons x s ih =>
    cases hx : digit x with
    | none =>
      rw [digitText_cons_none hx] at h
      exact absurd h List.not_mem_nil
    | some d =>
      rw [digitText_cons_some hx] at h
      rcases List.mem_cons.mp h with rfl | h
      · exact Option.isSome_of_eq_some hx
      · exact ih h

/-- A text of digits is read to its end. -/
theorem digitText_of_all (h : ∀ c ∈ t, (digit c).isSome) (rest : List α)
    (hrest : ∀ c ∈ rest.head?, digit c = none) :
    digitText digit (t ++ rest) = t ∧ digitRest digit (t ++ rest) = rest := by
  induction t with
  | nil =>
    cases rest with
    | nil => exact ⟨rfl, rfl⟩
    | cons c rest =>
      have hc : digit c = none := hrest c rfl
      exact ⟨digitText_cons_none hc rest, digitRest_cons_none hc rest⟩
  | cons x t ih =>
    obtain ⟨d, hd⟩ := Option.isSome_iff_exists.mp (h x List.mem_cons_self)
    obtain ⟨htext, hdrop⟩ := ih fun c hc => h c (List.mem_cons_of_mem x hc)
    rw [List.cons_append, digitText_cons_some hd, digitRest_cons_some hd, htext, hdrop]
    exact ⟨rfl, rfl⟩

end Cons

/-! ## Two readings of one text -/

section Compare
variable (hle : ∀ c d, digit c = some d → ∃ e, digit' c = some e ∧ d ≤ e)
include hle

/-- The reading that knows more digits goes on where the other one stops. -/
theorem digitRest_digitRest (s : List α) :
    digitRest digit' (digitRest digit s) = digitRest digit' s := by
  induction s with
  | nil => rfl
  | cons c s ih =>
    cases hc : digit c with
    | none => rw [digitRest_cons_none hc]
    | some d =>
      obtain ⟨e, he, -⟩ := hle c d hc
      rw [digitRest_cons_some hc, digitRest_cons_some he, ih]

/-- Where the other one stops too, both have read the same text. -/
theorem digitText_congr (h : ∀ c ∈ (digitRest digit s).head?, digit' c = none) :
    digitText digit' s = digitText digit s ∧ digitRest digit' s = digitRest digit s := by
  induction s with
  | nil => exact ⟨rfl, rfl⟩
  | cons c s ih =>
    cases hc : digit c with
    | none =>
      have hc' : digit' c = none := h c (by rw [digitRest_cons_none hc]; rfl)
      rw [digitText_cons_none hc, digitText_cons_none hc', digitRest_cons_none hc,
        digitRest_cons_none hc']
      exact ⟨rfl, rfl⟩
    | some d =>
      obtain ⟨e, he, -⟩ := hle c d hc
      rw [digitRest_cons_some hc] at h ⊢
      obtain ⟨htext, hrest⟩ := ih h
      rw [digitText_cons_some hc, digitText_cons_some he, digitRest_cons_some he, htext, hrest]
      exact ⟨rfl, rfl⟩

/-- Larger digits denote a larger number. -/
theorem foldl_digits_strictMono (hb : 0 < b) (ht : ∀ c ∈ t, (digit c).isSome) {m n : Nat}
    (hmn : m ≤ n) (hlt : m < n ∨ ∃ c ∈ t, digit' c ≠ digit c) :
    (t.map fun c => (digit c).getD 0).foldl (fun n d => n * b + d) m <
      (t.map fun c => (digit' c).getD 0).foldl (fun n d => n * b + d) n := by
  induction t generalizing m n with
  | nil => exact hlt.resolve_right fun ⟨c, hc, _⟩ => absurd hc List.not_mem_nil
  | cons c t ih =>
    obtain ⟨d, hd⟩ := Option.isSome_iff_exists.mp (ht c List.mem_cons_self)
    obtain ⟨e, he, hde⟩ := hle c d hd
    have hmul : m * b ≤ n * b := Nat.mul_le_mul_right b hmn
    apply ih fun x hx => ht x (List.mem_cons_of_mem c hx)
    · simp only [hd, he, Option.getD_some]
      exact Nat.add_le_add hmul hde
    · simp only [hd, he, Option.getD_some]
      rcases hlt with hlt | ⟨x, hx, hne⟩
      · have hmul : m * b < n * b := Nat.mul_lt_mul_of_pos_right hlt hb
        exact .inl (by omega)
      · rcases List.mem_cons.mp hx with rfl | hx
        · have hne : e ≠ d := fun h => hne (by rw [hd, he, h])
          exact .inl (by omega)
        · exact .inr ⟨x, hx, hne⟩

theorem textValue_strictMono (hb : 0 < b) (ht : ∀ c ∈ t, (digit c).isSome)
    (hne : ∃ c ∈ t, digit' c ≠ digit c) : textValue digit b t < textValue digit' b t :=
  foldl_digits_strictMono hle hb ht le_rfl (.inr hne)

end Compare

/-! ## Overflow -/

/-- What an accumulator and its flag hold when the digits so far denote `v`: the number itself, as
long as it is at most `bound`. -/
def Counted (bound v x : Nat) (overflow : Bool) : Prop :=
  overflow = false ∧ x = v ∧ v ≤ bound ∨ overflow = true ∧ bound < v

/-- The test by division before the multiplication. -/
theorem div_lt_iff_overflow {bound d x : Nat} (hb : 0 < b) (hd : d ≤ bound) :
    (bound - d) / b < x ↔ bound < x * b + d := by
  rw [Nat.div_lt_iff_lt_mul hb]
  omega

theorem Counted.keep {bound v x d : Nat} {overflow : Bool} (h : Counted bound v x overflow)
    (hb : 0 < b) (hd : d ≤ bound) (hfits : ¬ (bound - d) / b < x) :
    Counted bound (v * b + d) (x * b + d) overflow := by
  rcases h with ⟨hflag, rfl, hv⟩ | ⟨hflag, hv⟩
  · rw [div_lt_iff_overflow hb hd, not_lt] at hfits
    exact .inl ⟨hflag, rfl, hfits⟩
  · have hmul : v ≤ v * b := Nat.le_mul_of_pos_right v hb
    exact .inr ⟨hflag, by omega⟩

theorem Counted.overflow {bound v x d : Nat} {overflow : Bool} (h : Counted bound v x overflow)
    (hb : 0 < b) (hd : d ≤ bound) (hover : (bound - d) / b < x) :
    Counted bound (v * b + d) x true := by
  rcases h with ⟨-, rfl, -⟩ | ⟨-, hv⟩
  · exact .inr ⟨rfl, (div_lt_iff_overflow hb hd).mp hover⟩
  · have hmul : v ≤ v * b := Nat.le_mul_of_pos_right v hb
    exact .inr ⟨rfl, by omega⟩

end SystemsProjects.Lib
