import Mathlib.Data.List.Basic
import Mathlib.Data.List.OfFn
import Mathlib.Data.List.TakeWhile

/-!
# NUL-terminated strings

A C string is read out of the bytes that follow a pointer: `cstr` returns the bytes before the
first NUL and `none` when the array ends first. `strcmpEq` is the test `strcmp (a, b) == 0`,
which stops at the first difference and therefore may answer although one side is not
terminated; `strcpy` stores a string and its terminator at an offset of an array, and `none`
marks a store past the end. `strtok` cuts the next token off a string; `tokens` is the list of
all tokens it finds, call after call.
-/

namespace SystemsProjects.Lib

/-- The string at the head of `bytes`, `none` if no NUL follows. -/
def cstr : List UInt8 → Option (List UInt8)
  | [] => none
  | c :: s => if c = 0 then some [] else (cstr s).map (c :: ·)

/-- `strcmp (a, b) == 0`; `none` when the comparison runs off the end of an array. -/
def strcmpEq : List UInt8 → List UInt8 → Option Bool
  | [], _ => none
  | _, [] => none
  | x :: a, y :: b =>
    if x ≠ y then some false else if x = 0 then some true else strcmpEq a b

/-- `strcpy (buf + off, s)` in an array of `n` bytes; `none` when it does not fit. -/
def strcpy {n : Nat} (buf : Fin n → UInt8) (off : Nat) (s : List UInt8) :
    Option (Fin n → UInt8) :=
  if off + s.length < n then
    some fun k => if k.val < off then buf k else (s ++ [0]).getD (k.val - off) (buf k)
  else none

/-- The bytes from offset `off` to the end of an array. -/
def bytesFrom {n : Nat} (buf : Fin n → UInt8) (off : Nat) : List UInt8 :=
  (List.ofFn buf).drop off

/-- `strtok` with a one-character delimiter: the next token and the rest of the string. -/
def strtok (delim : UInt8) (s : List UInt8) : Option (List UInt8 × List UInt8) :=
  match s.dropWhile (· == delim) with
  | [] => none
  | c :: s => some ((c :: s).takeWhile (· != delim), ((c :: s).dropWhile (· != delim)).drop 1)

/-- The tokens of a string: the pieces between its delimiters that are not empty. -/
def tokens (delim : UInt8) (s : List UInt8) : List (List UInt8) :=
  (s.splitOn delim).filter (· ≠ [])

theorem cstr_eq_some_iff {bytes s : List UInt8} :
    cstr bytes = some s ↔ 0 ∉ s ∧ s ++ [0] <+: bytes := by
  induction bytes generalizing s with
  | nil => simp [cstr]
  | cons c bytes ih =>
    by_cases hc : c = 0
    · subst hc
      cases s with
      | nil => simp [cstr]
      | cons x s =>
        simp only [cstr, if_pos, List.cons_append, List.cons_prefix_cons, List.mem_cons]
        constructor
        · intro h; simp at h
        · rintro ⟨hx, rfl, -⟩; exact absurd (Or.inl rfl) hx
    · simp only [cstr, hc, if_false, Option.map_eq_some_iff]
      constructor
      · rintro ⟨t, ht, rfl⟩
        obtain ⟨hmem, hpre⟩ := ih.mp ht
        refine ⟨?_, ?_⟩
        · simp only [List.mem_cons, not_or]
          exact ⟨Ne.symm hc, hmem⟩
        · simpa using hpre
      · rintro ⟨hmem, hpre⟩
        cases s with
        | nil => simp at hpre; exact absurd hpre.symm hc
        | cons x s =>
          simp only [List.cons_append, List.cons_prefix_cons] at hpre
          obtain ⟨rfl, hpre⟩ := hpre
          simp only [List.mem_cons, not_or] at hmem
          exact ⟨s, ih.mpr ⟨hmem.2, hpre⟩, rfl⟩

/-- A comparison with a terminated string that is shorter than the array on the left stays
inside the array and decides equality. -/
theorem strcmpEq_of_cstr {a b s : List UInt8} (hb : cstr b = some s) (hlen : s.length < a.length) :
    strcmpEq a b = some (decide (cstr a = some s)) := by
  induction a generalizing b s with
  | nil => simp at hlen
  | cons x a ih =>
    cases b with
    | nil => simp [cstr] at hb
    | cons y b =>
      by_cases hy : y = 0
      · subst hy
        simp only [cstr, if_pos, Option.some.injEq] at hb
        subst hb
        by_cases hx : x = 0
        · subst hx; simp [strcmpEq, cstr]
        · simp [strcmpEq, cstr, hx]
      · simp only [cstr, hy, if_false, Option.map_eq_some_iff] at hb
        obtain ⟨t, ht, rfl⟩ := hb
        by_cases hxy : x = y
        · subst hxy
          have hrec := ih ht (by simpa using hlen)
          simp [strcmpEq, cstr, hy, hrec]
        · by_cases hx : x = 0
          · subst hx; simp [strcmpEq, cstr, hxy]
          · simp [strcmpEq, cstr, hxy, hx]

/-- Two terminated strings are compared to the end. -/
theorem strcmpEq_of_cstr_cstr {a b s t : List UInt8} (ha : cstr a = some t) (hb : cstr b = some s) :
    strcmpEq a b = some (decide (t = s)) := by
  induction a generalizing b s t with
  | nil => simp [cstr] at ha
  | cons x a ih =>
    cases b with
    | nil => simp [cstr] at hb
    | cons y b =>
      by_cases hxy : x = y
      · subst hxy
        by_cases hx : x = 0
        · subst hx
          simp only [cstr, if_pos, Option.some.injEq] at ha hb
          subst ha hb
          simp [strcmpEq]
        · simp only [cstr, hx, if_false, Option.map_eq_some_iff] at ha hb
          obtain ⟨t', ht, rfl⟩ := ha
          obtain ⟨s', hs, rfl⟩ := hb
          simp [strcmpEq, hx, ih ht hs]
      · have hne : t ≠ s := by
          rintro rfl
          by_cases hx : x = 0
          · subst hx
            simp only [cstr, if_pos, Option.some.injEq] at ha
            subst ha
            simp [cstr, Ne.symm hxy] at hb
          · simp only [cstr, hx, if_false, Option.map_eq_some_iff] at ha
            obtain ⟨t', -, rfl⟩ := ha
            by_cases hy : y = 0
            · simp [cstr, hy] at hb
            · simp only [cstr, hy, if_false, Option.map_eq_some_iff, List.cons.injEq] at hb
              obtain ⟨s', -, hyx, -⟩ := hb
              exact hxy hyx.symm
        simp [strcmpEq, hxy, hne]

/-- A string without a terminator equals no other. -/
theorem strcmpEq_ne_true {a b : List UInt8} (h : 0 ∉ b) : strcmpEq a b ≠ some true := by
  induction a generalizing b with
  | nil => simp [strcmpEq]
  | cons x a ih =>
    cases b with
    | nil => simp [strcmpEq]
    | cons y b =>
      simp only [List.mem_cons, not_or] at h
      unfold strcmpEq
      by_cases hxy : x = y
      · have hx : ¬ x = 0 := fun h0 => h.1 (by rw [← hxy, h0])
        rw [if_neg (not_not_intro hxy), if_neg hx]
        exact ih h.2
      · rw [if_pos hxy]
        simp

/-- The comparison with a string that begins the same and has no terminator runs off its end. -/
theorem strcmpEq_unterminated {a b : List UInt8} (hpre : b <+: a) (h : 0 ∉ b) :
    strcmpEq a b = none := by
  induction b generalizing a with
  | nil => cases a <;> rfl
  | cons y b ih =>
    cases a with
    | nil => rfl
    | cons x a =>
      obtain ⟨rfl, hrest⟩ := List.cons_prefix_cons.mp hpre
      simp only [List.mem_cons, not_or] at h
      unfold strcmpEq
      rw [if_neg (not_not_intro rfl), if_neg (Ne.symm h.1)]
      exact ih hrest h.2

theorem bytesFrom_length {n : Nat} (buf : Fin n → UInt8) (off : Nat) :
    (bytesFrom buf off).length = n - off := by
  simp [bytesFrom]

theorem bytesFrom_getElem? {n : Nat} (buf : Fin n → UInt8) (off i : Nat) :
    (bytesFrom buf off)[i]? = if h : off + i < n then some (buf ⟨off + i, h⟩) else none := by
  simp only [bytesFrom, List.getElem?_drop, List.getElem?_ofFn]

/-- A string stored by `strcpy` is read back. -/
theorem cstr_strcpy {n off : Nat} {buf buf' : Fin n → UInt8} {s : List UInt8}
    (hs : 0 ∉ s) (h : strcpy buf off s = some buf') :
    cstr (bytesFrom buf' off) = some s := by
  unfold strcpy at h
  split at h
  · rename_i hfit
    obtain rfl := Option.some.inj h
    refine cstr_eq_some_iff.mpr ⟨hs, List.prefix_iff_getElem?.mpr ?_⟩
    intro i hi
    have hi' : i < s.length + 1 := by simpa using hi
    rw [bytesFrom_getElem?, dif_pos (by omega)]
    simp only [show ¬ off + i < off from by omega, if_false, Nat.add_sub_cancel_left,
      List.getD_eq_getElem?_getD, List.getElem?_eq_getElem hi, Option.getD_some]
  · exact absurd h (by simp)

/-- A string that ends before the store is not disturbed by it. -/
theorem cstr_strcpy_of_le {n off off' : Nat} {buf buf' : Fin n → UInt8} {s t : List UInt8}
    (ht : cstr (bytesFrom buf off') = some t) (hle : off' + t.length < off)
    (h : strcpy buf off s = some buf') : cstr (bytesFrom buf' off') = some t := by
  unfold strcpy at h
  split at h
  · obtain rfl := Option.some.inj h
    obtain ⟨hmem, hpre⟩ := cstr_eq_some_iff.mp ht
    refine cstr_eq_some_iff.mpr ⟨hmem, List.prefix_iff_getElem?.mpr ?_⟩
    intro i hi
    have hi' : i < t.length + 1 := by simpa using hi
    have hold := List.prefix_iff_getElem?.mp hpre i hi
    rw [bytesFrom_getElem?] at hold ⊢
    split at hold
    · rename_i hin
      rw [dif_pos hin, ← hold]
      simp only [show off' + i < off from by omega, if_true]
    · exact absurd hold (by simp)
  · exact absurd h (by simp)

theorem strcpy_isSome {n : Nat} (buf : Fin n → UInt8) (off : Nat) (s : List UInt8)
    (h : off + s.length < n) : ∃ buf', strcpy buf off s = some buf' := by
  simp [strcpy, h]

/-- `strtok` skips leading delimiters and stops at the delimiter after the token, which it
consumes. -/
theorem strtok_token {delim : UInt8} {pre t rest : List UInt8} (hpre : ∀ x ∈ pre, x = delim)
    (hne : t ≠ []) (ht : delim ∉ t) (hrest : rest = [] ∨ ∃ r, rest = delim :: r) :
    strtok delim (pre ++ (t ++ rest)) = some (t, rest.drop 1) := by
  have hskip : (pre ++ (t ++ rest)).dropWhile (· == delim) = t ++ rest := by
    rw [List.dropWhile_append_of_pos (by simpa using hpre)]
    cases t with
    | nil => exact absurd rfl hne
    | cons c t =>
      simp only [List.mem_cons, not_or] at ht
      simp [Ne.symm ht.1]
  have htw : ∀ x ∈ t, (x != delim) = true := by
    intro x hx
    simp only [bne_iff_ne]
    rintro rfl
    exact ht hx
  have htake : (t ++ rest).takeWhile (· != delim) = t := by
    rw [List.takeWhile_append_of_pos htw]
    rcases hrest with rfl | ⟨r, rfl⟩ <;> simp
  have hdrop : (t ++ rest).dropWhile (· != delim) = rest := by
    rw [List.dropWhile_append_of_pos htw]
    rcases hrest with rfl | ⟨r, rfl⟩ <;> simp
  unfold strtok
  rw [hskip]
  cases htr : t ++ rest with
  | nil => exact absurd (List.append_eq_nil_iff.mp htr).1 hne
  | cons c s =>
    rw [htr] at htake hdrop
    simp only [htake, hdrop]

/-- Nothing but delimiters holds no token. -/
theorem strtok_none {delim : UInt8} {s : List UInt8} (h : ∀ x ∈ s, x = delim) :
    strtok delim s = none := by
  have hskip : s.dropWhile (· == delim) = [] := by
    have h' : (s ++ []).dropWhile (· == delim) = [].dropWhile (· == delim) :=
      List.dropWhile_append_of_pos (by simpa using h)
    simpa using h'
  unfold strtok
  rw [hskip]

/-! ## Tokens -/

section Tokens
variable {delim : UInt8}

@[simp] theorem tokens_nil : tokens delim [] = [] := by
  simp [tokens]

/-- A delimiter ends the tokens before it and is in none of them. -/
@[simp] theorem tokens_append_cons (s t : List UInt8) :
    tokens delim (s ++ delim :: t) = tokens delim s ++ tokens delim t := by
  simp only [tokens, List.splitOn_append_cons_self, List.filter_append]

@[simp] theorem tokens_cons_delim (t : List UInt8) :
    tokens delim (delim :: t) = tokens delim t := by
  simp only [tokens, List.splitOn_cons_eq_if_modifyHead, beq_self_eq_true, if_true]
  rfl

theorem tokens_of_notMem {s : List UInt8} (hne : s ≠ []) (h : delim ∉ s) :
    tokens delim s = [s] := by
  simp [tokens, List.splitOn_eq_singleton h, hne]

/-- A string is delimiters only, or delimiters, a token and the rest after it. -/
theorem first_token (delim : UInt8) (s : List UInt8) :
    (∀ x ∈ s, x = delim) ∨ ∃ pre t rest, s = pre ++ (t ++ rest) ∧ (∀ x ∈ pre, x = delim) ∧
      t ≠ [] ∧ delim ∉ t ∧ (rest = [] ∨ ∃ r, rest = delim :: r) := by
  cases hs : s.dropWhile (· == delim) with
  | nil => exact .inl (by simpa using List.dropWhile_eq_nil_iff.mp hs)
  | cons c r =>
    refine .inr ⟨s.takeWhile (· == delim), (c :: r).takeWhile (· != delim),
      (c :: r).dropWhile (· != delim), ?_, ?_, ?_, ?_, ?_⟩
    · rw [List.takeWhile_append_dropWhile, ← hs, List.takeWhile_append_dropWhile]
    · intro x hx
      simpa using List.mem_takeWhile_imp hx
    · have hc := List.head?_dropWhile_not (· == delim) s
      simp only [hs, List.head?_cons, beq_eq_false_iff_ne] at hc
      simp [hc]
    · intro h
      simpa using List.mem_takeWhile_imp h
    · have hd := List.head?_dropWhile_not (· != delim) (c :: r)
      cases hr : (c :: r).dropWhile (· != delim) with
      | nil => exact .inl rfl
      | cons x r' =>
        simp only [hr, List.head?_cons, bne_eq_false_iff_eq] at hd
        exact .inr ⟨r', by rw [hd]⟩

theorem tokens_delims_append {pre : List UInt8} (h : ∀ x ∈ pre, x = delim) (s : List UInt8) :
    tokens delim (pre ++ s) = tokens delim s := by
  induction pre with
  | nil => rfl
  | cons c pre ih =>
    obtain rfl := h c (by simp)
    rw [List.cons_append, tokens_cons_delim]
    exact ih fun x hx => h x (by simp [hx])

theorem tokens_delims {s : List UInt8} (h : ∀ x ∈ s, x = delim) : tokens delim s = [] := by
  simpa using tokens_delims_append h []

/-- `strtok` finds the first token and leaves the others. -/
theorem strtok_cases (delim : UInt8) (s : List UInt8) :
    (tokens delim s = [] ∧ strtok delim s = none) ∨
    ∃ t rest, tokens delim s = t :: tokens delim rest ∧ strtok delim s = some (t, rest) := by
  rcases first_token delim s with h | ⟨pre, t, rest, rfl, hpre, hne, ht, hrest⟩
  · exact .inl ⟨tokens_delims h, strtok_none h⟩
  · refine .inr ⟨t, rest.drop 1, ?_, strtok_token hpre hne ht hrest⟩
    rw [tokens_delims_append hpre]
    rcases hrest with rfl | ⟨r, rfl⟩
    · simpa using tokens_of_notMem hne ht
    · rw [tokens_append_cons, tokens_of_notMem hne ht]
      rfl

/-- A string is delimiters, the word `t`, and then its end or a delimiter and `r`. -/
def Begins (delim : UInt8) (s t r : List UInt8) : Prop :=
  ∃ pre, (∀ x ∈ pre, x = delim) ∧ (s = pre ++ t ∧ r = [] ∨ s = pre ++ (t ++ delim :: r))

theorem strtok_of_begins {s t r : List UInt8} (hne : t ≠ []) (ht : delim ∉ t)
    (h : Begins delim s t r) : strtok delim s = some (t, r) := by
  obtain ⟨pre, hpre, h⟩ := h
  rcases h with ⟨rfl, rfl⟩ | rfl
  · have h := strtok_token hpre hne ht (Or.inl rfl)
    rwa [List.append_nil] at h
  · exact strtok_token hpre hne ht (Or.inr ⟨r, rfl⟩)

theorem strtok_eq_none_iff {s : List UInt8} : strtok delim s = none ↔ ∀ x ∈ s, x = delim := by
  constructor
  · intro h
    rcases first_token delim s with hall | ⟨pre, t, rest, rfl, hpre, hne, ht, hrest⟩
    · exact hall
    · rw [strtok_token hpre hne ht hrest] at h
      exact nomatch h
  · exact strtok_none

theorem strtok_ne_none_iff {s : List UInt8} : strtok delim s ≠ none ↔ ∃ x ∈ s, x ≠ delim := by
  rw [Ne, strtok_eq_none_iff, not_forall]
  simp only [not_forall, exists_prop]

/-- `strtok` finds the word that the string begins with. -/
theorem strtok_eq_some_iff {s t r : List UInt8} :
    strtok delim s = some (t, r) ↔ t ≠ [] ∧ delim ∉ t ∧ Begins delim s t r := by
  constructor
  · intro h
    rcases first_token delim s with hall | ⟨pre, t', rest, rfl, hpre, hne, ht, hrest⟩
    · rw [strtok_none hall] at h
      exact nomatch h
    · rw [strtok_token hpre hne ht hrest, Option.some.injEq, Prod.mk.injEq] at h
      obtain ⟨rfl, rfl⟩ := h
      refine ⟨hne, ht, pre, hpre, ?_⟩
      rcases hrest with rfl | ⟨r', rfl⟩
      · exact Or.inl ⟨by rw [List.append_nil], rfl⟩
      · exact Or.inr rfl
  · intro h
    exact strtok_of_begins h.1 h.2.1 h.2.2

end Tokens

end SystemsProjects.Lib
