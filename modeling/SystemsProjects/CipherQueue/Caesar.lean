import Mathlib.Data.Int.ModEq
import Mathlib.Data.List.Forall2
import Mathlib.Tactic.Linarith

/-!
# The Caesar cipher

`caesar.c` (`lab1-TheCarton-main/part2`). Lower case letters, upper case letters and digits form
their own loops (`lab1-shell-APIs.txt:23-24`), and a key turns all three. Keys are `int`s, and the
remainder of `shift_char` is the truncated one of C.
-/

namespace SystemsProjects.CipherQueue

/-! ## The functions of `caesar.c` -/

/-- `is_alpha`: the lower case letters. -/
def isAlpha (c : UInt8) : Bool := 97 ≤ c && c ≤ 122

/-- `is_upper_alpha`. -/
def isUpperAlpha (c : UInt8) : Bool := 65 ≤ c && c ≤ 90

/-- `is_numeric`. -/
def isNumeric (c : UInt8) : Bool := 48 ≤ c && c ≤ 57

/-- `is_alphanumeric`. -/
def isAlphanumeric (c : UInt8) : Bool := isAlpha c || isUpperAlpha c || isNumeric c

/-- `shift_char` (`caesar.c:23-51`). -/
def shiftChar (c : UInt8) (shift : BitVec 32) : UInt8 :=
  let (len, firstChar, lastChar) : Int × Int × Int :=
    if isAlpha c then (26, 97, 122) else if isUpperAlpha c then (26, 65, 90) else (10, 48, 57)
  let ascii := c.toBitVec.toInt
  let normShift := shift.toInt.tmod len
  let d := ascii + normShift
  UInt8.ofInt (if lastChar < d then d - len else if d < firstChar then d + len else d)

/-- The loop of `encode` and `decode`; `none` at a character that is not alphanumeric. -/
def shiftLoop (shift : BitVec 32) : List UInt8 → Option (List UInt8)
  | [] => some []
  | c :: s => if isAlphanumeric c then (shiftLoop shift s).map (shiftChar c shift :: ·) else none

/-- `ILLCHAR`. -/
def illchar : List UInt8 := [73, 76, 76, 67, 72, 65, 82]

/-- `encode` (`caesar.c:59-69`). -/
def encode (plaintext : List UInt8) (key : BitVec 32) : List UInt8 :=
  (shiftLoop key plaintext).getD illchar

/-- `decode` (`caesar.c:77-88`), whose text for a bad character has a newline. -/
def decode (ciphertext : List UInt8) (key : BitVec 32) : List UInt8 :=
  (shiftLoop (-key) ciphertext).getD (illchar ++ [10])

/-! ## The three loops -/

/-- A loop of characters. -/
inductive Ring where
  | lower
  | upper
  | digit
  deriving DecidableEq, Repr

/-- The first character of a loop. -/
def Ring.first : Ring → Nat
  | .lower => 97
  | .upper => 65
  | .digit => 48

/-- The number of characters of a loop. -/
def Ring.len : Ring → Nat
  | .lower => 26
  | .upper => 26
  | .digit => 10

/-- The character is on the loop. -/
def Ring.Has (r : Ring) (c : UInt8) : Prop := r.first ≤ c.toNat ∧ c.toNat < r.first + r.len

variable {r : Ring} {c : UInt8} {s : List UInt8}

theorem isAlpha_iff : isAlpha c = true ↔ Ring.lower.Has c := by
  simp only [isAlpha, Bool.and_eq_true, decide_eq_true_eq, UInt8.le_iff_toNat_le, Ring.Has,
    Ring.first, Ring.len, UInt8.toNat_ofNat]
  omega

theorem isUpperAlpha_iff : isUpperAlpha c = true ↔ Ring.upper.Has c := by
  simp only [isUpperAlpha, Bool.and_eq_true, decide_eq_true_eq, UInt8.le_iff_toNat_le, Ring.Has,
    Ring.first, Ring.len, UInt8.toNat_ofNat]
  omega

theorem isNumeric_iff : isNumeric c = true ↔ Ring.digit.Has c := by
  simp only [isNumeric, Bool.and_eq_true, decide_eq_true_eq, UInt8.le_iff_toNat_le, Ring.Has,
    Ring.first, Ring.len, UInt8.toNat_ofNat]
  omega

/-- The alphanumeric characters are those on some loop. -/
theorem isAlphanumeric_iff : isAlphanumeric c = true ↔ ∃ r : Ring, r.Has c := by
  rw [isAlphanumeric, Bool.or_eq_true, Bool.or_eq_true, isAlpha_iff, isUpperAlpha_iff,
    isNumeric_iff]
  constructor
  · intro h
    rcases h with (h | h) | h
    · exact ⟨.lower, h⟩
    · exact ⟨.upper, h⟩
    · exact ⟨.digit, h⟩
  · intro h
    obtain ⟨r, h⟩ := h
    cases r with
    | lower => exact Or.inl (Or.inl h)
    | upper => exact Or.inl (Or.inr h)
    | digit => exact Or.inr h

/-- The single correction after the truncated remainder is the remainder of the loop. -/
theorem wrap_eq {first len x k : Int} (hlen : 0 < len) (hfirst : first ≤ x)
    (hlast : x < first + len) :
    (if first + len - 1 < x + k.tmod len then x + k.tmod len - len
      else if x + k.tmod len < first then x + k.tmod len + len else x + k.tmod len) =
      first + (x - first + k) % len := by
  have hlow : -len < k.tmod len := Int.lt_tmod_of_pos k hlen
  have hhigh : k.tmod len < len := Int.tmod_lt_of_pos k hlen
  have hcong : (x - first + k) % len = (x - first + k.tmod len) % len := by
    conv_lhs => rw [← Int.tmod_add_mul_tdiv k len, ← Int.add_assoc]
    exact Int.add_mul_emod_self_left _ len _
  generalize k.tmod len = d at hlow hhigh hcong
  rw [hcong]
  split_ifs with hover hunder
  · rw [← Int.sub_emod_right, Int.emod_eq_of_lt] <;> omega
  · rw [← Int.add_emod_right, Int.emod_eq_of_lt] <;> omega
  · rw [Int.emod_eq_of_lt] <;> omega

theorem Ring.len_pos (r : Ring) : 0 < r.len := by
  cases r <;> decide

theorem Ring.Has.lt (h : r.Has c) : c.toNat < 123 := by
  obtain ⟨-, h⟩ := h
  cases r with
  | lower => exact h
  | upper => exact Nat.lt_trans h (by decide)
  | digit => exact Nat.lt_trans h (by decide)

/-- No character is on two loops. -/
theorem Ring.Has.unique {r' : Ring} (h : r.Has c) (h' : r'.Has c) : r = r' := by
  unfold Ring.Has at h h'
  cases r <;> cases r' <;> simp only [Ring.first, Ring.len] at h h' <;> first | rfl | omega

/-- On a loop `shift_char` computes with the bounds of that loop. -/
theorem shiftChar_eq (h : r.Has c) (k : BitVec 32) :
    shiftChar c k = UInt8.ofInt
      (if (r.first : Int) + r.len - 1 < c.toNat + k.toInt.tmod r.len then
        c.toNat + k.toInt.tmod r.len - r.len
      else if c.toNat + k.toInt.tmod r.len < r.first then c.toNat + k.toInt.tmod r.len + r.len
      else c.toNat + k.toInt.tmod r.len) := by
  have hascii : c.toBitVec.toInt = c.toNat := by
    apply BitVec.toInt_eq_toNat_of_lt
    have := h.lt
    change 2 * c.toNat < 256
    omega
  unfold shiftChar
  cases r with
  | lower =>
    rw [if_pos (isAlpha_iff.mpr h), hascii]
    rfl
  | upper =>
    have hlower : ¬isAlpha c = true := fun h' => nomatch (isAlpha_iff.mp h').unique h
    rw [if_neg hlower, if_pos (isUpperAlpha_iff.mpr h), hascii]
    rfl
  | digit =>
    have hlower : ¬isAlpha c = true := fun h' => nomatch (isAlpha_iff.mp h').unique h
    have hupper : ¬isUpperAlpha c = true := fun h' => nomatch (isUpperAlpha_iff.mp h').unique h
    rw [if_neg hlower, if_neg hupper, hascii]
    rfl

/-- `shift_char` turns the loop of the character. -/
theorem shiftChar_toNat (h : r.Has c) (k : BitVec 32) :
    ((shiftChar c k).toNat : Int) = r.first + ((c.toNat : Int) - r.first + k.toInt) % r.len := by
  have hlen : (0 : Int) < r.len := Int.natCast_pos.mpr r.len_pos
  have hrange : r.first + r.len ≤ 123 := by cases r <;> decide
  rw [shiftChar_eq h, wrap_eq hlen (Int.ofNat_le.mpr h.1) (by exact_mod_cast h.2)]
  have hnonneg := Int.emod_nonneg ((c.toNat : Int) - r.first + k.toInt) (Int.ne_of_gt hlen)
  have hlt := Int.emod_lt_of_pos ((c.toNat : Int) - r.first + k.toInt) hlen
  generalize ((c.toNat : Int) - r.first + k.toInt) % r.len = d at hnonneg hlt
  rw [UInt8.ofInt, UInt8.toNat_ofNat', Nat.mod_eq_of_lt (by omega)]
  omega

theorem Ring.Has.shiftChar (h : r.Has c) (k : BitVec 32) : r.Has (shiftChar c k) := by
  have heq := shiftChar_toNat h k
  have hlen : (0 : Int) < r.len := Int.natCast_pos.mpr r.len_pos
  have hnonneg := Int.emod_nonneg ((c.toNat : Int) - r.first + k.toInt) (Int.ne_of_gt hlen)
  have hlt := Int.emod_lt_of_pos ((c.toNat : Int) - r.first + k.toInt) hlen
  unfold Ring.Has
  omega

/-- Shifts add up when their keys do. -/
theorem shiftChar_shiftChar (h : r.Has c) {a b ab : BitVec 32}
    (hab : ab.toInt = a.toInt + b.toInt) :
    shiftChar (shiftChar c a) b = shiftChar c ab := by
  apply UInt8.toNat_inj.mp
  have hfirst := shiftChar_toNat h a
  have hsecond := shiftChar_toNat (h.shiftChar a) b
  have hboth := shiftChar_toNat h ab
  rw [hfirst, add_sub_cancel_left, Int.emod_add_emod, Int.add_assoc, ← hab] at hsecond
  exact Int.ofNat_inj.mp (hsecond.trans hboth.symm)

theorem shiftChar_zero (h : r.Has c) : shiftChar c 0 = c := by
  apply UInt8.toNat_inj.mp
  have heq := shiftChar_toNat h 0
  have hsmall : ((c.toNat : Int) - r.first + (0 : BitVec 32).toInt) % r.len =
      (c.toNat : Int) - r.first := by
    rw [show (0 : BitVec 32).toInt = 0 from rfl, Int.add_zero]
    apply Int.emod_eq_of_lt
    · exact Int.sub_nonneg.mpr (Int.ofNat_le.mpr h.1)
    · exact Int.sub_left_lt_of_lt_add (by exact_mod_cast h.2)
  rw [hsmall] at heq
  omega

/-! ## Whole strings -/

/-- All characters are alphanumeric. -/
def Alnum (s : List UInt8) : Prop := ∀ c ∈ s, isAlphanumeric c = true

instance (s : List UInt8) : Decidable (Alnum s) :=
  inferInstanceAs (Decidable (∀ c ∈ s, isAlphanumeric c = true))

theorem shiftLoop_of_alnum (k : BitVec 32) (hs : Alnum s) :
    shiftLoop k s = some (s.map (shiftChar · k)) := by
  induction s with
  | nil => rfl
  | cons c s ih =>
    have ih := ih fun d hd => hs d (List.mem_cons_of_mem c hd)
    rw [shiftLoop, if_pos (hs c List.mem_cons_self), ih]
    rfl

theorem shiftLoop_of_not_alnum (k : BitVec 32) (hs : ¬Alnum s) : shiftLoop k s = none := by
  induction s with
  | nil => exact absurd (fun c hc => nomatch hc) hs
  | cons c s ih =>
    unfold shiftLoop
    by_cases hc : isAlphanumeric c = true
    · rw [if_pos hc, ih]
      · rfl
      · intro hrest
        exact hs (List.forall_mem_cons.mpr ⟨hc, hrest⟩)
    · exact if_neg hc

theorem Alnum.map_shiftChar (hs : Alnum s) (k : BitVec 32) : Alnum (s.map (shiftChar · k)) := by
  intro d hd
  obtain ⟨c, hc, rfl⟩ := List.mem_map.mp hd
  obtain ⟨r, hr⟩ := isAlphanumeric_iff.mp (hs c hc)
  exact isAlphanumeric_iff.mpr ⟨r, hr.shiftChar k⟩

theorem encode_eq (hs : Alnum s) (k : BitVec 32) : encode s k = s.map (shiftChar · k) := by
  rw [encode, shiftLoop_of_alnum k hs]
  rfl

theorem encode_bad (hs : ¬Alnum s) (k : BitVec 32) : encode s k = illchar := by
  rw [encode, shiftLoop_of_not_alnum k hs]
  rfl

theorem Alnum.encode (hs : Alnum s) (k : BitVec 32) : Alnum (encode s k) := by
  rw [encode_eq hs]
  exact hs.map_shiftChar k

theorem decode_eq (hs : Alnum s) (k : BitVec 32) : decode s k = s.map (shiftChar · (-k)) := by
  rw [decode, shiftLoop_of_alnum (-k) hs]
  rfl

/-- The negation of an `int` other than the least one is exact. -/
theorem toInt_neg_key {k : BitVec 32} (hk : k ≠ BitVec.intMin 32) : (-k).toInt = -k.toInt :=
  BitVec.toInt_neg_of_ne_intMin hk

/-- Two keys one after the other turn a text as far as their sum. -/
theorem map_shiftChar_add (hs : Alnum s) {a b ab : BitVec 32} (hab : ab.toInt = a.toInt + b.toInt) :
    (s.map (shiftChar · a)).map (shiftChar · b) = s.map (shiftChar · ab) := by
  rw [List.map_map]
  apply List.map_congr_left
  intro c hc
  obtain ⟨r, hr⟩ := isAlphanumeric_iff.mp (hs c hc)
  exact shiftChar_shiftChar hr hab

theorem map_shiftChar_zero (hs : Alnum s) : s.map (shiftChar · 0) = s := by
  conv_rhs => rw [← List.map_id s]
  apply List.map_congr_left
  intro c hc
  obtain ⟨r, hr⟩ := isAlphanumeric_iff.mp (hs c hc)
  exact shiftChar_zero hr

/-- Two keys that add up to nothing undo each other. -/
theorem map_shiftChar_cancel (hs : Alnum s) {a b : BitVec 32} (hab : a.toInt + b.toInt = 0) :
    (s.map (shiftChar · a)).map (shiftChar · b) = s := by
  have hsum : (0 : BitVec 32).toInt = a.toInt + b.toInt := hab.symm
  rw [map_shiftChar_add hs hsum, map_shiftChar_zero hs]

/-- `decode` undoes `encode` with the same key. -/
theorem decode_encode (hs : Alnum s) {k : BitVec 32} (hk : k ≠ BitVec.intMin 32) :
    decode (CipherQueue.encode s k) k = s := by
  rw [decode_eq (hs.encode k), encode_eq hs]
  apply map_shiftChar_cancel hs
  rw [toInt_neg_key hk, Int.add_right_neg]

/-- `encode` undoes `decode` with the same key. -/
theorem encode_decode (hs : Alnum s) {k : BitVec 32} (hk : k ≠ BitVec.intMin 32) :
    CipherQueue.encode (decode s k) k = s := by
  rw [decode_eq hs, encode_eq (hs.map_shiftChar (-k))]
  apply map_shiftChar_cancel hs
  rw [toInt_neg_key hk, Int.add_left_neg]

/-! ## The action of the keys -/

/-- The characters are of one class: if one is a lower case letter, an upper case letter or a
digit, so is the other. -/
def SameClass (c d : UInt8) : Prop :=
  isAlpha c = isAlpha d ∧ isUpperAlpha c = isUpperAlpha d ∧ isNumeric c = isNumeric d

theorem Ring.Has.sameClass {d : UInt8} (hc : r.Has c) (hd : r.Has d) : SameClass c d := by
  have hiff : ∀ r' : Ring, r'.Has c ↔ r'.Has d := by
    intro r'
    constructor
    · intro h
      rw [h.unique hc]
      exact hd
    · intro h
      rw [h.unique hd]
      exact hc
  refine ⟨?_, ?_, ?_⟩
  · rw [Bool.eq_iff_iff, isAlpha_iff, isAlpha_iff, hiff]
  · rw [Bool.eq_iff_iff, isUpperAlpha_iff, isUpperAlpha_iff, hiff]
  · rw [Bool.eq_iff_iff, isNumeric_iff, isNumeric_iff, hiff]

/-- `encode` turns each character inside its class. -/
theorem encode_sameClass (hs : Alnum s) (k : BitVec 32) :
    List.Forall₂ SameClass s (encode s k) := by
  rw [encode_eq hs, List.forall₂_map_right_iff, List.forall₂_same]
  intro c hc
  obtain ⟨r, hr⟩ := isAlphanumeric_iff.mp (hs c hc)
  exact hr.sameClass (hr.shiftChar k)

/-- Encoding twice adds the keys. -/
theorem encode_encode (hs : Alnum s) {a b : BitVec 32} (hab : a.saddOverflow b = false) :
    encode (encode s a) b = encode s (a + b) := by
  have hsum : (a + b).toInt = a.toInt + b.toInt :=
    BitVec.toInt_add_of_not_saddOverflow (Bool.eq_false_iff.mp hab)
  rw [encode_eq (hs.encode a), encode_eq hs, encode_eq hs, map_shiftChar_add hs hsum]

theorem encode_zero (hs : Alnum s) : encode s 0 = s := by
  rw [encode_eq hs, map_shiftChar_zero hs]

/-- The keys act on the alphanumeric strings: every key keeps the classes of the characters, the
sum of two keys does what the two do one after the other, and the same key undoes itself. -/
theorem encode_action (hs : Alnum s) :
    (∀ a, Alnum (encode s a) ∧ List.Forall₂ SameClass s (encode s a)) ∧
    encode s 0 = s ∧
    (∀ a b : BitVec 32, a.saddOverflow b = false →
      encode (encode s a) b = encode s (a + b)) ∧
    ∀ a, a ≠ BitVec.intMin 32 →
      decode (encode s a) a = s ∧ encode (decode s a) a = s := by
  refine ⟨?_, encode_zero hs, ?_, ?_⟩
  · intro a
    exact ⟨hs.encode a, encode_sameClass hs a⟩
  · intro a b hab
    exact encode_encode hs hab
  · intro a ha
    exact ⟨decode_encode hs ha, encode_decode hs ha⟩

/-- `ZX3` under the keys 11 and -30. -/
theorem encode_action_zx3 :
    List.Forall₂ SameClass [90, 88, 51] (encode [90, 88, 51] 11) ∧
      encode (encode [90, 88, 51] 11) (-30) = encode [90, 88, 51] (-19) ∧
      decode (encode [90, 88, 51] 11) 11 = [90, 88, 51] := by
  obtain ⟨hclass, -, hsum, hundo⟩ := encode_action (s := [90, 88, 51]) (by decide +kernel)
  exact ⟨(hclass 11).2, hsum 11 (-30) (by decide), (hundo 11 (by decide)).1⟩

end SystemsProjects.CipherQueue
