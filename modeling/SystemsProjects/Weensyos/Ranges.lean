import SystemsProjects.Weensyos.Paging

/-!
# Ranges of addresses

An entry of level `l` of a page table covers a range of `2 ^ (12 + 9 l)` addresses. The iterators
find out with masks whether two addresses are in the same range, and where the next range begins.
-/

namespace SystemsProjects.Weensyos

/-- The addresses are in the range of one entry of level `l`. -/
def SameRange (l : Nat) (va va' : Word) : Prop := va' >>> (12 + l * 9) = va >>> (12 + l * 9)

theorem pageoffmask_eq {l : Nat} (hl : l ≤ 4) :
    pageoffmask l = BitVec.ofNat 64 (2 ^ (12 + l * 9) - 1) := by
  interval_cases l <;> decide

/-- The iterators compare the bits above the range. -/
theorem xor_eq_zero_iff {l : Nat} (hl : l ≤ 4) {va va' : Word} :
    (va ^^^ va') &&& ~~~pageoffmask l = 0 ↔ SameRange l va va' := by
  have hmask : ∀ i, (pageoffmask l).getLsbD i = decide (i < 12 + l * 9) := by
    intro i
    rw [pageoffmask_eq hl, BitVec.getLsbD_ofNat, Nat.testBit_two_pow_sub_one]
    by_cases hi : i < 12 + l * 9
    · have h64 : i < 64 := by omega
      simp only [hi, h64, decide_true, Bool.and_true]
    · simp only [hi, decide_false, Bool.and_false]
  constructor
  · intro h
    apply BitVec.eq_of_getLsbD_eq
    intro i _
    rw [BitVec.getLsbD_ushiftRight, BitVec.getLsbD_ushiftRight]
    by_cases hin : 12 + l * 9 + i < 64
    · have hbit := congrArg (fun w : Word => w.getLsbD (12 + l * 9 + i)) h
      have hnot : ¬12 + l * 9 + i < 12 + l * 9 := by omega
      simp only [BitVec.getLsbD_and, BitVec.getLsbD_xor, BitVec.getLsbD_not, hin, hnot, hmask,
        decide_true, decide_false, Bool.not_false, Bool.and_true] at hbit
      have hxor := hbit.trans BitVec.getLsbD_zero
      exact (bne_eq_false_iff_eq.mp hxor).symm
    · rw [BitVec.getLsbD_of_ge _ _ (Nat.not_lt.mp hin),
        BitVec.getLsbD_of_ge _ _ (Nat.not_lt.mp hin)]
  · intro h
    apply BitVec.eq_of_getLsbD_eq
    intro i hi
    refine Eq.trans ?_ BitVec.getLsbD_zero.symm
    simp only [BitVec.getLsbD_and, BitVec.getLsbD_xor, BitVec.getLsbD_not, hi, hmask, decide_true,
      Bool.true_and]
    by_cases hlow : i < 12 + l * 9
    · simp only [hlow, decide_true, Bool.not_true, Bool.and_false]
    · have hbit := congrArg (fun w : Word => w.getLsbD (i - (12 + l * 9))) h
      simp only [BitVec.getLsbD_ushiftRight, Nat.add_sub_cancel' (Nat.not_lt.mp hlow)] at hbit
      rw [hbit, Bool.xor_self, Bool.false_and]

section Range
variable {l : Nat} {va va' : Word}

theorem SameRange.trans {va'' : Word} (h : SameRange l va va') (h' : SameRange l va' va'') :
    SameRange l va va'' :=
  Eq.trans h' h

theorem SameRange.mono (h : SameRange l va va') {m : Nat} (hm : l ≤ m) : SameRange m va va' := by
  have hshift : ∀ x : Word, x >>> (12 + m * 9) = x >>> (12 + l * 9) >>> ((m - l) * 9) := by
    intro x
    rw [← BitVec.shiftRight_add]
    congr 1
    omega
  unfold SameRange at h ⊢
  rw [hshift, hshift, h]

theorem SameRange.pageindex (h : SameRange l va va') {j : Nat} (hj : l ≤ j) :
    pageindex va' j = pageindex va j := by
  have hj := h.mono hj
  unfold SameRange at hj
  unfold Weensyos.pageindex
  rw [hj]

/-- Up to level 3 a range is canonical or not as a whole. -/
theorem SameRange.canonical (hl : l ≤ 3) (h : SameRange l va va') :
    vaIsCanonical va' = vaIsCanonical va := by
  have h3 := congrArg BitVec.toNat (h.mono hl)
  have hlow : (0x00007FFFFFFFFFFF : Word).toNat = 0x00007FFFFFFFFFFF := rfl
  have hhigh : (0xFFFF800000000000 : Word).toNat = 0xFFFF800000000000 := rfl
  rw [BitVec.toNat_ushiftRight, BitVec.toNat_ushiftRight, Nat.shiftRight_eq_div_pow,
    Nat.shiftRight_eq_div_pow] at h3
  rw [Bool.eq_iff_iff]
  simp only [vaIsCanonical, vaLowmax, vaHighmin, Bool.or_eq_true, decide_eq_true_eq,
    BitVec.le_def]
  omega

end Range

/-! ## Ranges as numbers -/

/-- The number of bytes that an entry of level `l` covers. -/
def rangeSize (l : Nat) : Nat := 2 ^ (12 + l * 9)

section Size
variable {l : Nat} {va va' : Word}

theorem rangeSize_pos (l : Nat) : 0 < rangeSize l := Nat.two_pow_pos _

theorem rangeSize_dvd {m : Nat} (h : l ≤ m) : rangeSize l ∣ rangeSize m :=
  Nat.pow_dvd_pow 2 (by omega)

theorem rangeSize_le (hl : l ≤ 3) : rangeSize l ≤ 2 ^ 39 :=
  Nat.pow_le_pow_right (by decide) (by omega)

theorem toNat_pageoffmask (hl : l ≤ 3) : (pageoffmask l).toNat = rangeSize l - 1 := by
  have hle := rangeSize_le hl
  rw [pageoffmask_eq (by omega), BitVec.toNat_ofNat]
  apply Nat.mod_eq_of_lt
  change rangeSize l - 1 < 2 ^ 64
  omega

theorem toNat_rsz (hl : l ≤ 3) : (pageoffmask l + 1).toNat = rangeSize l := by
  have hle := rangeSize_le hl
  have hpos := rangeSize_pos l
  rw [BitVec.toNat_add, toNat_pageoffmask hl]
  change (rangeSize l - 1 + 1) % 2 ^ 64 = _
  omega

theorem sameRange_iff : SameRange l va va' ↔ va'.toNat / rangeSize l = va.toNat / rangeSize l := by
  unfold SameRange rangeSize
  rw [← BitVec.toNat_inj, BitVec.toNat_ushiftRight, BitVec.toNat_ushiftRight,
    Nat.shiftRight_eq_div_pow, Nat.shiftRight_eq_div_pow]

/-- Setting the low bits of a number. -/
theorem or_two_pow_sub_one (x n : Nat) : x ||| (2 ^ n - 1) = 2 ^ n * (x / 2 ^ n) + (2 ^ n - 1) := by
  apply Nat.eq_of_testBit_eq
  intro i
  rw [Nat.testBit_or, Nat.testBit_two_pow_sub_one,
    Nat.testBit_two_pow_mul_add _ (Nat.sub_lt (Nat.two_pow_pos n) Nat.one_pos)]
  by_cases hi : i < n
  · rw [if_pos hi, Nat.testBit_two_pow_sub_one, decide_eq_true hi, Bool.or_true]
  · rw [if_neg hi, decide_eq_false hi, Bool.or_false, Nat.testBit_div_two_pow,
      Nat.sub_add_cancel (Nat.not_lt.mp hi)]

/-! ## The next range -/

/-- `last_va ()`: one past the last address of the range of level `l`. -/
def lastVa (l : Nat) (va : Word) : Word := (va ||| pageoffmask l) + 1

theorem toNat_lastVa (hl : l ≤ 3) (hva : va.toNat < 2 ^ 48) :
    (lastVa l va).toNat = rangeSize l * (va.toNat / rangeSize l + 1) := by
  have hle := rangeSize_le hl
  have hpos := rangeSize_pos l
  have hdiv := Nat.mul_div_le va.toNat (rangeSize l)
  have hor : (va ||| pageoffmask l).toNat =
      rangeSize l * (va.toNat / rangeSize l) + (rangeSize l - 1) := by
    rw [BitVec.toNat_or, toNat_pageoffmask hl]
    exact or_two_pow_sub_one _ _
  rw [lastVa, BitVec.toNat_add, hor, Nat.mul_add, Nat.mul_one]
  generalize rangeSize l * (va.toNat / rangeSize l) = base at hdiv
  change (base + (rangeSize l - 1) + 1) % 2 ^ 64 = base + rangeSize l
  omega

theorem pageindex_val (va : Word) (l : Nat) :
    (pageindex va l).val = va.toNat / rangeSize l % 512 := by
  unfold pageindex rangeSize
  rw [Fin.val_ofNat, BitVec.toNat_ushiftRight, Nat.shiftRight_eq_div_pow]

theorem rangeSize_succ (l : Nat) : rangeSize (l + 1) = rangeSize l * 512 := by
  unfold rangeSize
  rw [show 12 + (l + 1) * 9 = 12 + l * 9 + 9 by omega, Nat.pow_add]

theorem lastVa_div (hl : l ≤ 3) (hva : va.toNat < 2 ^ 48) :
    (lastVa l va).toNat / rangeSize l = va.toNat / rangeSize l + 1 := by
  rw [toNat_lastVa hl hva, Nat.mul_div_cancel_left _ (rangeSize_pos l)]

/-- The next range is in the same table, unless this one is the last of the table. -/
theorem sameRange_lastVa (hl : l ≤ 3) (hva : va.toNat < 2 ^ 48) :
    SameRange (l + 1) va (lastVa l va) ↔ (pageindex va l).val ≠ 511 := by
  rw [sameRange_iff, pageindex_val, rangeSize_succ, ← Nat.div_div_eq_div_mul,
    ← Nat.div_div_eq_div_mul, lastVa_div hl hva]
  omega

theorem pageindex_lastVa (hl : l ≤ 3) (hva : va.toNat < 2 ^ 48)
    (h : (pageindex va l).val ≠ 511) :
    (pageindex (lastVa l va) l).val = (pageindex va l).val + 1 := by
  rw [pageindex_val] at h ⊢
  rw [pageindex_val, lastVa_div hl hva]
  omega

theorem rangeSize_dvd_lastVa (hl : l ≤ 3) (hva : va.toNat < 2 ^ 48) :
    rangeSize l ∣ (lastVa l va).toNat := by
  rw [toNat_lastVa hl hva]
  exact Nat.dvd_mul_right _ _

/-- At the beginning of a range the indices below are 0. -/
theorem pageindex_eq_zero (h : rangeSize (l + 1) ∣ va.toNat) : pageindex va l = 0 := by
  apply Fin.ext
  obtain ⟨k, hk⟩ := h
  rw [pageindex_val, hk, rangeSize_succ, Nat.mul_assoc, Nat.mul_div_cancel_left _ (rangeSize_pos l)]
  exact Nat.mul_mod_right 512 k

/-- The addresses of the tables are below 2^48. -/
theorem SameRange.lt_low (h : SameRange l va va') (hl : l ≤ 4) (hva : va.toNat < 2 ^ 48) :
    va'.toNat < 2 ^ 48 := by
  have h4 := sameRange_iff.mp (h.mono hl)
  have hsize : rangeSize 4 = 2 ^ 48 := rfl
  rw [hsize, Nat.div_eq_of_lt hva] at h4
  exact (Nat.div_eq_zero_iff_lt (by decide)).mp h4

/-- `va () & (rsz - 1)`: how far an address is in its range. -/
theorem toNat_and_rsz (hl : l ≤ 3) (va : Word) :
    (va &&& (pageoffmask l + 1 - 1)).toNat = va.toNat % rangeSize l := by
  rw [BitVec.add_sub_cancel, BitVec.toNat_and, toNat_pageoffmask hl]
  exact Nat.and_two_pow_sub_one_eq_mod _ _

end Size

end SystemsProjects.Weensyos
