import SystemsProjects.Fs5600.Image
import Mathlib.Data.Nat.Bitwise

/-!
# The bitmap of the image generator

`gen-disk.py` marks the blocks in use in a `bitmap` of `diskfmt.py`, which has 1024 words of 32
bits, and writes its bytes to block 1 of the image. The file system reads that block as an array of
bytes and finds the same bits in it.
-/

namespace SystemsProjects.Fs5600
open SystemsProjects.Lib

/-- `bitmap` (`diskfmt.py:24-37`). -/
structure Bitmap where
  vals : Fin 1024 → UInt32

/-- A new `bitmap ()`. -/
def Bitmap.zero : Bitmap := ⟨fun _ => 0⟩

/-- `bitmap.get`; `none` is an `IndexError`. -/
def Bitmap.get (m : Bitmap) (i : Nat) : Option Bool :=
  if h : i / 32 < 1024 then
    let n := (m.vals ⟨i / 32, h⟩).toNat
    let mask := 1 <<< (i % 32)
    some (n &&& mask != 0)
  else none

/-- `bitmap.set`. A word keeps the low 32 bits of the number stored in it. -/
def Bitmap.set (m : Bitmap) (i : Nat) (val : Bool) : Option Bitmap :=
  if h : i / 32 < 1024 then
    let mask := 1 <<< (i % 32)
    let n := (m.vals ⟨i / 32, h⟩).toNat
    let n := if val then n ||| mask else n &&& (mask ^^^ 0xffffffff)
    some ⟨Function.update m.vals ⟨i / 32, h⟩ (UInt32.ofNat n)⟩
  else none

/-- `bytearray (bitmap)`: the words one after another, the low byte of each first. -/
def Bitmap.bytes (m : Bitmap) : Block := fun k =>
  leByte (m.vals ⟨k.val / 4, by omega⟩).toNat (k.val % 4)

/-! ## Words and masks -/

theorem and_mask_ne_zero (n k : Nat) : (n &&& 1 <<< k != 0) = n.testBit k := by
  rw [Nat.one_shiftLeft, Nat.and_two_pow]
  cases n.testBit k with
  | false => simp
  | true => simp

theorem testBit_or_mask (n k b : Nat) :
    (n ||| 1 <<< k).testBit b = if b = k then true else n.testBit b := by
  rw [Nat.testBit_or, Nat.one_shiftLeft, Nat.testBit_two_pow]
  by_cases hb : b = k
  · rw [if_pos hb, decide_eq_true hb.symm, Bool.or_true]
  · rw [if_neg hb, decide_eq_false (Ne.symm hb), Bool.or_false]

theorem testBit_and_mask (n k : Nat) {b : Nat} (hb32 : b < 32) :
    (n &&& (1 <<< k ^^^ 0xffffffff)).testBit b = if b = k then false else n.testBit b := by
  have hones : (0xffffffff : Nat).testBit b = true := by
    rw [show (0xffffffff : Nat) = 2 ^ 32 - 1 from rfl, Nat.testBit_two_pow_sub_one]
    exact decide_eq_true hb32
  rw [Nat.testBit_and, Nat.testBit_xor, hones, Nat.one_shiftLeft, Nat.testBit_two_pow]
  by_cases hb : b = k
  · rw [if_pos hb, decide_eq_true hb.symm, Bool.xor_self, Bool.and_false]
  · rw [if_neg hb, decide_eq_false (Ne.symm hb), Bool.false_xor, Bool.and_true]

/-- The word that `set` stores. -/
theorem testBit_setWord (n k : Nat) (val : Bool) {b : Nat} (hb : b < 32) :
    (UInt32.ofNat (if val then n ||| 1 <<< k else n &&& (1 <<< k ^^^ 0xffffffff))).toNat.testBit b =
      if b = k then val else n.testBit b := by
  rw [UInt32.toNat_ofNat', Nat.testBit_mod_two_pow, decide_eq_true hb, Bool.true_and]
  cases val with
  | false => exact testBit_and_mask n k hb
  | true => exact testBit_or_mask n k b

/-! ## The positions of a bitmap -/

/-- What is at position `i`. -/
def Bitmap.bit (m : Bitmap) (i : Nat) : Bool :=
  (m.vals (Fin.ofNat 1024 (i / 32))).toNat.testBit (i % 32)

section Positions
variable {m : Bitmap} {i j : Nat}

theorem wordIndex_eq (h : i / 32 < 1024) :
    (⟨i / 32, h⟩ : Fin 1024) = Fin.ofNat 1024 (i / 32) := by
  apply Fin.ext
  exact (Nat.mod_eq_of_lt h).symm

theorem Bitmap.get_eq (m : Bitmap) (hi : i < 32768) : m.get i = some (m.bit i) := by
  have h : i / 32 < 1024 := by omega
  unfold Bitmap.get
  rw [dif_pos h]
  dsimp only
  rw [and_mask_ne_zero, wordIndex_eq h]
  rfl

/-- `set` changes its position and no other. -/
theorem Bitmap.set_eq (m : Bitmap) (hi : i < 32768) (val : Bool) :
    ∃ m', m.set i val = some m' ∧ ∀ j < 32768, m'.bit j = if j = i then val else m.bit j := by
  have h : i / 32 < 1024 := by omega
  unfold Bitmap.set
  rw [dif_pos h]
  refine ⟨_, rfl, ?_⟩
  intro j hj
  unfold Bitmap.bit
  rw [wordIndex_eq h]
  dsimp only
  by_cases hword : j / 32 = i / 32
  · rw [hword, Function.update_self, testBit_setWord _ _ _ (Nat.mod_lt j (by decide))]
    have hsame : j % 32 = i % 32 ↔ j = i := by omega
    simp only [hsame]
  · have hne : Fin.ofNat 1024 (j / 32) ≠ Fin.ofNat 1024 (i / 32) := by
      rw [Ne, Fin.ext_iff, Fin.val_ofNat, Fin.val_ofNat]
      omega
    have hji : j ≠ i := fun he => hword (by rw [he])
    rw [Function.update_of_ne hne, if_neg hji]

/-- In the bytes of the bitmap the file system finds its positions. -/
theorem Bitmap.bitTest_bytes (m : Bitmap) (hj : j < 32768) : bitTest m.bytes j = m.bit j := by
  have hlt : j % 8 < 8 := Nat.mod_lt j (by decide)
  have hbyte : (Fin.ofNat 4096 (j / 8)).val = j / 8 := Nat.mod_eq_of_lt (by omega)
  have hindex : (⟨j / 8 / 4, by omega⟩ : Fin 1024) = Fin.ofNat 1024 (j / 32) := by
    apply Fin.ext
    change j / 8 / 4 = j / 32 % 1024
    omega
  have hbit : 8 * (j / 8 % 4) + j % 8 = j % 32 := by omega
  rw [bitTest_eq, Bitmap.bytes]
  simp only [hbyte]
  rw [getLsbD_leByte _ _ hlt, hbit, hindex]
  rfl

end Positions

/-! ## The two bitmaps -/

/-- `bit_set` or `bit_clear`. -/
def bitPut (map : Block) (i : Nat) (val : Bool) : Block :=
  if val then bitSet map i else bitClear map i

theorem bitTest_bitPut (map : Block) {i j : Nat} (hi : i < 32768) (hj : j < 32768) (val : Bool) :
    bitTest (bitPut map i val) j = if j = i then val else bitTest map j := by
  unfold bitPut
  cases val with
  | false =>
    rw [if_neg Bool.false_ne_true, bitTest_bitClear map hi hj]
    by_cases hji : j = i
    · rw [if_pos hji, decide_eq_true hji, Bool.not_true, Bool.false_and]
    · rw [if_neg hji, decide_eq_false hji, Bool.not_false, Bool.true_and]
  | true =>
    rw [if_pos rfl, bitTest_bitSet map hi hj]
    by_cases hji : j = i
    · rw [if_pos hji, decide_eq_true hji, Bool.true_or]
    · rw [if_neg hji, decide_eq_false hji, Bool.false_or]

/-- A call of `set` is one of `bit_set` or `bit_clear`. -/
theorem Bitmap.bytes_set {m m' : Bitmap} {i : Nat} (hi : i < 32768) {val : Bool}
    (h : m.set i val = some m') : m'.bytes = bitPut m.bytes i val := by
  obtain ⟨m₁, hset, hbits⟩ := m.set_eq hi val
  obtain rfl := Option.some.inj (h.symm.trans hset)
  apply bitmap_ext
  intro j hj
  rw [m'.bitTest_bytes hj, bitTest_bitPut m.bytes hi hj, m.bitTest_bytes hj, hbits j hj]

/-- Calls of `set` one after another are calls of `bit_set` and `bit_clear`. -/
theorem Bitmap.sets_eq (calls : List (Fin 32768 × Bool)) (m : Bitmap) :
    ∃ m', calls.foldlM (fun m call => m.set call.1 call.2) m = some m' ∧
      m'.bytes = calls.foldl (fun map call => bitPut map call.1 call.2) m.bytes := by
  induction calls generalizing m with
  | nil => exact ⟨m, rfl, rfl⟩
  | cons call calls ih =>
    obtain ⟨m₁, hset, -⟩ := m.set_eq call.1.isLt call.2
    obtain ⟨m', hrun, hbytes⟩ := ih m₁
    refine ⟨m', ?_, ?_⟩
    · rw [List.foldlM_cons, hset]
      exact hrun
    · rw [hbytes, Bitmap.bytes_set call.1.isLt hset]
      rfl

theorem Bitmap.bytes_zero : Bitmap.zero.bytes = Block.zero := by
  have hbyte : ∀ i, leByte 0 i = 0 := by
    intro i
    rw [leByte, Nat.zero_div]
    rfl
  funext k
  exact hbyte _

/-- The two bitmaps are one format. After any calls of `set` on a new bitmap its bytes are those
that `bit_set` and `bit_clear` make of a block of zeros, `bit_test` finds in them what `get`
returns, and one more call of `set` does to them what `bit_set` or `bit_clear` does, at its position
only. -/
theorem bitmap_same_format (calls : List (Fin 32768 × Bool)) :
    ∃ m, calls.foldlM (fun m call => m.set call.1 call.2) Bitmap.zero = some m ∧
      m.bytes = calls.foldl (fun map call => bitPut map call.1 call.2) Block.zero ∧
      ∀ j < 32768, m.get j = some (bitTest m.bytes j) ∧
        ∀ val, ∃ m', m.set j val = some m' ∧ m'.bytes = bitPut m.bytes j val ∧
          ∀ k < 32768, k ≠ j →
            m'.get k = m.get k ∧ bitTest (bitPut m.bytes j val) k = bitTest m.bytes k := by
  obtain ⟨m, hrun, hbytes⟩ := Bitmap.sets_eq calls Bitmap.zero
  rw [Bitmap.bytes_zero] at hbytes
  refine ⟨m, hrun, hbytes, ?_⟩
  intro j hj
  constructor
  · rw [m.get_eq hj, m.bitTest_bytes hj]
  · intro val
    obtain ⟨m', hset, hbits⟩ := m.set_eq hj val
    refine ⟨m', hset, Bitmap.bytes_set hj hset, ?_⟩
    intro k hk hkj
    constructor
    · rw [m'.get_eq hk, m.get_eq hk, hbits k hk, if_neg hkj]
    · rw [bitTest_bitPut m.bytes hj hk, if_neg hkj]

end SystemsProjects.Fs5600
