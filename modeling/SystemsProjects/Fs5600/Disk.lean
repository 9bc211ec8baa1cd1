import SystemsProjects.Fs5600.Layout
import Mathlib.Logic.Function.Basic
import Mathlib.Tactic.IntervalCases

/-!
# The disk image and the block bitmap

Block I/O of `lab5-TheCarton-main/misc.c` over an image file, and the bitmap functions of
`fs5600.c:58-101`. The image is a regular file of whole blocks: a read past its end returns
`-EIO` and leaves the caller's buffer as it was, a write past its end extends the file with a
hole in between. The callers in `fs5600.c` ignore both return codes.
-/

namespace SystemsProjects.Fs5600

def enoent : Int := 2
def eio : Int := 5
def eexist : Int := 17
def enotdir : Int := 20
def eisdir : Int := 21
def einval : Int := 22
def enospc : Int := 28
def enotempty : Int := 39

/-- The ways a call ends without returning: a failed `assert`, an access outside an array (from
there on C prescribes nothing) and `exit (1)`. -/
inductive Fault where
  | assertion
  | outOfBounds
  | exit
  deriving DecidableEq, Repr

/-- The image file: its blocks and its length in blocks. There is nothing past the end. -/
@[ext]
structure Disk where
  data : Nat → Block
  len : Nat
  hole : ∀ n, len ≤ n → data n = Block.zero

/-- `write (2)` of one block: the file grows up to the end of the block written. -/
def Disk.write (d : Disk) (n : Nat) (b : Block) : Disk where
  data := Function.update d.data n b
  len := max d.len (n + 1)
  hole := by
    intro m hm
    rw [Function.update_of_ne (by omega), d.hole m (by omega)]

/-- `lba * FS_BLOCK_SIZE` in `int` arithmetic. -/
def byteStart (lba : Int) : Int := (lba * 4096).bmod (2 ^ 32)

/-- `block_read (buf, lba, 1)` (`misc.c:31-40`): the buffer afterwards and the return code. -/
def blockRead (d : Disk) (buf : Block) (lba : Int) : Block × Int :=
  let start := byteStart lba
  if start < 0 then (buf, -eio)
  else if d.len ≤ (start / 4096).toNat then (buf, -eio)
  else (d.data (start / 4096).toNat, 0)

/-- `block_write (buf, lba, 1)` (`misc.c:44-61`), which asserts that `lba` is positive and seeks
to the end of the region first. -/
def blockWrite (d : Disk) (buf : Block) (lba : Int) : Except Fault (Disk × Int) :=
  let start := byteStart lba
  if lba ≤ 0 then .error .assertion
  else if (start + 4096).bmod (2 ^ 32) < 0 then .ok (d, -eio)
  else if start < 0 then .ok (d, -eio)
  else .ok (d.write (start / 4096).toNat buf, 0)

/-- The file system's globals (`fs5600.c:51-52`) together with the image they describe. -/
@[ext]
structure FsState where
  disk : Disk
  numBlocks : UInt32
  blockBitmap : Block

/-- `bit_set` (`fs5600.c:58-61`). -/
def bitSet (map : Block) (i : Nat) : Block :=
  Function.update map (Fin.ofNat 4096 (i / 8))
    (map (Fin.ofNat 4096 (i / 8)) ||| (1 <<< UInt8.ofNat (i % 8)))

/-- `bit_clear` (`fs5600.c:62-65`). -/
def bitClear (map : Block) (i : Nat) : Block :=
  Function.update map (Fin.ofNat 4096 (i / 8))
    (map (Fin.ofNat 4096 (i / 8)) &&& ~~~(1 <<< UInt8.ofNat (i % 8)))

/-- `bit_test` (`fs5600.c:66-69`), as the truth value its callers take it for. -/
def bitTest (map : Block) (i : Nat) : Bool :=
  map (Fin.ofNat 4096 (i / 8)) &&& (1 <<< UInt8.ofNat (i % 8)) != 0

/-- The scan of `alloc_blk`: the first clear bit among the `left` bits from `id` on. -/
def findFree (map : Block) : (left id : Nat) → Option Nat
  | 0, _ => none
  | left + 1, id => if bitTest map id then findFree map left (id + 1) else some id

/-- `alloc_blk` (`fs5600.c:81-91`): marks the first clear bit of the whole bitmap. -/
def allocBlk (st : FsState) : Int × FsState :=
  match findFree st.blockBitmap (4096 * 8) 0 with
  | some id => (id, { st with blockBitmap := bitSet st.blockBitmap id })
  | none => (-enospc, st)

/-- `free_blk` (`fs5600.c:98-101`). The bitmap array has 32768 bits. -/
def freeBlk (st : FsState) (i : Int) : Except Fault FsState :=
  if 0 ≤ i ∧ i < 32768 then .ok { st with blockBitmap := bitClear st.blockBitmap i.toNat }
  else .error .outOfBounds

/-! ## Block I/O in range -/

theorem byteStart_of_lt {n : Nat} (h : n < 32768) : byteStart n = n * 4096 := by
  unfold byteStart
  rw [Int.bmod_eq_of_le] <;> omega

theorem blockRead_of_lt {d : Disk} {n : Nat} (buf : Block) (h : n < 32768) (hlen : n < d.len) :
    blockRead d buf n = (d.data n, 0) := by
  have hdiv : ((n : Int) * 4096 / 4096).toNat = n := by omega
  simp only [blockRead, byteStart_of_lt h, hdiv]
  rw [if_neg (by omega), if_neg (by omega)]

theorem blockWrite_of_lt (d : Disk) {n : Nat} (buf : Block) (h0 : 0 < n) (h : n < 32768) :
    blockWrite d buf n = .ok (d.write n buf, 0) := by
  have hdiv : ((n : Int) * 4096 / 4096).toNat = n := by omega
  have hend : ((n : Int) * 4096 + 4096).bmod (2 ^ 32) = n * 4096 + 4096 := by
    rw [Int.bmod_eq_of_le] <;> omega
  simp only [blockWrite, byteStart_of_lt h, hdiv, hend]
  rw [if_neg (by omega), if_neg (by omega), if_neg (by omega)]

theorem blockWrite_enospc (d : Disk) (buf : Block) :
    blockWrite d buf (-enospc) = .error .assertion := by
  simp only [blockWrite]
  rw [if_pos (by decide)]

@[simp] theorem Disk.write_same (d : Disk) (n : Nat) (b : Block) : (d.write n b).data n = b := by
  simp [Disk.write]

theorem Disk.write_ne (d : Disk) {n m : Nat} (b : Block) (h : m ≠ n) :
    (d.write n b).data m = d.data m := by
  simp [Disk.write, h]

theorem Disk.write_data (d : Disk) (n m : Nat) (b : Block) :
    (d.write n b).data m = if m = n then b else d.data m := by
  by_cases h : m = n
  · subst h; simp
  · simp [Disk.write_ne, h]

theorem Disk.write_comm (d : Disk) {n m : Nat} (b c : Block) (h : n ≠ m) :
    (d.write n b).write m c = (d.write m c).write n b := by
  ext1
  · exact Function.update_comm h b c d.data
  · simp only [Disk.write]
    omega

theorem Disk.lt_write_len (d : Disk) {n m : Nat} (b : Block) :
    m < (d.write n b).len ↔ m < d.len ∨ m ≤ n := by
  simp only [Disk.write]
  omega

/-! ## Bits -/

private theorem byte_test_eq (x : UInt8) (k : Fin 8) :
    (x &&& (1 <<< UInt8.ofNat k.val) != 0) = x.toBitVec.getLsbD k.val := by
  obtain ⟨x⟩ := x
  revert x k
  decide +kernel

private theorem mask_getLsbD (a b : Fin 8) :
    (1 <<< UInt8.ofNat a.val : UInt8).toBitVec.getLsbD b.val = decide (b.val = a.val) := by
  revert a b
  decide +kernel

theorem bitTest_eq (map : Block) (i : Nat) :
    bitTest map i = (map (Fin.ofNat 4096 (i / 8))).toBitVec.getLsbD (i % 8) :=
  byte_test_eq _ ⟨i % 8, by omega⟩

theorem mask_bit (i j : Nat) :
    (1 <<< UInt8.ofNat (i % 8) : UInt8).toBitVec.getLsbD (j % 8) = decide (j % 8 = i % 8) :=
  mask_getLsbD ⟨i % 8, by omega⟩ ⟨j % 8, by omega⟩

/-- Bits in different bytes do not meet; in the same byte the position decides. -/
private theorem ofNat_div_eq {i j : Nat} (hi : i < 32768) (hj : j < 32768) :
    Fin.ofNat 4096 (j / 8) = Fin.ofNat 4096 (i / 8) ↔ j / 8 = i / 8 := by
  rw [Fin.ext_iff]
  simp only [Fin.val_ofNat]
  rw [Nat.mod_eq_of_lt (by omega), Nat.mod_eq_of_lt (by omega)]

theorem bitTest_bitSet (map : Block) {i j : Nat} (hi : i < 32768) (hj : j < 32768) :
    bitTest (bitSet map i) j = (decide (j = i) || bitTest map j) := by
  simp only [bitTest_eq, bitSet]
  by_cases h : j / 8 = i / 8
  · rw [(ofNat_div_eq hi hj).mpr h, Function.update_self, UInt8.toBitVec_or, BitVec.getLsbD_or,
      mask_bit, Bool.or_comm]
    have hdec : decide (j % 8 = i % 8) = decide (j = i) := by
      apply decide_eq_decide.mpr
      omega
    rw [hdec]
  · rw [Function.update_of_ne (fun he => h ((ofNat_div_eq hi hj).mp he))]
    have hne : ¬ j = i := fun he => h (by rw [he])
    simp [hne]

theorem bitTest_bitClear (map : Block) {i j : Nat} (hi : i < 32768) (hj : j < 32768) :
    bitTest (bitClear map i) j = (!decide (j = i) && bitTest map j) := by
  simp only [bitTest_eq, bitClear]
  by_cases h : j / 8 = i / 8
  · rw [(ofNat_div_eq hi hj).mpr h, Function.update_self, UInt8.toBitVec_and,
      BitVec.getLsbD_and, UInt8.toBitVec_not, BitVec.getLsbD_not, mask_bit, Bool.and_comm]
    have hdec : decide (j % 8 = i % 8) = decide (j = i) := by
      apply decide_eq_decide.mpr
      omega
    have hlt : decide (j % 8 < 8) = true := by simp; omega
    rw [hdec, hlt, Bool.true_and]
  · rw [Function.update_of_ne (fun he => h ((ofNat_div_eq hi hj).mp he))]
    have hne : ¬ j = i := fun he => h (by rw [he])
    simp [hne]

/-- A bitmap is determined by its 32768 bits. -/
theorem bitmap_ext {m m' : Block} (h : ∀ j < 32768, bitTest m j = bitTest m' j) : m = m' := by
  funext k
  apply UInt8.toBitVec_inj.mp
  apply BitVec.eq_of_getLsbD_eq
  intro b hb
  have hj := h (8 * k.val + b) (by omega)
  have hdiv : Fin.ofNat 4096 ((8 * k.val + b) / 8) = k := by
    apply Fin.ext
    simp only [Fin.val_ofNat]
    omega
  have hmod : (8 * k.val + b) % 8 = b := by omega
  simpa only [bitTest_eq, hdiv, hmod] using hj

/-! ## Allocation -/

theorem findFree_eq_some {map : Block} {left id k : Nat} (h : findFree map left id = some k) :
    id ≤ k ∧ k < id + left ∧ bitTest map k = false ∧
      ∀ j, id ≤ j → j < k → bitTest map j = true := by
  induction left generalizing id with
  | zero => simp [findFree] at h
  | succ left ih =>
    unfold findFree at h
    split at h
    · rename_i hset
      obtain ⟨h1, h2, h3, h4⟩ := ih h
      refine ⟨by omega, by omega, h3, fun j hj hjk => ?_⟩
      by_cases hji : j = id
      · rw [hji, hset]
      · exact h4 j (by omega) hjk
    · rename_i hclear
      obtain rfl := Option.some.inj h
      exact ⟨le_rfl, by omega, by simpa using hclear, fun j hj hjk => by omega⟩

theorem findFree_eq_none {map : Block} {left id : Nat} (h : findFree map left id = none) :
    ∀ j, id ≤ j → j < id + left → bitTest map j = true := by
  induction left generalizing id with
  | zero => intro j _ _; omega
  | succ left ih =>
    unfold findFree at h
    split at h
    · rename_i hset
      intro j hj hlt
      by_cases hji : j = id
      · rw [hji, hset]
      · exact ih h j (by omega) (by omega)
    · exact absurd h (by simp)

/-- Either the first clear bit is taken, or no bit is clear. -/
theorem allocBlk_cases (st : FsState) :
    (∃ b, b < 32768 ∧ bitTest st.blockBitmap b = false ∧
      (∀ j < b, bitTest st.blockBitmap j = true) ∧
      allocBlk st = ((b : Int), { st with blockBitmap := bitSet st.blockBitmap b })) ∨
    ((∀ j < 32768, bitTest st.blockBitmap j = true) ∧ allocBlk st = (-enospc, st)) := by
  unfold allocBlk
  cases h : findFree st.blockBitmap (4096 * 8) 0 with
  | some b =>
    obtain ⟨-, hlt, hclear, hmin⟩ := findFree_eq_some h
    exact .inl ⟨b, by omega, hclear, fun j hj => hmin j (by omega) hj, rfl⟩
  | none => exact .inr ⟨fun j hj => findFree_eq_none h j (by omega) (by omega), rfl⟩

theorem freeBlk_of_lt (st : FsState) {n : Nat} (h : n < 32768) :
    freeBlk st n = .ok { st with blockBitmap := bitClear st.blockBitmap n } := by
  unfold freeBlk
  rw [if_pos (by omega)]
  simp

end SystemsProjects.Fs5600
