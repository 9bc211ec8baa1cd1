import SystemsProjects.Lib.LittleEndian
import Mathlib.Tactic.SplitIfs

/-!
# On-disk structures

The structures of `lab5-TheCarton-main/fs5600.h` as byte layouts of one 4096-byte block. The
code reads a block into a `struct` and writes a `struct` back as a block, so `decodeInode` and
`encodeInode` (and the same pair for a block of directory entries) are the two reinterpretations
of the same bytes on the little-endian machine the lab runs on. `FS_BLOCK_SIZE` is 4096,
`NUM_PTRS_INODE` (`FS_BLOCK_SIZE/4 - 5`) is 1019 and `NUM_DIRENT_BLOCK`
(`FS_BLOCK_SIZE / sizeof (struct fs_dirent)`) is 128.
-/

namespace SystemsProjects.Fs5600
open SystemsProjects.Lib

/-! The array sizes, whose indices are taken modulo the size: the bytes of a block, the pointers
of an inode, the entries of a directory block and the bytes of a name. -/

instance neZero_fsBlockSize : NeZero 4096 := ⟨by decide⟩

instance neZero_numPtrsInode : NeZero 1019 := ⟨by decide⟩

instance neZero_numDirentBlock : NeZero 128 := ⟨by decide⟩

instance neZero_nameSize : NeZero 28 := ⟨by decide⟩

/-- The contents of one block of `FS_BLOCK_SIZE` = 4096 bytes. -/
abbrev Block := Fin 4096 → UInt8

/-- The block of NUL bytes: what a hole in the image file reads as. -/
def Block.zero : Block := fun _ => 0

/-- `n` bytes at offset `off` of a block as a little-endian number. -/
def Block.readLe (b : Block) (off n : Nat) : Nat :=
  leNat n fun i => b (Fin.ofNat 4096 (off + i))

/-- `struct fs_super` (`fs5600.h:32-38`) without its padding. -/
structure Super where
  magic : UInt32
  diskSize : UInt32

/-- `struct fs_inode` (`fs5600.h:40-48`). -/
@[ext]
structure Inode where
  uid : UInt16
  gid : UInt16
  mode : UInt32
  ctime : UInt32
  mtime : UInt32
  size : Int32
  ptrs : Fin 1019 → UInt32

/-- `struct fs_dirent` (`fs5600.h:52-56`): two bit fields in one word, then the name. -/
@[ext]
structure Dirent where
  valid : Bool
  inode : BitVec 31
  name : Fin 28 → UInt8

/-- `FS_MAGIC` (`fs5600.h:14`). -/
def fsMagic : UInt32 := 0x30303635

/-- The file-type bits of a mode (`S_IFMT`). -/
def sIfmt : UInt32 := 0o170000

/-- `S_IFREG`. -/
def sIfreg : UInt32 := 0o100000

/-- `S_IFDIR`. -/
def sIfdir : UInt32 := 0o040000

/-- `S_ISDIR (mode)`. -/
def sIsdir (mode : UInt32) : Bool := mode &&& sIfmt == sIfdir

def decodeSuper (b : Block) : Super where
  magic := UInt32.ofNat (b.readLe 0 4)
  diskSize := UInt32.ofNat (b.readLe 4 4)

/-- A `struct fs_super` written as a block. -/
def encodeSuper (sb : Super) : Block := fun k =>
  if k.val < 4 then leByte sb.magic.toNat k.val
  else if k.val < 8 then leByte sb.diskSize.toNat (k.val - 4)
  else 0

/-- A block read into a `struct fs_inode`. -/
def decodeInode (b : Block) : Inode where
  uid := UInt16.ofNat (b.readLe 0 2)
  gid := UInt16.ofNat (b.readLe 2 2)
  mode := UInt32.ofNat (b.readLe 4 4)
  ctime := UInt32.ofNat (b.readLe 8 4)
  mtime := UInt32.ofNat (b.readLe 12 4)
  size := (UInt32.ofNat (b.readLe 16 4)).toInt32
  ptrs := fun i => UInt32.ofNat (b.readLe (20 + 4 * i.val) 4)

/-- A `struct fs_inode` written as a block. -/
def encodeInode (ino : Inode) : Block := fun k =>
  if k.val < 2 then leByte ino.uid.toNat k.val
  else if k.val < 4 then leByte ino.gid.toNat (k.val - 2)
  else if k.val < 8 then leByte ino.mode.toNat (k.val - 4)
  else if k.val < 12 then leByte ino.ctime.toNat (k.val - 8)
  else if k.val < 16 then leByte ino.mtime.toNat (k.val - 12)
  else if k.val < 20 then leByte ino.size.toUInt32.toNat (k.val - 16)
  else leByte (ino.ptrs (Fin.ofNat 1019 ((k.val - 20) / 4))).toNat ((k.val - 20) % 4)

/-- A block read into a `struct fs_dirent [NUM_DIRENT_BLOCK]`. -/
def decodeDirents (b : Block) : Fin 128 → Dirent := fun i =>
  { valid := b.readLe (32 * i.val) 4 % 2 == 1
    inode := BitVec.ofNat 31 (b.readLe (32 * i.val) 4 / 2)
    name := fun j => b (Fin.ofNat 4096 (32 * i.val + 4 + j.val)) }

/-- The word that holds the bit fields of a directory entry. -/
def Dirent.word (e : Dirent) : Nat := e.valid.toNat + 2 * e.inode.toNat

/-- A `struct fs_dirent [NUM_DIRENT_BLOCK]` written as a block. -/
def encodeDirents (es : Fin 128 → Dirent) : Block := fun k =>
  let e := es (Fin.ofNat 128 (k.val / 32))
  if k.val % 32 < 4 then leByte e.word (k.val % 32)
  else e.name (Fin.ofNat 28 (k.val % 32 - 4))

/-- A number whose bytes stand at offset `off`. -/
theorem Block.readLe_eq {b : Block} {off n w : Nat} (hw : w < 256 ^ n) (hoff : off + n ≤ 4096)
    (h : ∀ (k : Fin 4096), ∀ i < n, k.val = off + i → b k = leByte w i) : b.readLe off n = w := by
  have hbytes : ∀ i < n, b (Fin.ofNat 4096 (off + i)) = leByte w i := by
    intro i hi
    exact h _ i hi (Nat.mod_eq_of_lt (by omega))
  unfold Block.readLe
  rw [leNat_congr hbytes, leNat_leByte, Nat.mod_eq_of_lt hw]

@[simp] theorem decodeSuper_encodeSuper (sb : Super) : decodeSuper (encodeSuper sb) = sb := by
  have hmagic : (encodeSuper sb).readLe 0 4 = sb.magic.toNat := by
    refine Block.readLe_eq sb.magic.toNat_lt (by omega) fun k i hi hk => ?_
    rw [Nat.zero_add] at hk
    simp only [encodeSuper, hk, if_pos hi]
  have hsize : (encodeSuper sb).readLe 4 4 = sb.diskSize.toNat := by
    refine Block.readLe_eq sb.diskSize.toNat_lt (by omega) fun k i hi hk => ?_
    simp only [encodeSuper, hk]
    rw [if_neg (by omega), if_pos (by omega), Nat.add_sub_cancel_left]
  simp [decodeSuper, hmagic, hsize]

@[simp] theorem decodeInode_encodeInode (ino : Inode) : decodeInode (encodeInode ino) = ino := by
  have huid : (encodeInode ino).readLe 0 2 = ino.uid.toNat := by
    refine Block.readLe_eq ino.uid.toNat_lt (by omega) fun k i hi hk => ?_
    rw [Nat.zero_add] at hk
    simp only [encodeInode, hk, if_pos hi]
  have hgid : (encodeInode ino).readLe 2 2 = ino.gid.toNat := by
    refine Block.readLe_eq ino.gid.toNat_lt (by omega) fun k i hi hk => ?_
    simp only [encodeInode, hk]
    rw [if_neg (by omega), if_pos (by omega), Nat.add_sub_cancel_left]
  have hmode : (encodeInode ino).readLe 4 4 = ino.mode.toNat := by
    refine Block.readLe_eq ino.mode.toNat_lt (by omega) fun k i hi hk => ?_
    simp only [encodeInode, hk]
    rw [if_neg (by omega), if_neg (by omega), if_pos (by omega), Nat.add_sub_cancel_left]
  have hctime : (encodeInode ino).readLe 8 4 = ino.ctime.toNat := by
    refine Block.readLe_eq ino.ctime.toNat_lt (by omega) fun k i hi hk => ?_
    simp only [encodeInode, hk]
    rw [if_neg (by omega), if_neg (by omega), if_neg (by omega), if_pos (by omega),
      Nat.add_sub_cancel_left]
  have hmtime : (encodeInode ino).readLe 12 4 = ino.mtime.toNat := by
    refine Block.readLe_eq ino.mtime.toNat_lt (by omega) fun k i hi hk => ?_
    simp only [encodeInode, hk]
    rw [if_neg (by omega), if_neg (by omega), if_neg (by omega), if_neg (by omega),
      if_pos (by omega), Nat.add_sub_cancel_left]
  have hsize : (encodeInode ino).readLe 16 4 = ino.size.toUInt32.toNat := by
    refine Block.readLe_eq ino.size.toUInt32.toNat_lt (by omega) fun k i hi hk => ?_
    simp only [encodeInode, hk]
    rw [if_neg (by omega), if_neg (by omega), if_neg (by omega), if_neg (by omega),
      if_neg (by omega), if_pos (by omega), Nat.add_sub_cancel_left]
  have hptrs : ∀ j : Fin 1019,
      (encodeInode ino).readLe (20 + 4 * j.val) 4 = (ino.ptrs j).toNat := by
    intro j
    refine Block.readLe_eq (ino.ptrs j).toNat_lt (by omega) fun k i hi hk => ?_
    have hdiv : Fin.ofNat 1019 ((20 + 4 * j.val + i - 20) / 4) = j := by
      apply Fin.ext
      rw [Fin.val_ofNat]
      omega
    have hmod : (20 + 4 * j.val + i - 20) % 4 = i := by omega
    simp only [encodeInode, hk, hdiv, hmod]
    rw [if_neg (by omega), if_neg (by omega), if_neg (by omega), if_neg (by omega),
      if_neg (by omega), if_neg (by omega)]
  simp [decodeInode, huid, hgid, hmode, hctime, hmtime, hsize, hptrs]

theorem Dirent.word_lt (e : Dirent) : e.word < 256 ^ 4 := by
  have hi := e.inode.isLt
  have hv := Bool.toNat_le e.valid
  unfold Dirent.word
  omega

@[simp] theorem decodeDirents_encodeDirents (es : Fin 128 → Dirent) :
    decodeDirents (encodeDirents es) = es := by
  funext i
  have hword : (encodeDirents es).readLe (32 * i.val) 4 = (es i).word := by
    refine Block.readLe_eq (es i).word_lt (by omega) fun k j hj hk => ?_
    have hdiv : Fin.ofNat 128 ((32 * i.val + j) / 32) = i := by
      apply Fin.ext
      rw [Fin.val_ofNat]
      omega
    have hmod : (32 * i.val + j) % 32 = j := by omega
    simp only [encodeDirents, hk, hdiv, hmod]
    rw [if_pos hj]
  have hname : ∀ j : Fin 28,
      encodeDirents es (Fin.ofNat 4096 (32 * i.val + 4 + j.val)) = (es i).name j := by
    intro j
    have hk : (Fin.ofNat 4096 (32 * i.val + 4 + j.val)).val = 32 * i.val + 4 + j.val :=
      Nat.mod_eq_of_lt (by omega)
    have hdiv : Fin.ofNat 128 ((32 * i.val + 4 + j.val) / 32) = i := by
      apply Fin.ext
      rw [Fin.val_ofNat]
      omega
    have hmod : (32 * i.val + 4 + j.val) % 32 = 4 + j.val := by omega
    simp only [encodeDirents, hk, hdiv, hmod]
    rw [if_neg (by omega)]
    congr 1
    apply Fin.ext
    simp
  have hvalid : ((es i).word % 2 == 1) = (es i).valid := by
    unfold Dirent.word
    cases (es i).valid <;> simp
  have hinode : BitVec.ofNat 31 ((es i).word / 2) = (es i).inode := by
    have hv := Bool.toNat_le (es i).valid
    have hdiv : (es i).word / 2 = (es i).inode.toNat := by unfold Dirent.word; omega
    rw [hdiv, BitVec.ofNat_toNat, BitVec.setWidth_eq]
  ext1
  · simp only [decodeDirents, hword, hvalid]
  · simp only [decodeDirents, hword, hinode]
  · funext j
    simp only [decodeDirents, hname]

end SystemsProjects.Fs5600
