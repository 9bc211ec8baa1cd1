import SystemsProjects.Fs5600.FilesRun
import SystemsProjects.Fs5600.Diskfmt
import SystemsProjects.Lib.Preorder

/-!
# The image reader

`read-img.py`: it reads an image, walks the tree from inode 2 and prints what it finds, with a note
at every block that block 1 has no mark for. `none` is a Python exception: an index out of range,
the assertion, or calls of `iter` nested deeper than Python allows. The image is in whole blocks,
since the reader stops at any other length.
-/

namespace SystemsProjects.Fs5600
open SystemsProjects.Lib

/-- `bitmap.from_buffer_copy`. -/
def Bitmap.ofBytes (b : Block) : Bitmap := ⟨fun i => UInt32.ofNat (b.readLe (4 * i.val) 4)⟩

/-- `S_ISREG (mode)` (`diskfmt.py:49-50`). -/
def sIsreg (mode : UInt32) : Bool := mode &&& sIfmt == sIfreg

/-- A `c_char * 28` as a string: it ends at the first NUL or with the array. -/
def Dirent.chars (e : Dirent) : List UInt8 := (bytesFrom e.name 0).takeWhile (· ≠ 0)

/-- `xblks` (`read-img.py:57`). -/
def Inode.xblks (ino : Inode) : Nat := ((ino.size.toInt + 4095) / 4096).toNat

/-- A line `[j] "name" -> inode`. -/
structure EntryLine where
  j : Fin 128
  name : List UInt8
  inode : Nat
  deriving DecidableEq

/-- The lines after the header of an inode: block numbers, each with whether it is marked. -/
inductive Lines where
  | blocks (ptrs : List (Nat × Bool))
  | tables (blocks : List ((Nat × Bool) × List EntryLine))
  | badMode (mode : UInt32)
  deriving DecidableEq

/-- What `iter` prints of one inode. -/
structure Visit where
  inum : Nat
  name : List UInt8
  uid : UInt16
  gid : UInt16
  mode : UInt32
  size : Int
  marked : Bool
  lines : Lines
  deriving DecidableEq

/-- The first lines of a visit (`read-img.py:50-55`), with those that follow. -/
def Inode.shown (ino : Inode) (b : List UInt8 × Nat) (alloc : Bool) (lines : Lines) : Visit where
  inum := b.2
  name := if b.1 = [] then [slash] else b.1
  uid := ino.uid
  gid := ino.gid
  mode := ino.mode
  size := ino.size.toInt
  marked := alloc
  lines := lines

/-- `blkmap.get (_in.ptrs[i])`. -/
def Inode.markedPtr (ino : Inode) (blkmap : Bitmap) (i : Nat) : Option (Nat × Bool) :=
  if h : i < 1019 then do
    let alloc ← blkmap.get (ino.ptrs ⟨i, h⟩).toNat
    some ((ino.ptrs ⟨i, h⟩).toNat, alloc)
  else none

/-- The valid entries of a directory block. -/
def entryLines (b : Block) : List EntryLine :=
  ((List.finRange 128).filter fun j => (decodeDirents b j).valid).map fun j =>
    ⟨j, (decodeDirents b j).chars, (decodeDirents b j).inode.toNat⟩

/-- Block `i` of a directory (`read-img.py:69-79`). -/
def Inode.table (ino : Inode) (d : Disk) (blkmap : Bitmap) (i : Nat) :
    Option ((Nat × Bool) × List EntryLine) := do
  let ptr ← ino.markedPtr blkmap i
  if ptr.1 < d.len then some (ptr, entryLines (d.data ptr.1)) else none

/-- One call of `iter`, up to the calls for the children (`read-img.py:45-86`). -/
def visit (d : Disk) (blkmap : Bitmap) (b : List UInt8 × Nat) :
    Option (Visit × List (List UInt8 × Nat)) := do
  if b.2 < d.len then
    let _in := decodeInode (d.data b.2)
    let alloc ← blkmap.get b.2
    if sIsreg _in.mode then
      let ptrs ← (List.range _in.xblks).mapM (_in.markedPtr blkmap)
      some (_in.shown b alloc (.blocks ptrs), [])
    else if sIsdir _in.mode then
      let tables ← (List.range _in.xblks).mapM (_in.table d blkmap)
      let children := tables.flatMap fun t => t.2.map fun e => (b.1 ++ slash :: e.name, e.inode)
      some (_in.shown b alloc (.tables tables), children)
    else some (_in.shown b alloc (.badMode _in.mode), [])
  else none

/-- `iter`. -/
def iter (d : Disk) (blkmap : Bitmap) (limit : Nat) (b : List UInt8 × Nat) : Option (List Visit) :=
  preorder (visit d blkmap) limit b

/-- What is printed; `iter` goes the same way twice, and prints the second time. -/
structure Report where
  magic : UInt32
  badMagic : Bool
  blocks : UInt32
  badBlocks : Bool
  used : List Nat
  found : List Nat
  visits : List Visit

/-- `read-img.py`, on an image of whole blocks. -/
def readImg (limit : Nat) (d : Disk) : Option Report :=
  if d.len < 2 then none
  else do
    let sb := decodeSuper (d.data 0)
    let blkmap := Bitmap.ofBytes (d.data 1)
    let marks ← (List.range d.len).mapM blkmap.get
    let visits ← iter d blkmap limit ([], 2)
    some { magic := sb.magic, badMagic := sb.magic != fsMagic, blocks := sb.diskSize
           badBlocks := sb.diskSize.toNat != d.len
           used := (List.range d.len).filter fun i => marks.getD i false
           found := (List.range d.len).filter fun i => visits.any fun v => v.inum == i
           visits := visits }

/-- The block numbers of a visit, each with whether it is marked. -/
def Visit.ptrs (v : Visit) : List (Nat × Bool) :=
  (v.inum, v.marked) ::
    match v.lines with
    | .blocks ptrs => ptrs
    | .tables blocks => blocks.map Prod.fst
    | .badMode _ => []

/-! ## Reading a bitmap -/

theorem Bitmap.bytes_ofBytes (b : Block) : (Bitmap.ofBytes b).bytes = b := by
  funext k
  have hlt : b.readLe (4 * (k.val / 4)) 4 < 2 ^ 32 := leNat_lt 4 _
  show leByte (UInt32.ofNat (b.readLe (4 * (k.val / 4)) 4)).toNat (k.val % 4) = b k
  rw [UInt32.toNat_ofNat', Nat.mod_eq_of_lt hlt, Block.readLe,
    leByte_leNat (Nat.mod_lt _ (by omega)), Nat.div_add_mod]
  congr 1
  exact Fin.ext (Nat.mod_eq_of_lt k.isLt)

/-- The reader and the file system read the same bits. -/
theorem Bitmap.get_ofBytes (b : Block) {i : Nat} (hi : i < 32768) :
    (Bitmap.ofBytes b).get i = some (bitTest b i) := by
  rw [Bitmap.get_eq _ hi, ← Bitmap.bitTest_bytes _ hi, Bitmap.bytes_ofBytes]

end SystemsProjects.Fs5600
