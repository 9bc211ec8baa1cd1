import SystemsProjects.Fs5600.Path

/-!
# The file-system operations

The FUSE operations of `fs5600.c`, each from the state to its return value and the state
afterwards. Block reads and writes ignore the return code, as the source does. A call that
aborts or leaves an array is a `Fault`.
-/

namespace SystemsProjects.Fs5600
open SystemsProjects.Lib

/-- `block_write` with the return code ignored. -/
def FsState.put (st : FsState) (buf : Block) (lba : Int) : Except Fault FsState := do
  let (disk, _) ← blockWrite st.disk buf lba
  .ok { st with disk := disk }

/-- `block_read` into a buffer that holds `junk`, with the return code ignored. -/
def FsState.get (st : FsState) (junk : Block) (lba : Int) : Block :=
  (blockRead st.disk junk lba).1

/-- `fs_init` (`fs5600.c:280-302`) on an image: the globals it sets up. The locals are junk
until read. -/
def fsInit (env : Env) (d : Disk) : Except Fault FsState :=
  let (sb, rc) := blockRead d (env.junk [0]) 0
  if rc < 0 then .error .exit
  else if (decodeSuper sb).magic ≠ fsMagic then .error .exit
  else
    let (map, rc) := blockRead d Block.zero 1
    if rc < 0 then .error .exit
    else .ok { disk := d, numBlocks := (decodeSuper sb).diskSize, blockBitmap := map }

/-- The fields of `struct stat` that `inode_to_stat` sets. -/
structure Stat where
  ino : UInt32
  mode : UInt32
  nlink : Nat
  uid : UInt16
  gid : UInt16
  size : Int
  blksize : Int
  atime : UInt32
  mtime : UInt32
  ctime : UInt32

/-- `inode_to_stat` (`fs5600.c:240-259`); `DIV_ROUND_UP` is `int` division. -/
def inodeToStat (inode : Inode) (inodeNum : UInt32) : Stat where
  ino := inodeNum
  mode := inode.mode
  nlink := 1
  uid := inode.uid
  gid := inode.gid
  size := inode.size.toInt
  blksize := (inode.size.toInt + 4096 - 1).tdiv 4096
  atime := inode.mtime
  mtime := inode.mtime
  ctime := inode.ctime

/-- The fields of `struct statvfs` that `fs_statfs` sets. -/
structure Statvfs where
  bsize : Nat
  namemax : Nat
  blocks : Nat
  bfree : Nat
  bavail : Nat

/-- The counting loop of `fs_statfs`, with its 16-bit counter, over the `left` bits from `i`. -/
def blocksUsed (map : Block) : (left i : Nat) → UInt16 → UInt16
  | 0, _, used => used
  | left + 1, i, used => blocksUsed map left (i + 1) (if bitTest map i then used + 1 else used)

/-- `fs_statfs` (`fs5600.c:310-348`): it looks at the first `FS_BLOCK_SIZE` bits. -/
def fsStatfs (st : FsState) : Statvfs :=
  let used := blocksUsed st.blockBitmap 4096 0 0
  let bfree := (st.numBlocks.toNat + 2 ^ 64 - used.toNat) % 2 ^ 64
  { bsize := 4096, namemax := 27, blocks := st.numBlocks.toNat, bfree := bfree, bavail := bfree }

/-- `fs_getattr` (`fs5600.c:369-378`). -/
def fsGetattr (env : Env) (path : List UInt8) (st : FsState) :
    Except Fault (Int × Option Stat) := do
  let inum ← pathToInum (env.call 0) st.disk path
  if inum < 0 then .ok (inum, none)
  else
    let inode := decodeInode (st.get (env.junk [0]) inum)
    .ok (0, some (inodeToStat inode (UInt32.ofInt inum)))

/-- The entries `fs_readdir` passes to `filler`, in slot order. -/
def fillEntries (env : Env) (st : FsState) (dirents : Fin 128 → Dirent) :
    List (Fin 128) → List ((Fin 28 → UInt8) × Stat)
  | [] => []
  | i :: is =>
    if !(dirents i).valid then fillEntries env st dirents is
    else
      let inumEntry := UInt32.ofNat (dirents i).inode.toNat
      let inode := decodeInode (st.get (env.junk [2, i.val]) (asInt inumEntry))
      ((dirents i).name, inodeToStat inode inumEntry) :: fillEntries env st dirents is

/-- `fs_readdir` (`fs5600.c:401-432`): the return value and the calls of `filler`. -/
def fsReaddir (env : Env) (path : List UInt8) (st : FsState) :
    Except Fault (Int × List ((Fin 28 → UInt8) × Stat)) := do
  let inum ← pathToInum (env.call 0) st.disk path
  if inum < 0 then .ok (inum, [])
  else
    let dir := decodeInode (st.get (env.junk [0]) inum)
    if !sIsdir dir.mode then .ok (-enotdir, [])
    else
      let dirents := decodeDirents (st.get (env.junk [1]) (asInt (dir.ptrs 0)))
      .ok (0, fillEntries env st dirents (List.finRange 128))

/-- `norm_len` of the copy loops of `fs_read` and `fs_write`: `len` clipped to the end of the
block and to what is left after `done` bytes. -/
def normLen (len done offset : Nat) : Nat :=
  let n := if offset % 4096 + len > 4096 then 4096 - offset % 4096 else len
  if done + n > len then len - done else n

theorem normLen_pos {len done : Nat} (offset : Nat) (h : done < len) :
    0 < normLen len done offset := by
  unfold normLen
  dsimp only
  split_ifs <;> omega

/-- The loop of `fs_read` (`fs5600.c:473-504`); `buf` is what has been copied out so far and
`data` the local block buffer. The guard is `total_read != len`, and `total_read` never passes
`len`. -/
def readLoop (st : FsState) (inode : Inode) (len total offset : Nat) (data : Block)
    (buf : List UInt8) : Except Fault (List UInt8) :=
  if _h : total < len then
    if hi : offset / 4096 < 1019 then
      let n := normLen len total offset
      let data := st.get data (asInt (inode.ptrs ⟨offset / 4096, hi⟩))
      readLoop st inode len (total + n) (offset + n) data
        (buf ++ ((List.ofFn data).drop (offset % 4096)).take n)
    else .error .outOfBounds
  else .ok buf
termination_by len - total
decreasing_by
  have := normLen_pos offset _h
  omega

/-- `fs_read` (`fs5600.c:443-506`) with `offset ≥ 0`: the return value and the bytes stored into
the caller's buffer. -/
def fsRead (env : Env) (path : List UInt8) (len offset : Nat) (st : FsState) :
    Except Fault (Int × List UInt8) := do
  let inum ← pathToInum (env.call 0) st.disk path
  if inum < 0 then .ok (inum, [])
  else
    let inode := decodeInode (st.get (env.junk [0]) inum)
    if sIsdir inode.mode then .ok (-eisdir, [])
    else if inode.size.toInt ≤ (offset : Int) then .ok (0, [])
    else
      let len := if (offset + len : Int) > inode.size.toInt then
        (inode.size.toInt - offset).toNat else len
      let buf ← readLoop st inode len 0 offset (env.junk [1]) []
      .ok ((len : Int).bmod (2 ^ 32), buf)

/-- The renaming loop of `fs_rename` (`fs5600.c:614-622`), which looks at every slot, valid or
not. -/
def renameFrom (src dst : List UInt8) (entries : Fin 128 → Dirent) :
    List (Fin 128) → Except Fault (Fin 128 → Dirent)
  | [] => .ok entries
  | i :: is => do
    if ← orFault (strcmpEq (bytesFrom (entries i).name 0) src) then
      let name ← orFault (strcpy (entries i).name 0 (← orFault (cstr dst)))
      .ok (Function.update entries i { entries i with name := name })
    else renameFrom src dst entries is

/-- `fs_rename` (`fs5600.c:565-629`). -/
def fsRename (env : Env) (srcPath dstPath : List UInt8) (st : FsState) :
    Except Fault (Int × FsState) := do
  let srcInum ← pathToInum (env.call 0) st.disk srcPath
  if srcInum < 0 then .ok (-enoent, st)
  else
    let (_, srcLast) ← getLastFilename (env.call 1) srcPath (env.bytes 28 0)
    let srcDir ← getParentPath 280 srcPath
    let dstInum ← pathToInum (env.call 2) st.disk dstPath
    if dstInum > 0 then .ok (-eexist, st)
    else
      let (_, dstLast) ← getLastFilename (env.call 3) dstPath (env.bytes 28 1)
      let dstDir ← getParentPath 280 dstPath
      if srcDir ≠ dstDir then .ok (-einval, st)
      else
        let dirInum ← pathToInum (env.call 4) st.disk srcDir
        let dirInode := decodeInode (st.get (env.junk [2]) dirInum)
        if !sIsdir dirInode.mode then .error .assertion
        else
          let entries := decodeDirents (st.get (env.junk [3]) (asInt (dirInode.ptrs 0)))
          let entries ← renameFrom (bytesFrom srcLast 0) (bytesFrom dstLast 0) entries
            (List.finRange 128)
          let st ← st.put (encodeDirents entries) (asInt (dirInode.ptrs 0))
          .ok (0, st)

/-- `fs_chmod` (`fs5600.c:644-655`). -/
def fsChmod (env : Env) (path : List UInt8) (mode : UInt32) (st : FsState) :
    Except Fault (Int × FsState) := do
  let inum ← pathToInum (env.call 0) st.disk path
  if inum < 0 then .ok (inum, st)
  else
    let inode := decodeInode (st.get (env.junk [0]) inum)
    let st ← st.put (encodeInode { inode with mode := mode ||| (inode.mode &&& sIfmt) }) inum
    .ok (0, st)

/-- The slot `add_dirent` takes: the first that is not valid. -/
def firstInvalid (entries : Fin 128 → Dirent) : Option (Fin 128) :=
  (List.finRange 128).find? fun i => !(entries i).valid

/-- `add_dirent` (`fs5600.c:658-672`). -/
def addDirent (st : FsState) (entries : Fin 128 → Dirent) (dirInum : Int) (entryInum : Int)
    (entryName : List UInt8) : Except Fault (Int × FsState) :=
  match firstInvalid entries with
  | none => .ok (-enospc, st)
  | some i => do
    let name ← orFault (strcpy (entries i).name 0 (← orFault (cstr entryName)))
    let entry : Dirent := { valid := true, inode := BitVec.ofInt 31 entryInum, name := name }
    let st ← st.put (encodeDirents (Function.update entries i entry)) dirInum
    .ok (0, st)

/-- `fs_create` (`fs5600.c:694-739`). The result of `add_dirent` is ignored. -/
def fsCreate (env : Env) (path : List UInt8) (mode : UInt32) (st : FsState) :
    Except Fault (Int × FsState) := do
  let n ← pathToInum (env.call 0) st.disk path
  if n > 0 then .ok (-eexist, st)
  else
    let srcDir ← getParentPath 280 path
    let dirInum ← pathToInum (env.call 1) st.disk srcDir
    if dirInum < 0 then .ok (-enoent, st)
    else
      let dirInode := decodeInode (st.get (env.junk [0]) dirInum)
      if !sIsdir dirInode.mode then .ok (-enotdir, st)
      else
        let (r, filename) ← getLastFilename (env.call 2) path (env.bytes 28 1)
        if r < 0 then .ok (r, st)
        else
          let (newFileInum, st) := allocBlk st
          let newFile : Inode :=
            { uid := env.uid, gid := env.gid, mode := mode ||| sIfreg, ctime := env.time,
              mtime := env.time, size := 0, ptrs := fun _ => 0 }
          let st ← st.put (encodeInode newFile) newFileInum
          let entries := decodeDirents (st.get (env.junk [2]) (asInt (dirInode.ptrs 0)))
          let (_, st) ← addDirent st entries (asInt (dirInode.ptrs 0)) newFileInum
            (bytesFrom filename 0)
          .ok (0, st)

/-- `fs_mkdir` (`fs5600.c:759-812`). Only the valid bits of the new entry block are set; the
names and inode numbers it writes are whatever the stack held. -/
def fsMkdir (env : Env) (path : List UInt8) (mode : UInt32) (st : FsState) :
    Except Fault (Int × FsState) := do
  let n ← pathToInum (env.call 0) st.disk path
  if n > 0 then .ok (-eexist, st)
  else
    let srcDir ← getParentPath 280 path
    let dirInum ← pathToInum (env.call 1) st.disk srcDir
    if dirInum < 0 then .ok (-enoent, st)
    else
      let dirInode := decodeInode (st.get (env.junk [0]) dirInum)
      if !sIsdir dirInode.mode then .ok (-enotdir, st)
      else
        let (r, filename) ← getLastFilename (env.call 2) path (env.bytes 28 1)
        if r < 0 then .ok (r, st)
        else
          let (newFileInum, st) := allocBlk st
          let (newDirEntriesInum, st) := allocBlk st
          let newFile : Inode :=
            { uid := env.uid, gid := env.gid, mode := mode ||| sIfdir, ctime := env.time,
              mtime := env.time, size := 0,
              ptrs := fun i => if i.val = 0 then UInt32.ofInt newDirEntriesInum else 0 }
          let st ← st.put (encodeInode newFile) newFileInum
          let entries := decodeDirents (st.get (env.junk [2]) (asInt (dirInode.ptrs 0)))
          let (_, st) ← addDirent st entries (asInt (dirInode.ptrs 0)) newFileInum
            (bytesFrom filename 0)
          let newDirEntries := fun i =>
            { decodeDirents (env.junk [3]) i with valid := false }
          let st ← st.put (encodeDirents newDirEntries) newDirEntriesInum
          .ok (0, st)

/-- The freeing loop of `fs_unlink` and `fs_truncate` over the pointers that are left. -/
def freePtrs (inode : Inode) : List (Fin 1019) → FsState → Except Fault FsState
  | [], st => .ok st
  | i :: is, st =>
    if inode.ptrs i ≠ 0 then do
      let st ← freeBlk st (asInt (inode.ptrs i))
      freePtrs inode is st
    else freePtrs inode is st

/-- The end of `fs_unlink` and `fs_rmdir`: `entries[get_dirent_index (..)].valid = 0`. -/
def clearDirent (entries : Fin 128 → Dirent) (filename : List UInt8) :
    Except Fault (Fin 128 → Dirent) := do
  let k ← getDirentIndex entries filename
  if k < 0 then .error .outOfBounds
  else
    let i := Fin.ofNat 128 k.toNat
    .ok (Function.update entries i { entries i with valid := false })

/-- `fs_unlink` (`fs5600.c:839-873`). -/
def fsUnlink (env : Env) (path : List UInt8) (st : FsState) : Except Fault (Int × FsState) := do
  let fileInum ← pathToInum (env.call 0) st.disk path
  if fileInum < 0 then .ok (fileInum, st)
  else
    let fileInode := decodeInode (st.get (env.junk [0]) fileInum)
    if sIsdir fileInode.mode then .ok (-eisdir, st)
    else
      let st ← freeBlk st fileInum
      let st ← freePtrs fileInode (List.finRange 1019) st
      let parentDir ← getParentPath 270 path
      let (_, filename) ← getLastFilename (env.call 1) path (env.bytes 27 1)
      let parentInum ← pathToInum (env.call 2) st.disk parentDir
      let parentInode := { decodeInode (st.get (env.junk [2]) parentInum) with mtime := env.time }
      let st ← st.put (encodeInode parentInode) parentInum
      let entries := decodeDirents (st.get (env.junk [3]) (asInt (parentInode.ptrs 0)))
      let entries ← clearDirent entries (bytesFrom filename 0)
      let st ← st.put (encodeDirents entries) (asInt (parentInode.ptrs 0))
      .ok (0, st)

/-- `fs_rmdir` (`fs5600.c:883-921`). -/
def fsRmdir (env : Env) (path : List UInt8) (st : FsState) : Except Fault (Int × FsState) := do
  let fileInum ← pathToInum (env.call 0) st.disk path
  if fileInum < 0 then .ok (fileInum, st)
  else
    let fileInode := decodeInode (st.get (env.junk [0]) fileInum)
    if !sIsdir fileInode.mode then .ok (-enotdir, st)
    else
      let entries := decodeDirents (st.get (env.junk [1]) (asInt (fileInode.ptrs 0)))
      if (List.finRange 128).any fun i => (entries i).valid then .ok (-enotempty, st)
      else
        let st ← freeBlk st fileInum
        let st ← freeBlk st (asInt (fileInode.ptrs 0))
        let parentDir ← getParentPath 270 path
        let (_, filename) ← getLastFilename (env.call 1) path (env.bytes 27 2)
        let parentInum ← pathToInum (env.call 2) st.disk parentDir
        let parentInode :=
          { decodeInode (st.get (env.junk [3]) parentInum) with mtime := env.time }
        let parentEntries := decodeDirents (st.get (env.junk [4]) (asInt (parentInode.ptrs 0)))
        let parentEntries ← clearDirent parentEntries (bytesFrom filename 0)
        let st ← st.put (encodeDirents parentEntries) (asInt (parentInode.ptrs 0))
        let st ← st.put (encodeInode parentInode) parentInum
        .ok (0, st)

/-- `memcpy (data + off, bytes, ..)` in a block buffer. -/
def overlay (data : Block) (off : Nat) (bytes : List UInt8) : Block := fun k =>
  if k.val < off then data k else bytes.getD (k.val - off) (data k)

/-- The pointer of a block index in the loop of `fs_write`, allocated if it is missing
(`fs5600.c:982-987`). -/
def ensurePtr (inum : Int) (i : Fin 1019) (inode : Inode) (st : FsState) :
    Except Fault (Inode × FsState) :=
  if inode.ptrs i = 0 then do
    let (newBlk, st) := allocBlk st
    let inode := { inode with ptrs := Function.update inode.ptrs i (UInt32.ofInt newBlk) }
    let st ← st.put (encodeInode inode) inum
    .ok (inode, st)
  else .ok (inode, st)

/-- The loop of `fs_write` (`fs5600.c:969-999`). The guard is `wrote_len != len`, and `wrote_len`
never passes `len`. -/
def writeLoop (env : Env) (inum : Int) (buf : List UInt8) (wrote offset : Nat) (inode : Inode)
    (st : FsState) : Except Fault FsState :=
  if _h : wrote < buf.length then
    if hi : offset / 4096 < 1019 then do
      let n := normLen buf.length wrote offset
      let (inode, st) ← ensurePtr inum ⟨offset / 4096, hi⟩ inode st
      let data := st.get (env.junk [1, wrote]) (asInt (inode.ptrs ⟨offset / 4096, hi⟩))
      let data := overlay data (offset % 4096) ((buf.drop wrote).take n)
      let st ← st.put data (asInt (inode.ptrs ⟨offset / 4096, hi⟩))
      writeLoop env inum buf (wrote + n) (offset + n) inode st
    else .error .outOfBounds
  else .ok st
termination_by buf.length - wrote
decreasing_by
  have := normLen_pos offset _h
  omega

/-- The inode `fs_write` stores before its loop (`fs5600.c:944-953`): `len` and `inode.size` meet
in `size_t` arithmetic. -/
def growInode (env : Env) (inode : Inode) (len offset : Nat) : Inode :=
  let size :=
    if (offset : Int) = inode.size.toInt then Int32.ofInt (inode.size.toInt + len)
    else if ((offset + len : Nat) : Int) % 2 ^ 64 > inode.size.toInt % 2 ^ 64 ∧
        (offset : Int) < inode.size.toInt then
      Int32.ofInt (inode.size.toInt + (len - (inode.size.toInt - offset)))
    else inode.size
  { inode with size := size, mtime := env.time }

/-- `fs_write` (`fs5600.c:934-1002`) with `offset ≥ 0`. -/
def fsWrite (env : Env) (path buf : List UInt8) (offset : Nat) (st : FsState) :
    Except Fault (Int × FsState) := do
  let inum ← pathToInum (env.call 0) st.disk path
  if inum < 0 then .ok (inum, st)
  else
    let inode := decodeInode (st.get (env.junk [0]) inum)
    if sIsdir inode.mode then .ok (-eisdir, st)
    else if (offset : Int) > inode.size.toInt then .ok (-einval, st)
    else if (inode.size.toInt + buf.length) % 2 ^ 64 > 1019 * 4096 then .ok (-enospc, st)
    else
      let inode := growInode env inode buf.length offset
      let st ← st.put (encodeInode inode) inum
      let st ← writeLoop env inum buf 0 offset inode st
      .ok ((buf.length : Int).bmod (2 ^ 32), st)

/-- `fs_truncate` (`fs5600.c:1012-1041`). -/
def fsTruncate (env : Env) (path : List UInt8) (len : Int) (st : FsState) :
    Except Fault (Int × FsState) :=
  if len ≠ 0 then .ok (-einval, st)
  else do
    let inum ← pathToInum (env.call 0) st.disk path
    if inum < 0 then .ok (inum, st)
    else
      let inode := decodeInode (st.get (env.junk [0]) inum)
      if sIsdir inode.mode then .ok (-eisdir, st)
      else
        let st ← freePtrs inode (List.finRange 1019) st
        let inode := { inode with size := 0, mtime := env.time, ptrs := fun _ => 0 }
        let st ← st.put (encodeInode inode) inum
        .ok (0, st)

/-- `fs_utime` (`fs5600.c:1055-1069`); `ut` is `modtime` of the argument, `none` for `NULL`. -/
def fsUtime (env : Env) (path : List UInt8) (ut : Option UInt32) (st : FsState) :
    Except Fault (Int × FsState) := do
  let inum ← pathToInum (env.call 0) st.disk path
  if inum < 0 then .ok (inum, st)
  else
    let inode := decodeInode (st.get (env.junk [0]) inum)
    let st ← st.put (encodeInode { inode with mtime := ut.getD env.time }) inum
    .ok (0, st)

/-- A call through the operations vector `fs_ops` (`fs5600.c:1075-1092`), without the arguments
the operations ignore. -/
inductive Call where
  | create (path : List UInt8) (mode : UInt32)
  | mkdir (path : List UInt8) (mode : UInt32)
  | unlink (path : List UInt8)
  | rmdir (path : List UInt8)
  | rename (src dst : List UInt8)
  | write (path buf : List UInt8) (offset : Nat)
  | truncate (path : List UInt8) (len : Int)
  | chmod (path : List UInt8) (mode : UInt32)
  | utime (path : List UInt8) (ut : Option UInt32)
  | statfs (path : List UInt8)
  | getattr (path : List UInt8)
  | readdir (path : List UInt8)
  | read (path : List UInt8) (len offset : Nat)

/-- The return value of a call and the state after it. -/
def exec (env : Env) (st : FsState) : Call → Except Fault (Int × FsState)
  | .create path mode => fsCreate env path mode st
  | .mkdir path mode => fsMkdir env path mode st
  | .unlink path => fsUnlink env path st
  | .rmdir path => fsRmdir env path st
  | .rename src dst => fsRename env src dst st
  | .write path buf offset => fsWrite env path buf offset st
  | .truncate path len => fsTruncate env path len st
  | .chmod path mode => fsChmod env path mode st
  | .utime path ut => fsUtime env path ut st
  | .statfs _ => .ok (0, st)
  | .getattr path => (fsGetattr env path st).map fun r => (r.1, st)
  | .readdir path => (fsReaddir env path st).map fun r => (r.1, st)
  | .read path len offset => (fsRead env path len offset st).map fun r => (r.1, st)

end SystemsProjects.Fs5600
