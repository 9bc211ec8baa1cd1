import SystemsProjects.Fs5600.Disk
import SystemsProjects.Lib.CString

/-!
# Paths

The path functions of `fs5600.c`: `path_to_inum`, `get_last_filename`, `get_parent_path` and
`get_dirent_index`. A path is the byte list of a NUL-terminated string. The components go
through `filenames[10][27]`, one contiguous array of 270 bytes, and through the callers' buffers;
every store is checked against the array it goes to.
-/

namespace SystemsProjects.Fs5600
open SystemsProjects.Lib

/-- What a call takes from its surroundings: the clock, the caller's ids, and the bytes that
uninitialised stack memory happens to hold. `junk` is addressed by the call path and a number for
the local variable, so that no two locals are related. -/
structure Env where
  time : UInt32
  uid : UInt16
  gid : UInt16
  junk : List Nat → Block

/-- The surroundings of the `k`-th call a function makes. -/
def Env.call (env : Env) (k : Nat) : Env := { env with junk := fun l => env.junk (k :: l) }

/-- An uninitialised local array of `n` bytes. -/
def Env.bytes (env : Env) (n k : Nat) : Fin n → UInt8 := fun i =>
  env.junk [k] (Fin.ofNat 4096 i.val)

/-- A read or store that left its array. -/
def orFault {α : Type} : Option α → Except Fault α
  | some a => .ok a
  | none => .error .outOfBounds

-- `(rfl)` keeps `simp` from using these two up to unfolding, which the kernel then has to redo
theorem ok_bind {α β : Type} (a : α) (f : α → Except Fault β) : (Except.ok a >>= f) = f a := (rfl)

theorem error_bind {α β : Type} (e : Fault) (f : α → Except Fault β) :
    (Except.error e >>= f) = .error e := (rfl)

/-- The `uint32_t` to `int` conversion of a block number. -/
def asInt (n : UInt32) : Int := n.toInt32.toInt

/-- The character `/`. -/
def slash : UInt8 := 0x2f

/-- The tokenizing loop of `path_to_inum` (`fs5600.c:163-170`) and `get_last_filename`
(`fs5600.c:514-523`) over at most `left` further components: the name array, the number of
components stored, and whether the length test, which only the second has, stopped it. -/
def splitPath (tooLong : List UInt8 → Bool) : (left i : Nat) → List UInt8 →
    (Fin 270 → UInt8) → Except Fault ((Fin 270 → UInt8) × Nat × Bool)
  | 0, i, _, filenames => .ok (filenames, i, false)
  | left + 1, i, s, filenames =>
    match strtok slash s with
    | none => .ok (filenames, i, false)
    | some (token, rest) =>
      if tooLong token then .ok (filenames, i, true)
      else do
        let filenames ← orFault (strcpy filenames (27 * i) token)
        splitPath tooLong left (i + 1) rest filenames

/-- The scan of `get_dirent_index` over the slots that are left. -/
def direntIndexFrom (entries : Fin 128 → Dirent) (filename : List UInt8) :
    List (Fin 128) → Except Fault Int
  | [] => .ok (-enoent)
  | i :: is =>
    if (entries i).valid then do
      if ← orFault (strcmpEq (bytesFrom (entries i).name 0) filename) then .ok i.val
      else direntIndexFrom entries filename is
    else direntIndexFrom entries filename is

/-- `get_dirent_index` (`fs5600.c:814-826`): the first valid entry of that name. -/
def getDirentIndex (entries : Fin 128 → Dirent) (filename : List UInt8) : Except Fault Int :=
  direntIndexFrom entries filename (List.finRange 128)

/-- The walk of `path_to_inum` (`fs5600.c:181-193`) over the `left` components from row `i` of
`filenames` on. `inode`, `blockInum` and `entries` are the locals of the same names; a failed
read leaves the two buffers as they were. -/
def walk (d : Disk) (filenames : Fin 270 → UInt8) :
    (left i : Nat) → (inode : Block) → (blockInum : UInt32) → (entries : Block) →
      Except Fault Int
  | 0, _, _, blockInum, _ => .ok (asInt blockInum)
  | left + 1, i, inode, _, entries =>
    if !sIsdir (decodeInode inode).mode then .ok (-enotdir)
    else do
      let entries := (blockRead d entries (asInt ((decodeInode inode).ptrs 0))).1
      let k ← getDirentIndex (decodeDirents entries) (bytesFrom filenames (27 * i))
      if k < 0 then .ok k
      else
        let blockInum := UInt32.ofNat (decodeDirents entries (Fin.ofNat 128 k.toNat)).inode.toNat
        let inode := (blockRead d inode (asInt blockInum)).1
        walk d filenames left (i + 1) inode blockInum entries

/-- `path_to_inum` (`fs5600.c:156-197`). -/
def pathToInum (env : Env) (d : Disk) (path : List UInt8) : Except Fault Int :=
  if path = [slash] then .ok 2
  else do
    let (filenames, pathc, _) ← splitPath (fun _ => false) 10 0 path (env.bytes 270 0)
    let root := (blockRead d (env.junk [1]) 2).1
    if !sIsdir (decodeInode root).mode then .error .assertion
    else walk d filenames pathc 0 root ((decodeInode root).ptrs 0) (env.junk [2])

/-- `get_last_filename` (`fs5600.c:508-531`), which stores 27 bytes of its own 28-byte array into
the caller's `buf`. Without any component it reads before `filenames`. -/
def getLastFilename {n : Nat} (env : Env) (path : List UInt8) (buf : Fin n → UInt8) :
    Except Fault (Int × (Fin n → UInt8)) := do
  let (filenames, pathc, long) ←
    splitPath (fun token => decide (27 < token.length)) 10 0 path (env.bytes 270 0)
  if long then .ok (-einval, buf)
  else if pathc = 0 then .error .outOfBounds
  else
    let token ← orFault (cstr (bytesFrom filenames (27 * (pathc - 1))))
    let lastFilename ← orFault (strcpy (env.bytes 28 1) 0 token)
    let lastFilename := Function.update lastFilename 27 0
    .ok (0, fun k => if k.val < 27 then lastFilename (Fin.ofNat 28 k.val) else buf k)

/-- The loop of `get_parent_path` from index `i` down: characters are cut off up to and including
a slash, never the first character. -/
def cutLast (path : List UInt8) : Nat → List UInt8
  | 0 => path.take 1
  | i + 1 => if path[i + 1]? = some slash then path.take (i + 1) else cutLast path i

/-- `get_parent_path` (`fs5600.c:533-547`) into a buffer of `cap` bytes. -/
def getParentPath (cap : Nat) (path : List UInt8) : Except Fault (List UInt8) :=
  let p := cutLast path path.length
  if p.length + 1 ≤ cap then .ok p else .error .outOfBounds

end SystemsProjects.Fs5600
