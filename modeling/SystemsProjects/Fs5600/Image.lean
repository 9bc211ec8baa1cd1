import SystemsProjects.Fs5600.Create

/-!
# Two small images

The image `gen-disk.py` makes from `disk2.in`, for any number of blocks: an empty root directory
whose entries are in the last block. And the same image with one empty file `/a`. Both are well
formed.
-/

namespace SystemsProjects.Fs5600
open SystemsProjects.Lib

/-- The root directory of `disk2.in`, with its entries in block `table`. -/
def rootInode (table : Nat) : Inode :=
  { uid := 0, gid := 0, mode := 0o040777, ctime := 1565283152, mtime := 1565283167, size := 4096,
    ptrs := fun i => if i.val = 0 then UInt32.ofNat table else 0 }

/-- An entry that is not in use. -/
def noEntry : Dirent := { valid := false, inode := 0, name := fun _ => 0 }

/-- The bitmap of an empty file system. -/
def emptyBitmap (table : Nat) : Block :=
  bitSet (bitSet (bitSet (bitSet Block.zero 0) 1) 2) table

/-- An empty file system of `table + 1` blocks. -/
def emptyDisk (table : Nat) : Disk where
  data := fun n =>
    if n = 0 then encodeSuper { magic := fsMagic, diskSize := UInt32.ofNat (table + 1) }
    else if n = 1 then emptyBitmap table
    else if n = 2 then encodeInode (rootInode table)
    else if n = table then encodeDirents fun _ => noEntry
    else Block.zero
  len := max 3 (table + 1)
  hole := by
    intro n hn
    rw [if_neg (by omega), if_neg (by omega), if_neg (by omega), if_neg (by omega)]

/-- The state `fs_init` sets up on it. -/
def emptyState (table : Nat) : FsState :=
  { disk := emptyDisk table, numBlocks := UInt32.ofNat (table + 1),
    blockBitmap := emptyBitmap table }

section Empty
variable {table : Nat} (h3 : 3 ≤ table) (hlt : table < 32768)

theorem emptyState_marked (hlt : table < 32768) (x : Nat) :
    Marked (emptyState table) x ↔ x = 0 ∨ x = 1 ∨ x = 2 ∨ x = table := by
  have hzero : ∀ j, bitTest Block.zero j = false := by
    intro j
    simp [bitTest_eq, Block.zero]
  unfold Marked emptyState emptyBitmap
  constructor
  · rintro ⟨hx, ht⟩
    rw [bitTest_bitSet _ hlt hx, bitTest_bitSet _ (by omega) hx, bitTest_bitSet _ (by omega) hx,
      bitTest_bitSet _ (by omega) hx, hzero] at ht
    simp only [Bool.or_false, Bool.or_eq_true, decide_eq_true_eq] at ht
    omega
  · intro hx
    have hx' : x < 32768 := by omega
    refine ⟨hx', ?_⟩
    rw [bitTest_bitSet _ hlt hx', bitTest_bitSet _ (by omega) hx', bitTest_bitSet _ (by omega) hx',
      bitTest_bitSet _ (by omega) hx', hzero]
    simp only [Bool.or_false, Bool.or_eq_true, decide_eq_true_eq]
    omega

theorem emptyDisk_root (table : Nat) : inodeAt (emptyDisk table) 2 = rootInode table := by
  unfold inodeAt
  show decodeInode (encodeInode (rootInode table)) = _
  exact decodeInode_encodeInode _

theorem emptyDisk_isDir (table : Nat) : isDirAt (emptyDisk table) 2 = true := by
  unfold isDirAt
  rw [emptyDisk_root]
  show sIsdir 0o040777 = true
  decide

include hlt in
theorem emptyDisk_table : tableOf (emptyDisk table) 2 = table := by
  unfold tableOf
  rw [emptyDisk_root]
  show (UInt32.ofNat table).toNat = table
  rw [UInt32.toNat_ofNat']
  omega

include h3 hlt

theorem emptyDisk_entries : entriesAt (emptyDisk table) 2 = fun _ => noEntry := by
  have hdata : (emptyDisk table).data table = encodeDirents fun _ => noEntry := by
    show (if _ then _ else _) = _
    rw [if_neg (by omega), if_neg (by omega), if_neg (by omega), if_pos rfl]
  unfold entriesAt
  rw [emptyDisk_table hlt, hdata, decodeDirents_encodeDirents]

theorem emptyDisk_refs (l : Label) :
    refs (emptyDisk table) 2 l = if l = .table then some table else none := by
  cases l with
  | table => simp [refs, emptyDisk_isDir, emptyDisk_table hlt]
  | slot i => simp [refs, emptyDisk_entries h3 hlt, noEntry]
  | data i => simp [refs, emptyDisk_isDir]

theorem emptyDisk_live {n : Nat} (h : Live (emptyDisk table) n) : n = 2 := by
  induction h with
  | root => rfl
  | @step m b l hm hl hout ih =>
    subst ih
    rw [emptyDisk_refs h3 hlt] at hout
    cases l with
    | table => exact absurd hl id
    | slot i => simp at hout
    | data i => simp at hout

theorem emptyDisk_meets {r : Option (Nat × Label)} {x : Nat}
    (h : Meets Label.IsSlot 2 (refs (emptyDisk table)) r x) :
    (r = none ∧ x = 2) ∨ (r = some (2, .table) ∧ x = table) := by
  cases r with
  | none => exact .inl ⟨rfl, h⟩
  | some q =>
    obtain ⟨m, l⟩ := q
    obtain ⟨hm, hout⟩ := h
    obtain rfl := emptyDisk_live h3 hlt hm
    rw [emptyDisk_refs h3 hlt] at hout
    split_ifs at hout with hl
    subst hl
    exact .inr ⟨rfl, (Option.some.inj hout).symm⟩

theorem emptyState_wellFormed : WellFormed (emptyState table) where
  reserved := by
    simp [emptyState_marked hlt]
  root := emptyDisk_isDir table
  distinct := by
    intro r r' x hr hr'
    rcases emptyDisk_meets h3 hlt hr with ⟨rfl, rfl⟩ | ⟨rfl, rfl⟩ <;>
      rcases emptyDisk_meets h3 hlt hr' with ⟨rfl, hx⟩ | ⟨rfl, hx⟩
    · rfl
    · omega
    · omega
    · rfl
  used := by
    rintro x ⟨r, hr⟩
    have hlen : (emptyState table).disk.len = max 3 (table + 1) := rfl
    rw [emptyState_marked hlt, hlen]
    rcases emptyDisk_meets h3 hlt hr with ⟨-, rfl⟩ | ⟨-, rfl⟩ <;> omega
  dirs := by
    intro n hn _
    obtain rfl := emptyDisk_live h3 hlt hn
    show DirOk (entriesAt (emptyDisk table) 2)
    rw [emptyDisk_entries h3 hlt]
    exact ⟨fun i hi => by simp [noEntry] at hi, fun i j hi => by simp [noEntry] at hi⟩
  files := by
    intro n hn hfile
    obtain rfl := emptyDisk_live h3 hlt hn
    rw [show (emptyState table).disk = emptyDisk table from rfl, emptyDisk_isDir] at hfile
    exact absurd hfile (by simp)

theorem emptyState_inUse {x : Nat} : InUse (emptyState table).disk x ↔ x = 2 ∨ x = table := by
  constructor
  · rintro ⟨r, hr⟩
    rcases emptyDisk_meets h3 hlt hr with ⟨-, rfl⟩ | ⟨-, rfl⟩
    · exact .inl rfl
    · exact .inr rfl
  · rintro (rfl | rfl)
    · exact Reach.root.owned
    · have huse := Live.table_inUse (d := emptyDisk x) .root (emptyDisk_isDir x)
      rwa [emptyDisk_table hlt] at huse

end Empty

/-! ## One file -/

/-- The path `/a`. -/
def pathA : CanonPath where
  dirs := []
  last := [0x61]
  components := by
    intro c hc
    obtain rfl : c = [0x61] := by simpa using hc
    exact ⟨by decide, by decide, by decide, by decide⟩
  depth := by decide

/-- The path `/c` of one component. -/
def rootPath (c : List UInt8) (hc : Component c) : CanonPath where
  dirs := []
  last := c
  components := by
    intro c' hc'
    obtain rfl : c' = c := by simpa using hc'
    exact hc
  depth := Nat.zero_le 9

theorem component_b : Component [0x62] := ⟨by decide, by decide, by decide, by decide⟩

theorem component_c : Component [0x63] := ⟨by decide, by decide, by decide, by decide⟩

/-- The paths `/b` and `/c`. -/
def pathB : CanonPath := rootPath [0x62] component_b

def pathC : CanonPath := rootPath [0x63] component_c

/-- Surroundings in which the clock shows 0 and the stack holds zeros. -/
def quietEnv : Env := { time := 0, uid := 0, gid := 0, junk := fun _ => Block.zero }

/-- The entry of `/a`. -/
def entryA : Dirent :=
  { valid := true, inode := 3, name := fun k => if k.val = 0 then 0x61 else 0 }

/-- The empty file system after `fs_create ("/a", 0644)`. -/
def oneFile (table : Nat) : FsState :=
  (((emptyState table).take 3).write 3 (encodeInode (newFileInode quietEnv 0o644))).write table
    (encodeDirents (Function.update (fun _ => noEntry) 0 entryA))

theorem entryA_nameOf : entryA.nameOf = some pathA.last := by decide

theorem emptyState_readyIn {table : Nat} (h3 : 3 ≤ table) (hlt : table < 32768) :
    ReadyIn (emptyState table) pathA 2 where
  resolved := rfl
  dir := emptyDisk_isDir table
  absent := by
    unfold lookup
    rw [show (emptyState table).disk = emptyDisk table from rfl, emptyDisk_entries h3 hlt]
    simp [noEntry]

section OneFile
variable {table : Nat} (h4 : 4 ≤ table) (hlt : table < 32768)
include h4 hlt

theorem oneFile_placed :
    Placed (emptyState table) (oneFile table) 2 3 pathA.last none
      (newFileInode quietEnv 0o644) := by
  have htable : tableOf (emptyState table).disk 2 = table := emptyDisk_table hlt
  have hes : entriesAt (emptyState table).disk 2 = fun _ => noEntry :=
    emptyDisk_entries (by omega) hlt
  refine
    { live := .root, dir := emptyDisk_isDir table, apart := by simp, table := by simp,
      numBlocks := rfl, len := le_trans (le_max_left _ _) (le_max_left _ _), unmarked := ?_,
      inode := ?_, entry := ?_, marked := ?_, frame := ?_ }
  · rintro x (rfl | hx)
    · refine ⟨by rw [emptyState_marked hlt]; omega, le_rfl, ?_⟩
      simp only [oneFile, FsState.write_disk, Disk.lt_write_len]
      omega
    · simp at hx
  · unfold inodeAt oneFile
    rw [FsState.write_disk, Disk.write_ne _ _ (by omega), FsState.write_disk, Disk.write_same,
      decodeInode_encodeInode]
  · refine .inr ⟨0, entryA, by rw [hes]; rfl, rfl, rfl, entryA_nameOf, ?_⟩
    rw [htable, hes, oneFile, FsState.write_disk, Disk.write_same]
  · intro x
    rw [oneFile, FsState.marked_write, FsState.marked_write, FsState.marked_take _ (by omega)]
    simp
  · intro x hx _ hxt
    rw [htable] at hxt
    rw [oneFile, FsState.write_disk, Disk.write_ne _ _ hxt, FsState.write_disk,
      Disk.write_ne _ _ hx, FsState.take_disk]

theorem oneFile_wellFormed : WellFormed (oneFile table) :=
  (oneFile_placed h4 hlt).wellFormed (emptyState_wellFormed (by omega) hlt)
    (emptyState_readyIn (by omega) hlt).absent (newObject_file quietEnv _)

theorem oneFile_inode : inodeAt (oneFile table).disk 3 = newFileInode quietEnv 0o644 :=
  (oneFile_placed h4 hlt).inode

theorem oneFile_isDir : isDirAt (oneFile table).disk 3 = false := by
  unfold isDirAt
  rw [oneFile_inode h4 hlt]
  decide

theorem oneFile_isDir_root : isDirAt (oneFile table).disk 2 = true := by
  have hino := (oneFile_placed h4 hlt).inodeAt_parent
    (emptyState_wellFormed (by omega) hlt).toTreeOk
  unfold isDirAt
  rw [hino]
  exact emptyDisk_isDir table

theorem oneFile_entries :
    entriesAt (oneFile table).disk 2 = Function.update (fun _ => noEntry) 0 entryA := by
  have htable := (oneFile_placed h4 hlt).tableOf_parent
    (emptyState_wellFormed (by omega) hlt).toTreeOk
  unfold entriesAt
  rw [htable, show tableOf (emptyState table).disk 2 = table from emptyDisk_table hlt, oneFile,
    FsState.write_disk, Disk.write_same, decodeDirents_encodeDirents]

/-- `/a` is the file in block 3, through slot 0 of the root directory. -/
theorem oneFile_lookup : lookup (oneFile table).disk 2 pathA.last = some 0 := by
  have hes := oneFile_entries h4 hlt
  refine lookup_of_name ((oneFile_wellFormed h4 hlt).dirs 2 .root (oneFile_isDir_root h4 hlt)) ?_ ?_
  · rw [hes, Function.update_self]
    rfl
  · rw [hes, Function.update_self]
    exact entryA_nameOf

theorem oneFile_resolve : resolve (oneFile table).disk 2 pathA.comps = .ok 3 := by
  show resolve (oneFile table).disk 2 [pathA.last] = _
  simp only [resolve, oneFile_isDir_root h4 hlt, oneFile_lookup h4 hlt, oneFile_entries h4 hlt,
    Function.update_self, Bool.not_true, Bool.false_eq_true, if_false]
  rfl

theorem oneFile_pathA (env : Env) : pathToInum env (oneFile table).disk pathA.bytes = .ok 3 := by
  rw [pathA.pathToInum_eq (oneFile_wellFormed h4 hlt).toTreeOk, oneFile_resolve h4 hlt]
  rfl

end OneFile

/-- There is no `/b` beside `/a`. -/
theorem oneFile_readyIn : ReadyIn (oneFile 399) pathB 2 where
  resolved := rfl
  dir := oneFile_isDir_root (by omega) (by omega)
  absent := by
    unfold lookup
    rw [oneFile_entries (by omega) (by omega)]
    decide

end SystemsProjects.Fs5600
