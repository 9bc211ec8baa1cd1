import SystemsProjects.Fs5600.Ops
import SystemsProjects.Lib.Ownership

/-!
# The directory tree on the disk

An image seen as objects that refer to blocks: a directory refers to its entry block and, through
its valid entries, to the objects below it; a file refers to its data blocks. `WellFormed` is the
representation invariant of the file system: every block met on the walk from block 2 is met once,
is not one of the two reserved blocks, lies in the image and is marked in the bitmap, and every
directory and file on the walk is in order by itself.
-/

namespace SystemsProjects.Fs5600
open SystemsProjects.Lib

/-- The references of an inode: a directory's entry block `ptrs[0]`, the object behind one of its
entries, or a data block of a file. -/
inductive Label where
  | table
  | slot (i : Fin 128)
  | data (i : Fin 1019)
  deriving DecidableEq

/-- The references that lead to another inode. -/
def Label.IsSlot : Label → Prop
  | .slot _ => True
  | _ => False

/-- Block `n` as an inode. -/
def inodeAt (d : Disk) (n : Nat) : Inode := decodeInode (d.data n)

/-- Block `n` holds a directory inode. -/
def isDirAt (d : Disk) (n : Nat) : Bool := sIsdir (inodeAt d n).mode

/-- The entry block of directory `n`. -/
def tableOf (d : Disk) (n : Nat) : Nat := ((inodeAt d n).ptrs 0).toNat

/-- The entries of directory `n`. -/
def entriesAt (d : Disk) (n : Nat) : Fin 128 → Dirent := decodeDirents (d.data (tableOf d n))

/-- The name in a directory entry, if it is terminated within its 28 bytes. -/
def Dirent.nameOf (e : Dirent) : Option (List UInt8) := cstr (bytesFrom e.name 0)

/-- The blocks inode `n` refers to. -/
def refs (d : Disk) (n : Nat) : Label → Option Nat
  | .table => if isDirAt d n then some (tableOf d n) else none
  | .slot i =>
    if isDirAt d n && (entriesAt d n i).valid then some (entriesAt d n i).inode.toNat else none
  | .data i =>
    if !isDirAt d n && (inodeAt d n).ptrs i != 0 then some ((inodeAt d n).ptrs i).toNat else none

/-- The inodes met on the walk from block 2 through the valid entries. -/
abbrev Live (d : Disk) (n : Nat) : Prop := Reach Label.IsSlot 2 (refs d) n

/-- The blocks met on the walk: directory inodes, their entry blocks, file inodes and the nonzero
pointers of files. -/
abbrev InUse (d : Disk) (b : Nat) : Prop := Owned Label.IsSlot 2 (refs d) b

/-- Block `b` has a bit in `block_bitmap`, and it is set. -/
def Marked (st : FsState) (b : Nat) : Prop := b < 32768 ∧ bitTest st.blockBitmap b = true

/-- What a directory promises about its entries: terminated names, each used once. -/
structure DirOk (es : Fin 128 → Dirent) : Prop where
  named : ∀ i, (es i).valid → (es i).nameOf ≠ none
  unique : ∀ i j, (es i).valid → (es j).valid → (es i).nameOf = (es j).nameOf → i = j

/-- Changing one entry: if it is valid afterwards, its name is terminated and new. -/
theorem DirOk.update {es : Fin 128 → Dirent} (hok : DirOk es) (i : Fin 128) {e : Dirent}
    (he : e.valid = true → e.nameOf ≠ none ∧ ∀ j, (es j).valid = true → (es j).nameOf ≠ e.nameOf) :
    DirOk (Function.update es i e) := by
  constructor
  · intro j hj
    by_cases hji : j = i
    · subst hji
      simp only [Function.update_self] at hj ⊢
      exact (he hj).1
    · simp only [Function.update_of_ne hji] at hj ⊢
      exact hok.named j hj
  · intro j k hj hk heq
    by_cases hji : j = i <;> by_cases hki : k = i
    · rw [hji, hki]
    · subst hji
      simp only [Function.update_self, Function.update_of_ne hki] at hj hk heq
      exact absurd heq.symm ((he hj).2 k hk)
    · subst hki
      simp only [Function.update_self, Function.update_of_ne hji] at hj hk heq
      exact absurd heq ((he hk).2 j hj)
    · simp only [Function.update_of_ne hji, Function.update_of_ne hki] at hj hk heq
      exact hok.unique j k hj hk heq

/-- What a file promises about its size and pointers. -/
structure FileOk (ino : Inode) : Prop where
  nonneg : 0 ≤ ino.size.toInt
  le : ino.size.toInt ≤ 1019 * 4096
  ptrs : ∀ i : Fin 1019, (i.val * 4096 : Int) < ino.size.toInt → ino.ptrs i ≠ 0

/-- The part of the invariant that does not speak about file sizes. -/
structure TreeOk (st : FsState) : Prop where
  reserved : Marked st 0 ∧ Marked st 1 ∧ Marked st 2
  root : isDirAt st.disk 2 = true
  distinct : Unshared Label.IsSlot 2 (refs st.disk)
  used : ∀ b, InUse st.disk b → b ≠ 0 ∧ b ≠ 1 ∧ Marked st b ∧ b < st.disk.len
  dirs : ∀ n, Live st.disk n → isDirAt st.disk n = true → DirOk (entriesAt st.disk n)

/-- A well-formed image under a bitmap. -/
structure WellFormed (st : FsState) : Prop extends TreeOk st where
  files : ∀ n, Live st.disk n → isDirAt st.disk n = false → FileOk (inodeAt st.disk n)

/-! ## References -/

section
variable {d : Disk} {n m b : Nat}

theorem refs_table (h : isDirAt d n = true) : refs d n .table = some (tableOf d n) := by
  simp [refs, h]

theorem refs_slot {i : Fin 128} (h : isDirAt d n = true) (hv : (entriesAt d n i).valid = true) :
    refs d n (.slot i) = some (entriesAt d n i).inode.toNat := by
  simp [refs, h, hv]

theorem refs_data {i : Fin 1019} (h : isDirAt d n = false) (hp : (inodeAt d n).ptrs i ≠ 0) :
    refs d n (.data i) = some ((inodeAt d n).ptrs i).toNat := by
  simp [refs, h, hp]

theorem Live.table_inUse (hn : Live d n) (h : isDirAt d n = true) : InUse d (tableOf d n) :=
  hn.owned_out (refs_table h)

theorem Live.slot_live {i : Fin 128} (hn : Live d n) (h : isDirAt d n = true)
    (hv : (entriesAt d n i).valid = true) : Live d (entriesAt d n i).inode.toNat :=
  .step (l := .slot i) hn trivial (refs_slot h hv)

theorem Live.data_inUse {i : Fin 1019} (hn : Live d n) (h : isDirAt d n = false)
    (hp : (inodeAt d n).ptrs i ≠ 0) : InUse d ((inodeAt d n).ptrs i).toNat :=
  hn.owned_out (refs_data h hp)

/-- A live inode is met by the root or by an entry. -/
theorem Live.meets (hn : Live d n) : ∃ r, Meets Label.IsSlot 2 (refs d) r n ∧
    (r = none ∨ ∃ m i, r = some (m, .slot i)) := by
  cases hn with
  | root => exact ⟨none, rfl, .inl rfl⟩
  | @step m _ l hm hl hout =>
    cases l with
    | slot i => exact ⟨some (m, .slot i), ⟨hm, hout⟩, .inr ⟨m, i, rfl⟩⟩
    | table => exact absurd hl (by simp [Label.IsSlot])
    | data i => exact absurd hl (by simp [Label.IsSlot])

end

namespace TreeOk
variable {st : FsState} {n m b : Nat} (ok : TreeOk st)
include ok

theorem lt (h : InUse st.disk b) : b < 32768 := (ok.used b h).2.2.1.1

theorem lt_len (h : InUse st.disk b) : b < st.disk.len := (ok.used b h).2.2.2

theorem pos (h : InUse st.disk b) : 0 < b := by
  have := (ok.used b h).1
  omega

/-- Every block in use is at least 2. -/
theorem two_le (h : InUse st.disk b) : 2 ≤ b := by
  have h0 := (ok.used b h).1
  have h1 := (ok.used b h).2.1
  omega

/-- An inode is no entry block. -/
theorem live_ne_table (hn : Live st.disk n) (hm : Live st.disk m) (h : isDirAt st.disk m = true) :
    n ≠ tableOf st.disk m := by
  rintro rfl
  obtain ⟨r, hr, hroot | ⟨m', i, hslot⟩⟩ := hn.meets
  · have := ok.distinct r (some (m, .table)) _ hr ⟨hm, refs_table h⟩
    simp [hroot] at this
  · have := ok.distinct r (some (m, .table)) _ hr ⟨hm, refs_table h⟩
    simp [hslot] at this

/-- An inode is no data block. -/
theorem live_ne_data (hn : Live st.disk n) (hm : Live st.disk m) (h : isDirAt st.disk m = false)
    {i : Fin 1019} (hp : (inodeAt st.disk m).ptrs i ≠ 0) :
    n ≠ ((inodeAt st.disk m).ptrs i).toNat := by
  rintro rfl
  obtain ⟨r, hr, hroot | ⟨m', i', hslot⟩⟩ := hn.meets
  · have := ok.distinct r (some (m, .data i)) _ hr ⟨hm, refs_data h hp⟩
    simp [hroot] at this
  · have := ok.distinct r (some (m, .data i)) _ hr ⟨hm, refs_data h hp⟩
    simp [hslot] at this

/-- Directories do not share entry blocks. -/
theorem table_inj (hn : Live st.disk n) (h : isDirAt st.disk n = true) (hm : Live st.disk m)
    (h' : isDirAt st.disk m = true) (he : tableOf st.disk n = tableOf st.disk m) : n = m := by
  have := ok.distinct (some (n, .table)) (some (m, .table)) _ ⟨hn, refs_table h⟩
    ⟨hm, by rw [refs_table h', he]⟩
  simpa using this

/-- An entry block is no data block. -/
theorem table_ne_data (hn : Live st.disk n) (h : isDirAt st.disk n = true) (hm : Live st.disk m)
    (h' : isDirAt st.disk m = false) {i : Fin 1019} (hp : (inodeAt st.disk m).ptrs i ≠ 0) :
    tableOf st.disk n ≠ ((inodeAt st.disk m).ptrs i).toNat := by
  intro he
  have := ok.distinct (some (n, .table)) (some (m, .data i)) _ ⟨hn, refs_table h⟩
    ⟨hm, by rw [refs_data h' hp, he]⟩
  simp at this

/-- Data blocks are not shared. -/
theorem data_inj (hn : Live st.disk n) (h : isDirAt st.disk n = false) (hm : Live st.disk m)
    (h' : isDirAt st.disk m = false) {i j : Fin 1019} (hp : (inodeAt st.disk n).ptrs i ≠ 0)
    (hp' : (inodeAt st.disk m).ptrs j ≠ 0)
    (he : ((inodeAt st.disk n).ptrs i).toNat = ((inodeAt st.disk m).ptrs j).toNat) :
    n = m ∧ i = j := by
  have := ok.distinct (some (n, .data i)) (some (m, .data j)) _ ⟨hn, refs_data h hp⟩
    ⟨hm, by rw [refs_data h' hp', he]⟩
  simpa using this

end TreeOk

end SystemsProjects.Fs5600
