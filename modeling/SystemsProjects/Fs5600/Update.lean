import SystemsProjects.Fs5600.Resolve
import SystemsProjects.Lib.FirstFit

/-!
# What a change of the disk does to the tree

The changes the operations make, each with the inodes and the blocks in use afterwards and the
invariant it keeps: a change that leaves every reference alone, a new entry for a childless
object, the removal of an entry, and a change of a file's pointers.
-/

namespace SystemsProjects.Fs5600
open SystemsProjects.Lib

/-! ## One block, one bit -/

/-- The state after a block write. -/
def FsState.write (st : FsState) (n : Nat) (b : Block) : FsState :=
  { st with disk := st.disk.write n b }

/-- The state after `alloc_blk` returned `b`. -/
def FsState.take (st : FsState) (b : Nat) : FsState :=
  { st with blockBitmap := bitSet st.blockBitmap b }

/-- The state after `free_blk (b)`. -/
def FsState.release (st : FsState) (b : Nat) : FsState :=
  { st with blockBitmap := bitClear st.blockBitmap b }

section
variable (st : FsState)

@[simp] theorem FsState.write_disk (n : Nat) (b : Block) :
    (st.write n b).disk = st.disk.write n b := rfl

@[simp] theorem FsState.take_disk (b : Nat) : (st.take b).disk = st.disk := rfl

@[simp] theorem FsState.release_disk (b : Nat) : (st.release b).disk = st.disk := rfl

theorem FsState.marked_congr {st st' : FsState} (h : st'.blockBitmap = st.blockBitmap) (x : Nat) :
    Marked st' x ↔ Marked st x := by
  unfold Marked
  rw [h]

/-- The marks determine the bitmap. -/
theorem blockBitmap_eq_iff {st st' : FsState} :
    st'.blockBitmap = st.blockBitmap ↔ ∀ x, Marked st' x ↔ Marked st x := by
  refine ⟨FsState.marked_congr, fun h => ?_⟩
  refine bitmap_ext fun j hj => ?_
  have hiff := h j
  unfold Marked at hiff
  rw [Bool.eq_iff_iff]
  simpa [hj] using hiff

theorem FsState.write_comm {n m : Nat} (b c : Block) (h : n ≠ m) :
    (st.write n b).write m c = (st.write m c).write n b := by
  simp only [FsState.write, Disk.write_comm _ b c h]

@[simp] theorem FsState.marked_write (n x : Nat) (b : Block) :
    Marked (st.write n b) x ↔ Marked st x := Iff.rfl

theorem FsState.marked_take {b x : Nat} (hb : b < 32768) :
    Marked (st.take b) x ↔ Marked st x ∨ x = b := by
  unfold Marked FsState.take
  constructor
  · rintro ⟨hx, ht⟩
    rw [bitTest_bitSet _ hb hx] at ht
    by_cases h : x = b
    · exact .inr h
    · exact .inl ⟨hx, by simpa [h] using ht⟩
  · rintro (⟨hx, ht⟩ | rfl)
    · exact ⟨hx, by rw [bitTest_bitSet _ hb hx, ht, Bool.or_true]⟩
    · exact ⟨hb, by simp [bitTest_bitSet _ hb hb]⟩

theorem FsState.marked_release {b x : Nat} (hb : b < 32768) :
    Marked (st.release b) x ↔ Marked st x ∧ x ≠ b := by
  unfold Marked FsState.release
  constructor
  · rintro ⟨hx, ht⟩
    rw [bitTest_bitClear _ hb hx] at ht
    simp only [Bool.and_eq_true, Bool.not_eq_true', decide_eq_false_iff_not] at ht
    exact ⟨⟨hx, ht.2⟩, ht.1⟩
  · rintro ⟨⟨hx, ht⟩, hne⟩
    exact ⟨hx, by simp [bitTest_bitClear _ hb hx, ht, hne]⟩

theorem FsState.put_of_lt {n : Nat} (b : Block) (h0 : 0 < n) (h : n < 32768) :
    st.put b n = .ok (st.write n b) := by
  unfold FsState.put
  rw [blockWrite_of_lt st.disk b h0 h]
  rfl

-- stated for an arbitrary `lba`: at a numeral the kernel would compute the byte offset
theorem FsState.get_eq (junk : Block) (lba : Int) :
    st.get junk lba = (blockRead st.disk junk lba).1 := rfl

theorem FsState.get_of_lt {n : Nat} (junk : Block) (h : n < 32768) (hlen : n < st.disk.len) :
    st.get junk n = st.disk.data n := by
  rw [st.get_eq, blockRead_of_lt junk h hlen]

/-- A block in use is read whatever the buffer held. -/
theorem TreeOk.get_inUse {st : FsState} (ok : TreeOk st) {n : Nat} (h : InUse st.disk n)
    (junk : Block) : st.get junk n = st.disk.data n := st.get_of_lt junk (ok.lt h) (ok.lt_len h)

/-- The entry block of a directory, read into any buffer. -/
theorem TreeOk.get_entries {st : FsState} (ok : TreeOk st) {n : Nat} (hn : Live st.disk n)
    (hdir : isDirAt st.disk n = true) (junk : Block) :
    decodeDirents (st.get junk (tableOf st.disk n)) = entriesAt st.disk n := by
  rw [ok.get_inUse (hn.table_inUse hdir)]
  rfl

end

theorem put_enospc (st : FsState) (b : Block) : st.put b (-enospc) = .error .assertion := by
  unfold FsState.put
  rw [blockWrite_enospc]
  rfl

/-! ## Fresh blocks -/

/-- The block numbers with a clear bit. -/
def FsState.unmarked (st : FsState) : Finset Nat :=
  (Finset.range 32768).filter fun b => bitTest st.blockBitmap b = false

section Unmarked
variable {st : FsState} {b : Nat}

theorem FsState.mem_unmarked : b ∈ st.unmarked ↔ b < 32768 ∧ ¬ Marked st b := by
  unfold FsState.unmarked Marked
  rw [Finset.mem_filter, Finset.mem_range]
  constructor
  · rintro ⟨hb, ht⟩
    exact ⟨hb, fun h => by simp [h.2] at ht⟩
  · rintro ⟨hb, ht⟩
    exact ⟨hb, by simpa [hb] using ht⟩

theorem FsState.marked_iff_notMem : Marked st b ↔ b < 32768 ∧ b ∉ st.unmarked := by
  rw [FsState.mem_unmarked]
  constructor
  · exact fun h => ⟨h.1, fun hno => hno.2 h⟩
  · intro h
    by_contra hno
    exact h.2 ⟨h.1, hno⟩

theorem FsState.unmarked_congr {st st' : FsState} (h : st'.blockBitmap = st.blockBitmap) :
    st'.unmarked = st.unmarked := by
  unfold FsState.unmarked
  rw [h]

@[simp] theorem FsState.unmarked_write (n : Nat) (x : Block) :
    (st.write n x).unmarked = st.unmarked := rfl

theorem FsState.unmarked_take (hb : b < 32768) : (st.take b).unmarked = st.unmarked.erase b := by
  ext x
  rw [Finset.mem_erase, FsState.mem_unmarked, FsState.mem_unmarked, st.marked_take hb]
  tauto

theorem FsState.firstFit_take (hb : b < 32768) (hmin : ∀ y ∈ st.unmarked, b ≤ y) :
    FirstFit st.unmarked (st.take b).unmarked := by
  rw [FsState.unmarked_take hb]
  exact FirstFit.erase_min hmin

/-- `alloc_blk` takes the first unmarked block, if there is one. -/
theorem FsState.allocBlk_unmarked (st : FsState) :
    (∃ b ∈ st.unmarked, (∀ y ∈ st.unmarked, b ≤ y) ∧ allocBlk st = ((b : Int), st.take b)) ∨
    (st.unmarked = ∅ ∧ allocBlk st = (-enospc, st)) := by
  rcases allocBlk_cases st with ⟨b, hb, hclear, hmin, halloc⟩ | ⟨hfull, halloc⟩
  · refine .inl ⟨b, Finset.mem_filter.mpr ⟨Finset.mem_range.mpr hb, hclear⟩, ?_, halloc⟩
    intro y hy
    by_contra hlt
    have := (Finset.mem_filter.mp hy).2
    simp [hmin y (by omega)] at this
  · refine .inr ⟨Finset.filter_eq_empty_iff.mpr ?_, halloc⟩
    intro j hj
    simp [hfull j (Finset.mem_range.mp hj)]

/-- An unmarked block is not in use. -/
theorem TreeOk.fresh (ok : TreeOk st) (h : ¬ Marked st b) : 3 ≤ b ∧ ¬ InUse st.disk b := by
  have hno : ∀ x, Marked st x → x ≠ b := fun x hx he => h (he ▸ hx)
  have h0 := hno 0 ok.reserved.1
  have h1 := hno 1 ok.reserved.2.1
  have h2 := hno 2 ok.reserved.2.2
  exact ⟨by omega, fun hu => hno b (ok.used b hu).2.2.1 rfl⟩

end Unmarked

/-! ## The object a call works on -/

/-- How the calls on an existing object begin: the path is resolved and the inode read. -/
def withInode (env : Env) (path : List UInt8) (st : FsState)
    (k : Int → Inode → Except Fault (Int × FsState)) : Except Fault (Int × FsState) := do
  let inum ← pathToInum (env.call 0) st.disk path
  if inum < 0 then .ok (inum, st)
  else k inum (decodeInode (st.get (env.junk [0]) inum))

/-- A path that does not resolve ends the call with nothing changed. -/
theorem TreeOk.withInode_cases {st : FsState} (ok : TreeOk st) (env : Env) (p : CanonPath) :
    (∃ e, resolve st.disk 2 p.comps = .error e ∧ (e = -enoent ∨ e = -enotdir) ∧
      ∀ k, withInode env p.bytes st k = .ok (e, st)) ∨
    ∃ b, resolve st.disk 2 p.comps = .ok b ∧ Live st.disk b ∧
      ∀ k, withInode env p.bytes st k = k b (inodeAt st.disk b) := by
  have hpath := p.pathToInum_eq ok (env.call 0)
  cases hres : resolve st.disk 2 p.comps with
  | error e =>
    have he := codeOf_error_neg hres
    rw [hres] at hpath
    refine .inl ⟨e, rfl, resolve_error hres, fun k => ?_⟩
    simp only [withInode, hpath, bind, Except.bind, codeOf]
    rw [if_pos he]
  | ok b =>
    have hb : Live st.disk b := resolve_live .root hres
    rw [hres] at hpath
    refine .inr ⟨b, rfl, hb, fun k => ?_⟩
    simp only [withInode, hpath, bind, Except.bind, codeOf]
    rw [if_neg (by omega), ok.get_inUse hb.owned]
    rfl

/-! ## Objects that stay as they are -/

/-- The inode `n` and, for a directory, its entry block are the same on both disks. -/
def SameNode (d d' : Disk) (n : Nat) : Prop :=
  d'.data n = d.data n ∧ (isDirAt d n = true → d'.data (tableOf d n) = d.data (tableOf d n))

section SameNode
variable {d d' : Disk} {n : Nat}

theorem SameNode.inodeAt (h : SameNode d d' n) : inodeAt d' n = inodeAt d n := by
  unfold Fs5600.inodeAt
  rw [h.1]

theorem SameNode.isDirAt (h : SameNode d d' n) : isDirAt d' n = isDirAt d n := by
  unfold Fs5600.isDirAt
  rw [h.inodeAt]

theorem SameNode.entriesAt (h : SameNode d d' n) (hdir : Fs5600.isDirAt d n = true) :
    entriesAt d' n = entriesAt d n := by
  have htable : tableOf d' n = tableOf d n := by unfold tableOf; rw [h.inodeAt]
  unfold Fs5600.entriesAt
  rw [htable, h.2 hdir]

theorem SameNode.refs (h : SameNode d d' n) : refs d' n = refs d n := by
  funext l
  cases hdir : Fs5600.isDirAt d n with
  | true =>
    have htable : tableOf d' n = tableOf d n := by unfold tableOf; rw [h.inodeAt]
    cases l <;> simp [Fs5600.refs, h.isDirAt, hdir, htable, h.entriesAt hdir]
  | false => cases l <;> simp [Fs5600.refs, h.isDirAt, hdir, h.inodeAt]

/-- A directory that stays as it is stays in order. -/
theorem SameNode.dirOk (h : SameNode d d' n) (hdir : Fs5600.isDirAt d' n = true)
    (hok : Fs5600.isDirAt d n = true → DirOk (Fs5600.entriesAt d n)) :
    DirOk (Fs5600.entriesAt d' n) := by
  have hdir := h.isDirAt.symm.trans hdir
  rw [h.entriesAt hdir]
  exact hok hdir

/-- A file that stays as it is keeps its promise. -/
theorem SameNode.fileOk (h : SameNode d d' n) (hfile : Fs5600.isDirAt d' n = false)
    (hok : Fs5600.isDirAt d n = false → FileOk (Fs5600.inodeAt d n)) :
    FileOk (Fs5600.inodeAt d' n) := by
  rw [h.inodeAt]
  exact hok (h.isDirAt.symm.trans hfile)

theorem isDirAt_of_refs (h : Fs5600.refs d' n = Fs5600.refs d n) :
    Fs5600.isDirAt d' n = Fs5600.isDirAt d n := by
  have ht := congrFun h .table
  simp only [Fs5600.refs] at ht
  cases h1 : Fs5600.isDirAt d' n <;> cases h2 : Fs5600.isDirAt d n <;> simp [h1, h2] at ht ⊢

end SameNode

/-! ## Writes to one block of the tree -/

namespace TreeOk
variable {st : FsState} {n m : Nat} {b : Block} (ok : TreeOk st)
include ok

/-- Writing an inode leaves the other objects alone. -/
theorem sameNode_write_inode (hn : Live st.disk n) (hm : Live st.disk m) (hne : m ≠ n) :
    SameNode st.disk (st.disk.write n b) m :=
  ⟨st.disk.write_ne b hne, fun hdir => st.disk.write_ne b (ok.live_ne_table hn hm hdir).symm⟩

/-- Writing an entry block leaves the other objects alone. -/
theorem sameNode_write_table (hn : Live st.disk n) (hdir : isDirAt st.disk n = true)
    (hm : Live st.disk m) (hne : m ≠ n) :
    SameNode st.disk (st.disk.write (tableOf st.disk n) b) m :=
  ⟨st.disk.write_ne b (ok.live_ne_table hm hn hdir),
    fun hdir' => st.disk.write_ne b fun he => hne (ok.table_inj hm hdir' hn hdir he)⟩

/-- Writing a data block leaves every object alone. -/
theorem sameNode_write_data (hn : Live st.disk n) (hfile : isDirAt st.disk n = false)
    {i : Fin 1019} (hp : (inodeAt st.disk n).ptrs i ≠ 0) (hm : Live st.disk m) :
    SameNode st.disk (st.disk.write ((inodeAt st.disk n).ptrs i).toNat b) m :=
  ⟨st.disk.write_ne b (ok.live_ne_data hm hn hfile hp),
    fun hdir => st.disk.write_ne b (ok.table_ne_data hm hdir hn hfile hp)⟩

end TreeOk

/-! ## Changes that keep every reference -/

section KeepRefs
variable {st st' : FsState}

theorem live_of_refs (h : ∀ n, Live st.disk n → refs st'.disk n = refs st.disk n) {n : Nat} :
    Live st'.disk n ↔ Live st.disk n :=
  reach_congr fun n hn l _ => by rw [h n hn]

theorem inUse_of_refs (h : ∀ n, Live st.disk n → refs st'.disk n = refs st.disk n) {b : Nat} :
    InUse st'.disk b ↔ InUse st.disk b :=
  exists_congr fun _ => meets_congr fun n hn l => by rw [h n hn]

/-- A change that keeps the references of every object keeps the invariant if the directories
stay in order and no block in use loses its mark. -/
theorem TreeOk.of_refs (ok : TreeOk st)
    (h : ∀ n, Live st.disk n → refs st'.disk n = refs st.disk n)
    (hdirs : ∀ n, Live st.disk n → isDirAt st.disk n = true → DirOk (entriesAt st'.disk n))
    (hmark : ∀ b, b = 0 ∨ b = 1 ∨ InUse st.disk b → Marked st' b)
    (hlen : st.disk.len ≤ st'.disk.len) : TreeOk st' where
  reserved :=
    ⟨hmark 0 (.inl rfl), hmark 1 (.inr (.inl rfl)), hmark 2 (.inr (.inr Reach.root.owned))⟩
  root := (isDirAt_of_refs (h 2 .root)).trans ok.root
  distinct := ok.distinct.mono fun r b hr => (meets_congr fun n hn l => by rw [h n hn]).mp hr
  used := by
    intro b hb
    have hb := (inUse_of_refs h).mp hb
    exact ⟨(ok.used b hb).1, (ok.used b hb).2.1, hmark b (.inr (.inr hb)),
      lt_of_lt_of_le (ok.lt_len hb) hlen⟩
  dirs := by
    intro n hn hdir
    have hn := (live_of_refs h).mp hn
    exact hdirs n hn ((isDirAt_of_refs (h n hn)).symm.trans hdir)

/-- Blocks written outside the inodes and entry blocks do not matter to the invariant. -/
theorem TreeOk.of_sameNode (ok : TreeOk st)
    (h : ∀ n, Live st.disk n → SameNode st.disk st'.disk n)
    (hmark : ∀ b, b = 0 ∨ b = 1 ∨ InUse st.disk b → Marked st' b)
    (hlen : st.disk.len ≤ st'.disk.len) : TreeOk st' :=
  ok.of_refs (fun n hn => (h n hn).refs)
    (fun n hn hdir => by rw [(h n hn).entriesAt hdir]; exact ok.dirs n hn hdir) hmark hlen

theorem WellFormed.of_sameNode (wf : WellFormed st)
    (h : ∀ n, Live st.disk n → SameNode st.disk st'.disk n)
    (hmark : ∀ b, b = 0 ∨ b = 1 ∨ InUse st.disk b → Marked st' b)
    (hlen : st.disk.len ≤ st'.disk.len) : WellFormed st' where
  toTreeOk := wf.toTreeOk.of_sameNode h hmark hlen
  files := by
    intro n hn hfile
    have hn := (live_of_refs fun n hn => (h n hn).refs).mp hn
    rw [(h n hn).inodeAt]
    exact wf.files n hn ((h n hn).isDirAt.symm.trans hfile)

theorem TreeOk.marked_reserved (ok : TreeOk st) {b : Nat} (h : b = 0 ∨ b = 1 ∨ InUse st.disk b) :
    Marked st b := by
  rcases h with rfl | rfl | h
  · exact ok.reserved.1
  · exact ok.reserved.2.1
  · exact (ok.used b h).2.2.1

theorem sameNode_write {n m : Nat} (h : ¬ InUse st.disk n) (b : Block) (hm : Live st.disk m) :
    SameNode st.disk (st.write n b).disk m := by
  have hkeep : ∀ x, InUse st.disk x → (st.write n b).disk.data x = st.disk.data x := by
    rintro x hx
    exact Disk.write_ne _ _ fun he => h (he ▸ hx)
  exact ⟨hkeep m hm.owned, fun hdir => hkeep _ (hm.table_inUse hdir)⟩

/-- A block that is not in use may hold anything. -/
theorem WellFormed.write_unused (wf : WellFormed st) {n : Nat} (h : ¬ InUse st.disk n) (b : Block) :
    WellFormed (st.write n b) :=
  wf.of_sameNode (fun _ hm => sameNode_write h b hm)
    (fun _ hx => wf.toTreeOk.marked_reserved hx) (le_max_left _ _)

end KeepRefs

/-! ## A new entry -/

/-- `st'` is `st` with a new entry: slot `i` of directory `n` names the new object `b` `c`. The
object has no entries of its own and refers to at most one block, its entry block `tbl`. -/
structure LinkStep (st st' : FsState) (n b : Nat) (i : Fin 128) (c : List UInt8)
    (tbl : Option Nat) : Prop where
  live : Live st.disk n
  dir : isDirAt st.disk n = true
  free : (entriesAt st.disk n i).valid = false
  absent : lookup st.disk n c = none
  fresh : ∀ x, x = b ∨ tbl = some x → ¬ InUse st.disk x ∧ x ≠ 0 ∧ x ≠ 1 ∧ x < st'.disk.len
  apart : tbl ≠ some b
  same : ∀ m, Live st.disk m → m ≠ n → SameNode st.disk st'.disk m
  inode : inodeAt st'.disk n = inodeAt st.disk n
  entry : ∃ e : Dirent, e.valid = true ∧ e.inode.toNat = b ∧ e.nameOf = some c ∧
    entriesAt st'.disk n = Function.update (entriesAt st.disk n) i e
  object : ∀ l, refs st'.disk b l = if l = .table then tbl else none
  entries : ∀ j, isDirAt st'.disk b = true → (entriesAt st'.disk b j).valid = false
  file : isDirAt st'.disk b = false → (inodeAt st'.disk b).size = 0
  mark : ∀ x, x = 0 ∨ x = 1 ∨ InUse st.disk x ∨ x = b ∨ tbl = some x → Marked st' x
  len : st.disk.len ≤ st'.disk.len

namespace LinkStep
variable {st st' : FsState} {n b : Nat} {i : Fin 128} {c : List UInt8} {tbl : Option Nat}
  (h : LinkStep st st' n b i c tbl)
include h

theorem isDir_n : isDirAt st'.disk n = true := by
  unfold isDirAt
  rw [h.inode]
  exact h.dir

theorem refs_slot_i : refs st'.disk n (.slot i) = some b := by
  obtain ⟨e, hv, hi, -, hes⟩ := h.entry
  rw [refs_slot h.isDir_n (by rw [hes, Function.update_self, hv]), hes, Function.update_self, hi]

theorem refs_other {m : Nat} (hm : Live st.disk m) {l : Label} (hne : (m, l) ≠ (n, .slot i)) :
    refs st'.disk m l = refs st.disk m l := by
  by_cases hmn : m = n
  · subst hmn
    obtain ⟨e, -, -, -, hes⟩ := h.entry
    have htable : tableOf st'.disk m = tableOf st.disk m := by unfold tableOf; rw [h.inode]
    cases l with
    | table => simp [refs, h.isDir_n, h.dir, htable]
    | data j => simp [refs, h.isDir_n, h.dir]
    | slot j =>
      have hji : j ≠ i := by rintro rfl; exact hne rfl
      simp [refs, h.isDir_n, h.dir, hes, hji]
  · rw [(h.same m hm hmn).refs]

theorem refs_slot_i_old : refs st.disk n (.slot i) = none := by
  simp [refs, h.free]

theorem childless : ∀ l : Label, l.IsSlot → refs st'.disk b l = none := by
  intro l hl
  rw [h.object l, if_neg]
  rintro rfl
  exact hl

theorem live_iff {m : Nat} : Live st'.disk m ↔ Live st.disk m ∨ m = b :=
  reach_link (l := Label.slot i) h.live trivial h.refs_slot_i_old h.refs_slot_i
    (fun _ hm _ hne => h.refs_other hm hne) h.childless

theorem meets_iff {r : Option (Nat × Label)} {x : Nat} :
    Meets Label.IsSlot 2 (refs st'.disk) r x ↔ Meets Label.IsSlot 2 (refs st.disk) r x ∨
      (r = some (n, .slot i) ∧ x = b) ∨ ∃ k, r = some (b, k) ∧ refs st'.disk b k = some x :=
  meets_link (l := Label.slot i) h.live trivial h.refs_slot_i_old h.refs_slot_i
    (fun _ hm _ hne => h.refs_other hm hne) h.childless

theorem object_eq_some {l : Label} {x : Nat} :
    refs st'.disk b l = some x ↔ l = .table ∧ tbl = some x := by
  rw [h.object l]
  split <;> simp_all

theorem inUse_iff {x : Nat} :
    InUse st'.disk x ↔ InUse st.disk x ∨ x = b ∨ tbl = some x := by
  constructor
  · rintro ⟨r, hr⟩
    rcases h.meets_iff.mp hr with hr | ⟨-, rfl⟩ | ⟨k, -, hk⟩
    · exact .inl ⟨r, hr⟩
    · exact .inr (.inl rfl)
    · exact .inr (.inr (h.object_eq_some.mp hk).2)
  · rintro (⟨r, hr⟩ | rfl | ht)
    · exact ⟨r, h.meets_iff.mpr (.inl hr)⟩
    · exact ⟨_, h.meets_iff.mpr (.inr (.inl ⟨rfl, rfl⟩))⟩
    · exact ⟨_, h.meets_iff.mpr (.inr (.inr ⟨.table, rfl, h.object_eq_some.mpr ⟨rfl, ht⟩⟩))⟩

theorem unshared (ok : TreeOk st) : Unshared Label.IsSlot 2 (refs st'.disk) := by
  refine ok.distinct.extend (fun r x hr => h.meets_iff.mp hr) ?_ ?_
  · rintro r x (⟨-, rfl⟩ | ⟨k, -, hk⟩)
    · exact (h.fresh x (.inl rfl)).1
    · exact (h.fresh x (.inr (h.object_eq_some.mp hk).2)).1
  · rintro r r' x (⟨rfl, rfl⟩ | ⟨k, rfl, hk⟩) (⟨rfl, hx⟩ | ⟨k', rfl, hk'⟩)
    · rfl
    · exact absurd (h.object_eq_some.mp hk').2 h.apart
    · subst hx
      exact absurd (h.object_eq_some.mp hk).2 h.apart
    · rw [(h.object_eq_some.mp hk).1, (h.object_eq_some.mp hk').1]

/-- The directory stays in order: the new name was not there. -/
theorem dirOk_n (ok : TreeOk st) : DirOk (entriesAt st'.disk n) := by
  obtain ⟨e, -, -, hname, hes⟩ := h.entry
  rw [hes]
  refine (ok.dirs n h.live h.dir).update i fun _ => ?_
  rw [hname]
  exact ⟨by simp, lookup_eq_none h.absent⟩

theorem treeOk (ok : TreeOk st) : TreeOk st' where
  reserved := ⟨h.mark 0 (.inl rfl), h.mark 1 (.inr (.inl rfl)),
    h.mark 2 (.inr (.inr (.inl Reach.root.owned)))⟩
  root := by
    by_cases h2 : 2 = n
    · rw [h2]; exact h.isDir_n
    · rw [(h.same 2 .root h2).isDirAt]; exact ok.root
  distinct := h.unshared ok
  used := by
    intro x hx
    rcases h.inUse_iff.mp hx with hx | hx
    · have hu := ok.used x hx
      exact ⟨hu.1, hu.2.1, h.mark x (.inr (.inr (.inl hx))), lt_of_lt_of_le hu.2.2.2 h.len⟩
    · have hu := h.fresh x hx
      exact ⟨hu.2.1, hu.2.2.1, h.mark x (.inr (.inr (.inr hx))), hu.2.2.2⟩
  dirs := by
    intro m hm hdir
    rcases h.live_iff.mp hm with hm | rfl
    · by_cases hmn : m = n
      · rw [hmn]; exact h.dirOk_n ok
      · exact (h.same m hm hmn).dirOk hdir (ok.dirs m hm)
    · have hno := fun j => h.entries j hdir
      exact ⟨fun j hj => by simp [hno j] at hj, fun j _ hj => by simp [hno j] at hj⟩

theorem wellFormed (wf : WellFormed st) : WellFormed st' where
  toTreeOk := h.treeOk wf.toTreeOk
  files := by
    intro m hm hfile
    rcases h.live_iff.mp hm with hm | rfl
    · by_cases hmn : m = n
      · rw [hmn, h.isDir_n] at hfile; exact absurd hfile (by simp)
      · exact (h.same m hm hmn).fileOk hfile (wf.files m hm)
    · have hsize := h.file hfile
      refine ⟨by simp [hsize], by simp [hsize], fun j hj => ?_⟩
      rw [hsize] at hj
      have : (0 : Int32).toInt = 0 := rfl
      omega

end LinkStep

/-! ## Removing an entry -/

/-- `st'` is `st` without the entry in slot `i` of directory `n`, which led to the object `b`
that has no entries of its own. -/
structure UnlinkStep (st st' : FsState) (n b : Nat) (i : Fin 128) : Prop where
  live : Live st.disk n
  dir : isDirAt st.disk n = true
  valid : (entriesAt st.disk n i).valid = true
  target : (entriesAt st.disk n i).inode.toNat = b
  empty : ∀ j, isDirAt st.disk b = true → (entriesAt st.disk b j).valid = false
  same : ∀ m, Live st.disk m → m ≠ n → SameNode st.disk st'.disk m
  dir' : isDirAt st'.disk n = true
  table' : tableOf st'.disk n = tableOf st.disk n
  entries' : entriesAt st'.disk n =
    Function.update (entriesAt st.disk n) i { entriesAt st.disk n i with valid := false }
  mark : ∀ x, x = 0 ∨ x = 1 ∨ (InUse st.disk x ∧ x ≠ b ∧ ∀ l, refs st.disk b l ≠ some x) →
    Marked st' x
  len : st.disk.len ≤ st'.disk.len

namespace UnlinkStep
variable {st st' : FsState} {n b : Nat} {i : Fin 128} (h : UnlinkStep st st' n b i)
include h

theorem refs_slot_i : refs st.disk n (.slot i) = some b := by
  rw [refs_slot h.dir h.valid, h.target]

theorem refs_slot_i' : refs st'.disk n (.slot i) = none := by
  simp [refs, h.entries']

theorem live_b : Live st.disk b := .step (l := Label.slot i) h.live trivial h.refs_slot_i

theorem childless : ∀ l : Label, l.IsSlot → refs st.disk b l = none := by
  intro l hl
  cases l with
  | table => exact absurd hl (by simp [Label.IsSlot])
  | data j => exact absurd hl (by simp [Label.IsSlot])
  | slot j =>
    cases hdir : isDirAt st.disk b with
    | false => simp [refs, hdir]
    | true => simp [refs, h.empty j hdir]

theorem refs_other {m : Nat} (hm : Live st.disk m) {l : Label} (hne : (m, l) ≠ (n, .slot i)) :
    refs st'.disk m l = refs st.disk m l := by
  by_cases hmn : m = n
  · subst hmn
    cases l with
    | table => simp [refs, h.dir', h.dir, h.table']
    | data j => simp [refs, h.dir', h.dir]
    | slot j =>
      have hji : j ≠ i := by rintro rfl; exact hne rfl
      simp [refs, h.dir', h.dir, h.entries', hji]
  · rw [(h.same m hm hmn).refs]

variable (ok : TreeOk st)
include ok

theorem live_iff {m : Nat} : Live st'.disk m ↔ Live st.disk m ∧ m ≠ b :=
  reach_unlink (l := Label.slot i) ok.distinct h.live h.refs_slot_i h.childless h.refs_slot_i'
    (fun _ hm _ hne => h.refs_other hm hne)

theorem meets_iff {r : Option (Nat × Label)} {x : Nat} :
    Meets Label.IsSlot 2 (refs st'.disk) r x ↔ Meets Label.IsSlot 2 (refs st.disk) r x ∧
      r ≠ some (n, .slot i) ∧ ∀ k, r ≠ some (b, k) :=
  meets_unlink (l := Label.slot i) ok.distinct h.live h.refs_slot_i h.childless h.refs_slot_i'
    (fun _ hm _ hne => h.refs_other hm hne)

theorem inUse_iff {x : Nat} :
    InUse st'.disk x ↔ InUse st.disk x ∧ x ≠ b ∧ ∀ l, refs st.disk b l ≠ some x := by
  constructor
  · rintro ⟨r, hr⟩
    obtain ⟨hr, hslot, hobj⟩ := (h.meets_iff ok).mp hr
    refine ⟨⟨r, hr⟩, ?_, fun l hl => ?_⟩
    · rintro rfl
      exact hslot (ok.distinct r _ x hr ⟨h.live, h.refs_slot_i⟩)
    · exact hobj l (ok.distinct r (some (b, l)) x hr ⟨h.live_b, hl⟩)
  · rintro ⟨⟨r, hr⟩, hxb, hobj⟩
    refine ⟨r, (h.meets_iff ok).mpr ⟨hr, ?_, fun l hl => ?_⟩⟩
    · rintro rfl
      exact hxb (Option.some.inj (hr.2.symm.trans h.refs_slot_i))
    · subst hl
      exact hobj l hr.2

/-- The directory stays in order without the entry. -/
theorem dirOk_n : DirOk (entriesAt st'.disk n) := by
  rw [h.entries']
  refine (ok.dirs n h.live h.dir).update i fun hv => ?_
  exact absurd hv (by simp)

theorem treeOk : TreeOk st' where
  reserved := by
    refine ⟨h.mark 0 (.inl rfl), h.mark 1 (.inr (.inl rfl)), ?_⟩
    have h2 : InUse st'.disk 2 := Reach.root.owned
    exact h.mark 2 (.inr (.inr ((h.inUse_iff ok).mp h2)))
  root := by
    by_cases h2 : 2 = n
    · rw [h2]; exact h.dir'
    · rw [(h.same 2 .root h2).isDirAt]; exact ok.root
  distinct := ok.distinct.mono fun r x hr => ((h.meets_iff ok).mp hr).1
  used := by
    intro x hx
    have hx := (h.inUse_iff ok).mp hx
    have hu := ok.used x hx.1
    exact ⟨hu.1, hu.2.1, h.mark x (.inr (.inr hx)), lt_of_lt_of_le hu.2.2.2 h.len⟩
  dirs := by
    intro m hm hdir
    obtain ⟨hm, -⟩ := (h.live_iff ok).mp hm
    by_cases hmn : m = n
    · rw [hmn]; exact h.dirOk_n ok
    · exact (h.same m hm hmn).dirOk hdir (ok.dirs m hm)

omit ok in
theorem wellFormed (wf : WellFormed st) : WellFormed st' where
  toTreeOk := h.treeOk wf.toTreeOk
  files := by
    intro m hm hfile
    obtain ⟨hm, -⟩ := (h.live_iff wf.toTreeOk).mp hm
    by_cases hmn : m = n
    · rw [hmn, h.dir'] at hfile; exact absurd hfile (by simp)
    · exact (h.same m hm hmn).fileOk hfile (wf.files m hm)

end UnlinkStep

/-! ## The pointers of a file -/

/-- `st'` differs from `st` in the inode of file `f`, which stays a file. -/
structure FileStep (st st' : FsState) (f : Nat) : Prop where
  live : Live st.disk f
  file : isDirAt st.disk f = false
  same : ∀ m, Live st.disk m → m ≠ f → SameNode st.disk st'.disk m
  file' : isDirAt st'.disk f = false
  len : st.disk.len ≤ st'.disk.len

namespace FileStep
variable {st st' : FsState} {f : Nat} (h : FileStep st st' f)
include h

theorem refs_slot_eq {m : Nat} (hm : Live st.disk m) {l : Label} (hl : ∀ j, l ≠ .data j) :
    refs st'.disk m l = refs st.disk m l := by
  by_cases hmf : m = f
  · subst hmf
    cases l with
    | table => simp [refs, h.file, h.file']
    | slot i => simp [refs, h.file, h.file']
    | data j => exact absurd rfl (hl j)
  · rw [(h.same m hm hmf).refs]

theorem live_iff {m : Nat} : Live st'.disk m ↔ Live st.disk m := by
  refine reach_congr fun m hm l hl => h.refs_slot_eq hm ?_
  rintro j rfl
  exact hl

theorem root (ok : TreeOk st) : isDirAt st'.disk 2 = true := by
  by_cases h2 : 2 = f
  · have := h.file
    rw [← h2, ok.root] at this
    exact absurd this (by simp)
  · rw [(h.same 2 .root h2).isDirAt]; exact ok.root

theorem dirs (ok : TreeOk st) (m : Nat) (hm : Live st'.disk m) (hdir : isDirAt st'.disk m = true) :
    DirOk (entriesAt st'.disk m) := by
  have hm := h.live_iff.mp hm
  by_cases hmf : m = f
  · rw [hmf, h.file'] at hdir; exact absurd hdir (by simp)
  · exact (h.same m hm hmf).dirOk hdir (ok.dirs m hm)

theorem trans {st'' : FsState} (h' : FileStep st' st'' f) : FileStep st st'' f where
  live := h.live
  file := h.file
  file' := h'.file'
  len := h.len.trans h'.len
  same := by
    intro m hm hmf
    have h1 := h.same m hm hmf
    have h2 := h'.same m (h.live_iff.mpr hm) hmf
    refine ⟨h2.1.trans h1.1, fun hdir => ?_⟩
    have ht := h2.2 (h1.isDirAt.trans hdir)
    have htable : tableOf st'.disk m = tableOf st.disk m := by unfold tableOf; rw [h1.inodeAt]
    rw [htable] at ht
    exact ht.trans (h1.2 hdir)

/-- Every file keeps its promise if `f` does. -/
theorem wellFormed (wf : WellFormed st) (ok' : TreeOk st') (hf : FileOk (inodeAt st'.disk f)) :
    WellFormed st' where
  toTreeOk := ok'
  files := by
    intro m hm hfile
    have hm := h.live_iff.mp hm
    by_cases hmf : m = f
    · rw [hmf]; exact hf
    · exact (h.same m hm hmf).fileOk hfile (wf.files m hm)

section AddPtr
variable {j : Fin 1019} {p : UInt32}

theorem refs_addPtr (hold : (inodeAt st.disk f).ptrs j = 0) (hp : p ≠ 0)
    (hptrs : (inodeAt st'.disk f).ptrs = Function.update (inodeAt st.disk f).ptrs j p)
    {m : Nat} (hm : Live st.disk m) {l : Label} {x : Nat} :
    refs st'.disk m l = some x ↔
      refs st.disk m l = some x ∨ (m = f ∧ l = .data j ∧ x = p.toNat) := by
  by_cases hmf : m = f
  · subst hmf
    cases l with
    | table => simp [refs, h.file, h.file']
    | slot i => simp [refs, h.file, h.file']
    | data k =>
      by_cases hk : k = j
      · subst hk
        simp only [refs, h.file, h.file', hptrs, hold, Function.update_self, Bool.not_false,
          Bool.true_and, bne_iff_ne, ne_eq, hp, not_false_eq_true, if_true, not_true_eq_false,
          if_false, reduceCtorEq, true_and, false_or, Option.some.injEq]
        exact eq_comm
      · simp [refs, h.file, h.file', hptrs, hk]
  · rw [(h.same m hm hmf).refs]
    simp [hmf]

theorem inUse_addPtr (hold : (inodeAt st.disk f).ptrs j = 0) (hp : p ≠ 0)
    (hptrs : (inodeAt st'.disk f).ptrs = Function.update (inodeAt st.disk f).ptrs j p) {x : Nat} :
    InUse st'.disk x ↔ InUse st.disk x ∨ x = p.toNat := by
  constructor
  · rintro ⟨_ | ⟨m, l⟩, hr⟩
    · exact .inl ⟨none, hr⟩
    · have hm := h.live_iff.mp hr.1
      rcases (h.refs_addPtr hold hp hptrs hm).mp hr.2 with hx | ⟨-, -, rfl⟩
      · exact .inl ⟨some (m, l), hm, hx⟩
      · exact .inr rfl
  · rintro (⟨_ | ⟨m, l⟩, hr⟩ | rfl)
    · exact ⟨none, hr⟩
    · exact ⟨some (m, l), h.live_iff.mpr hr.1, (h.refs_addPtr hold hp hptrs hr.1).mpr (.inl hr.2)⟩
    · exact ⟨some (f, .data j), h.live_iff.mpr h.live,
        (h.refs_addPtr hold hp hptrs h.live).mpr (.inr ⟨rfl, rfl, rfl⟩)⟩

/-- A file gets a new data block that was not in use. -/
theorem treeOk_addPtr (ok : TreeOk st) (hold : (inodeAt st.disk f).ptrs j = 0) (hp : p ≠ 0)
    (hptrs : (inodeAt st'.disk f).ptrs = Function.update (inodeAt st.disk f).ptrs j p)
    (hfresh : ¬ InUse st.disk p.toNat ∧ p.toNat ≠ 1 ∧ p.toNat < st'.disk.len)
    (hmark : ∀ x, x = 0 ∨ x = 1 ∨ InUse st.disk x ∨ x = p.toNat → Marked st' x) :
    TreeOk st' where
  reserved := ⟨hmark 0 (.inl rfl), hmark 1 (.inr (.inl rfl)),
    hmark 2 (.inr (.inr (.inl Reach.root.owned)))⟩
  root := h.root ok
  distinct := by
    have hnew : ∀ r x, Meets Label.IsSlot 2 (refs st'.disk) r x →
        Meets Label.IsSlot 2 (refs st.disk) r x ∨ (r = some (f, .data j) ∧ x = p.toNat) := by
      rintro (_ | ⟨m, l⟩) x hr
      · exact .inl hr
      · have hm := h.live_iff.mp hr.1
        rcases (h.refs_addPtr hold hp hptrs hm).mp hr.2 with hx | ⟨rfl, rfl, rfl⟩
        · exact .inl ⟨hm, hx⟩
        · exact .inr ⟨rfl, rfl⟩
    refine ok.distinct.extend hnew ?_ ?_
    · rintro r x ⟨-, rfl⟩; exact hfresh.1
    · rintro r r' x ⟨rfl, -⟩ ⟨rfl, -⟩; rfl
  used := by
    intro x hx
    rcases (h.inUse_addPtr hold hp hptrs).mp hx with hx | rfl
    · have hu := ok.used x hx
      exact ⟨hu.1, hu.2.1, hmark x (.inr (.inr (.inl hx))), lt_of_lt_of_le hu.2.2.2 h.len⟩
    · refine ⟨fun h0 => hp ?_, hfresh.2.1, hmark _ (.inr (.inr (.inr rfl))), hfresh.2.2⟩
      exact UInt32.toNat_inj.mp h0
  dirs := h.dirs ok

end AddPtr

section ClearPtrs
variable (hptrs : ∀ j, (inodeAt st'.disk f).ptrs j = 0)
include hptrs

theorem refs_clearPtrs {m : Nat} (hm : Live st.disk m) {l : Label} {x : Nat} :
    refs st'.disk m l = some x ↔ refs st.disk m l = some x ∧ m ≠ f := by
  by_cases hmf : m = f
  · subst hmf
    cases l <;> simp [refs, h.file', hptrs]
  · rw [(h.same m hm hmf).refs]
    simp [hmf]

theorem inUse_clearPtrs (ok : TreeOk st) {x : Nat} :
    InUse st'.disk x ↔ InUse st.disk x ∧ ∀ l, refs st.disk f l ≠ some x := by
  constructor
  · rintro ⟨_ | ⟨m, l⟩, hr⟩
    · refine ⟨⟨none, hr⟩, fun l hl => ?_⟩
      exact absurd (ok.distinct none (some (f, l)) x hr ⟨h.live, hl⟩) (by simp)
    · have hm := h.live_iff.mp hr.1
      obtain ⟨hx, hmf⟩ := (h.refs_clearPtrs hptrs hm).mp hr.2
      refine ⟨⟨some (m, l), hm, hx⟩, fun l' hl' => ?_⟩
      have := ok.distinct (some (m, l)) (some (f, l')) x ⟨hm, hx⟩ ⟨h.live, hl'⟩
      exact hmf (Prod.mk.inj (Option.some.inj this)).1
  · rintro ⟨⟨_ | ⟨m, l⟩, hr⟩, hx⟩
    · exact ⟨none, hr⟩
    · refine ⟨some (m, l), h.live_iff.mpr hr.1, (h.refs_clearPtrs hptrs hr.1).mpr ⟨hr.2, ?_⟩⟩
      rintro rfl
      exact hx l hr.2

/-- A file gives all its data blocks back. -/
theorem treeOk_clearPtrs (ok : TreeOk st)
    (hmark : ∀ x, x = 0 ∨ x = 1 ∨ InUse st'.disk x → Marked st' x) : TreeOk st' where
  reserved := ⟨hmark 0 (.inl rfl), hmark 1 (.inr (.inl rfl)),
    hmark 2 (.inr (.inr Reach.root.owned))⟩
  root := h.root ok
  distinct := by
    refine ok.distinct.mono ?_
    rintro (_ | ⟨m, l⟩) x hr
    · exact hr
    · have hm := h.live_iff.mp hr.1
      exact ⟨hm, ((h.refs_clearPtrs hptrs hm).mp hr.2).1⟩
  used := by
    intro x hx
    have hu := ok.used x ((h.inUse_clearPtrs hptrs ok).mp hx).1
    exact ⟨hu.1, hu.2.1, hmark x (.inr (.inr hx)), lt_of_lt_of_le hu.2.2.2 h.len⟩
  dirs := h.dirs ok

end ClearPtrs

end FileStep

end SystemsProjects.Fs5600
