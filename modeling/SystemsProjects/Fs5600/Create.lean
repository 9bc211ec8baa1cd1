import SystemsProjects.Fs5600.Update

/-!
# Creating files and directories

`fs_create` and `fs_mkdir` on a tree in order: the error exits come before the first change; past
them the call takes the first clear bits of the bitmap and either links the new object into its
directory (`Created`) or, when the directory is full, leaves the object it has written without an
entry (`Leaked`). Without a clear bit it ends in the assertion of `block_write`.
-/

namespace SystemsProjects.Fs5600
open SystemsProjects.Lib

/-! ## A new directory entry -/

/-- The slot `add_dirent` takes is not valid; without one all are. -/
theorem firstInvalid_some {es : Fin 128 → Dirent} {i : Fin 128} (h : firstInvalid es = some i) :
    (es i).valid = false := by
  simpa using List.find?_some h

theorem firstInvalid_none {es : Fin 128 → Dirent} :
    firstInvalid es = none ↔ ∀ i, (es i).valid = true := by
  simp [firstInvalid, List.find?_eq_none]

/-- `add_dirent` into the entries `es` of block `t`. -/
theorem addDirent_cases (st : FsState) (es : Fin 128 → Dirent) {t b : Nat} {c fb : List UInt8}
    (hlen : c.length ≤ 27) (hfb : cstr fb = some c) (ht0 : 0 < t) (ht : t < 32768)
    (hb : b < 32768) :
    (firstInvalid es = none ∧ addDirent st es t b fb = .ok (-enospc, st)) ∨
    ∃ i e, firstInvalid es = some i ∧ e.valid = true ∧ e.inode.toNat = b ∧ e.nameOf = some c ∧
      addDirent st es t b fb = .ok (0, st.write t (encodeDirents (Function.update es i e))) := by
  unfold addDirent
  cases hi : firstInvalid es with
  | none => exact .inl ⟨rfl, rfl⟩
  | some i =>
    obtain ⟨name, hcpy, hname⟩ := strcpy_nameOf (e := es i) hlen (cstr_eq_some_iff.mp hfb).1
    refine .inr ⟨i, ⟨true, BitVec.ofInt 31 b, name⟩, rfl, rfl, ?_, hname, ?_⟩
    · simp only [BitVec.ofInt_natCast, BitVec.toNat_ofNat]
      omega
    · simp only [hfb, hcpy, orFault, bind, Except.bind, st.put_of_lt _ ht0 ht]

/-! ## The blocks a new object is made of -/

/-- `st'` is `st` with a new inode `ino` in block `b` and, for a directory, an entry block `tbl`
without valid entries. Both were unmarked. Directory `n` has got the entry `c` for it, or has no
slot left and stays as it is. -/
structure Placed (st st' : FsState) (n b : Nat) (c : List UInt8) (tbl : Option Nat)
    (ino : Inode) : Prop where
  live : Live st.disk n
  dir : isDirAt st.disk n = true
  unmarked : ∀ x, x = b ∨ tbl = some x → ¬ Marked st x ∧ 3 ≤ x ∧ x < st'.disk.len
  apart : tbl ≠ some b
  inode : inodeAt st'.disk b = ino
  table : ∀ t, tbl = some t → ∀ i, (decodeDirents (st'.disk.data t) i).valid = false
  entry : ((∀ i, (entriesAt st.disk n i).valid = true) ∧
      st'.disk.data (tableOf st.disk n) = st.disk.data (tableOf st.disk n)) ∨
    ∃ i e, (entriesAt st.disk n i).valid = false ∧ e.valid = true ∧ e.inode.toNat = b ∧
      e.nameOf = some c ∧ st'.disk.data (tableOf st.disk n) =
        encodeDirents (Function.update (entriesAt st.disk n) i e)
  marked : ∀ x, Marked st' x ↔ Marked st x ∨ x = b ∨ tbl = some x
  frame : ∀ x, x ≠ b → tbl ≠ some x → x ≠ tableOf st.disk n → st'.disk.data x = st.disk.data x
  len : st.disk.len ≤ st'.disk.len
  numBlocks : st'.numBlocks = st.numBlocks

/-- The inode is that of an empty file, or of a directory with entry block `t`. -/
def NewObject (ino : Inode) : Option Nat → Prop
  | none => sIsdir ino.mode = false ∧ ino.size = 0 ∧ ∀ i, ino.ptrs i = 0
  | some t => sIsdir ino.mode = true ∧ (ino.ptrs 0).toNat = t

namespace Placed
variable {st st' : FsState} {n b : Nat} {c : List UInt8} {tbl : Option Nat} {ino : Inode}
  (h : Placed st st' n b c tbl ino)
include h

theorem unused (ok : TreeOk st) {x : Nat} (hx : x = b ∨ tbl = some x) : ¬ InUse st.disk x :=
  fun hu => (h.unmarked x hx).1 (ok.used x hu).2.2.1

/-- No block in use is written but the entry block of the directory. -/
theorem keep (ok : TreeOk st) {x : Nat} (hx : InUse st.disk x) (hne : x ≠ tableOf st.disk n) :
    st'.disk.data x = st.disk.data x :=
  h.frame x (fun he => h.unused ok (.inl he) hx) (fun he => h.unused ok (.inr he) hx) hne

/-- The reserved blocks are not written. -/
theorem frame_low (ok : TreeOk st) {x : Nat} (hx : x < 2) : st'.disk.data x = st.disk.data x := by
  refine h.frame x (fun he => ?_) (fun he => ?_) fun he => ?_
  · have := (h.unmarked x (.inl he)).2.1
    omega
  · have := (h.unmarked x (.inr he)).2.1
    omega
  · have := ok.two_le (h.live.table_inUse h.dir)
    omega

theorem sameNode (ok : TreeOk st) {m : Nat} (hm : Live st.disk m) (hmn : m ≠ n) :
    SameNode st.disk st'.disk m :=
  ⟨h.keep ok hm.owned (ok.live_ne_table hm h.live h.dir), fun hdir =>
    h.keep ok (hm.table_inUse hdir) fun he => hmn (ok.table_inj hm hdir h.live h.dir he)⟩

theorem inodeAt_parent (ok : TreeOk st) : inodeAt st'.disk n = inodeAt st.disk n := by
  unfold inodeAt
  rw [h.keep ok h.live.owned (ok.live_ne_table h.live h.live h.dir)]

theorem tableOf_parent (ok : TreeOk st) : tableOf st'.disk n = tableOf st.disk n := by
  unfold tableOf
  rw [h.inodeAt_parent ok]

theorem entriesAt_parent (ok : TreeOk st) {es : Fin 128 → Dirent}
    (htable : st'.disk.data (tableOf st.disk n) = encodeDirents es) :
    entriesAt st'.disk n = es := by
  unfold entriesAt
  rw [h.tableOf_parent ok, htable, decodeDirents_encodeDirents]

theorem refs_object (hnew : NewObject ino tbl) (l : Label) :
    refs st'.disk b l = if l = .table then tbl else none := by
  cases tbl with
  | none =>
    obtain ⟨hmode, -, hptrs⟩ := hnew
    cases l <;> simp [refs, isDirAt, h.inode, hmode, hptrs]
  | some t =>
    obtain ⟨hmode, htable⟩ := hnew
    have ht : tableOf st'.disk b = t := by unfold tableOf; rw [h.inode, htable]
    have hes : ∀ i, (entriesAt st'.disk b i).valid = false := fun i => by
      unfold entriesAt
      rw [ht]
      exact h.table t rfl i
    cases l <;> simp [refs, isDirAt, h.inode, hmode, ht, hes]

/-- A new directory has no valid entries. -/
theorem entries_object (hnew : NewObject ino tbl) (hdir : isDirAt st'.disk b = true) (j : Fin 128) :
    (entriesAt st'.disk b j).valid = false := by
  cases tbl with
  | none => simp [isDirAt, h.inode, hnew.1] at hdir
  | some t =>
    unfold entriesAt tableOf
    rw [h.inode, hnew.2]
    exact h.table t rfl j

/-- A new file is empty. -/
theorem size_object (hnew : NewObject ino tbl) (hfile : isDirAt st'.disk b = false) :
    (inodeAt st'.disk b).size = 0 := by
  cases tbl with
  | none => rw [h.inode]; exact hnew.2.1
  | some t => simp [isDirAt, h.inode, hnew.1] at hfile

/-- With a slot left, the object is linked into the tree. -/
theorem linkStep (ok : TreeOk st) (habsent : lookup st.disk n c = none)
    (hnew : NewObject ino tbl) {i : Fin 128} {e : Dirent}
    (hslot : (entriesAt st.disk n i).valid = false)
    (he : e.valid = true ∧ e.inode.toNat = b ∧ e.nameOf = some c)
    (htable : st'.disk.data (tableOf st.disk n) =
      encodeDirents (Function.update (entriesAt st.disk n) i e)) :
    LinkStep st st' n b i c tbl := by
  have hes := h.entriesAt_parent ok htable
  refine
    { live := h.live, dir := h.dir, free := hslot, absent := habsent, apart := h.apart,
      inode := h.inodeAt_parent ok, entry := ⟨e, he.1, he.2.1, he.2.2, hes⟩,
      object := h.refs_object hnew, len := h.len, same := fun m hm => h.sameNode ok hm,
      fresh := ?_, entries := fun j hdir => h.entries_object hnew hdir j,
      file := h.size_object hnew, mark := ?_ }
  · intro x hx
    have hx' := h.unmarked x hx
    exact ⟨h.unused ok hx, by omega, by omega, hx'.2.2⟩
  · intro x hx
    rw [h.marked]
    rcases hx with hx | hx | hx | hx
    · exact .inl (ok.marked_reserved (.inl hx))
    · exact .inl (ok.marked_reserved (.inr (.inl hx)))
    · exact .inl (ok.marked_reserved (.inr (.inr hx)))
    · exact .inr hx

/-- Without a slot left, every block in use stays as it is: the new object is written but not
linked. -/
theorem keep_of_full (ok : TreeOk st) (hfull : ∀ i, (entriesAt st.disk n i).valid = true) {x : Nat}
    (hx : InUse st.disk x) : st'.disk.data x = st.disk.data x := by
  by_cases hxt : x = tableOf st.disk n
  · rcases h.entry with ⟨-, htable⟩ | ⟨i, e, hslot, -⟩
    · rw [hxt, htable]
    · simp [hfull i] at hslot
  · exact h.keep ok hx hxt

theorem sameNode_of_full (ok : TreeOk st) (hfull : ∀ i, (entriesAt st.disk n i).valid = true)
    {m : Nat} (hm : Live st.disk m) : SameNode st.disk st'.disk m :=
  ⟨h.keep_of_full ok hfull hm.owned, fun hdir => h.keep_of_full ok hfull (hm.table_inUse hdir)⟩

theorem isDirAt_object : isDirAt st'.disk b = sIsdir ino.mode := by
  unfold isDirAt
  rw [h.inode]

theorem wellFormed (wf : WellFormed st) (habsent : lookup st.disk n c = none)
    (hnew : NewObject ino tbl) : WellFormed st' := by
  rcases h.entry with ⟨hfull, -⟩ | ⟨i, e, hslot, hv, hi, hname, htable⟩
  · refine wf.of_sameNode (fun m hm => h.sameNode_of_full wf.toTreeOk hfull hm) ?_ h.len
    exact fun x hx => (h.marked x).mpr (.inl (wf.toTreeOk.marked_reserved hx))
  · exact (h.linkStep wf.toTreeOk habsent hnew hslot ⟨hv, hi, hname⟩ htable).wellFormed wf

/-- With a slot left, exactly the new blocks come into use. -/
theorem inUse_iff (ok : TreeOk st) (habsent : lookup st.disk n c = none)
    (hnew : NewObject ino tbl) (hroom : ∃ i, (entriesAt st.disk n i).valid = false) {x : Nat} :
    InUse st'.disk x ↔ InUse st.disk x ∨ x = b ∨ tbl = some x := by
  rcases h.entry with ⟨hfull, -⟩ | ⟨i, e, hslot, hv, hi, hname, htable⟩
  · obtain ⟨i, hslot⟩ := hroom
    simp [hfull i] at hslot
  · exact (h.linkStep ok habsent hnew hslot ⟨hv, hi, hname⟩ htable).inUse_iff

end Placed

/-! ## Finding the directory -/

/-- The path names nothing yet, and `n` is the directory it would be in. -/
structure ReadyIn (st : FsState) (p : CanonPath) (n : Nat) : Prop where
  resolved : resolve st.disk 2 p.dirs = .ok n
  dir : isDirAt st.disk n = true
  absent : lookup st.disk n p.last = none

theorem ReadyIn.live {st : FsState} {p : CanonPath} {n : Nat} (h : ReadyIn st p n) :
    Live st.disk n := resolve_live .root h.resolved

/-- The part `fs_create` and `fs_mkdir` have in common, up to the allocation. -/
def openParent (env : Env) (path : List UInt8) (st : FsState)
    (k : Inode → (Fin 28 → UInt8) → Except Fault (Int × FsState)) :
    Except Fault (Int × FsState) := do
  let n ← pathToInum (env.call 0) st.disk path
  if n > 0 then .ok (-eexist, st)
  else
    let srcDir ← getParentPath 280 path
    let dirInum ← pathToInum (env.call 1) st.disk srcDir
    if dirInum < 0 then .ok (-enoent, st)
    else
      let dirInode := decodeInode (st.get (env.junk [0]) dirInum)
      if !sIsdir dirInode.mode then .ok (-enotdir, st)
      else
        let (r, filename) ← getLastFilename (env.call 2) path (env.bytes 28 1)
        if r < 0 then .ok (r, st)
        else k dirInode filename

/-- The error exit taken: the directory is missing, is a file, or has the entry already. -/
def openError (d : Disk) (p : CanonPath) : Int :=
  match resolve d 2 p.dirs with
  | .error _ => -enoent
  | .ok n => if isDirAt d n then -eexist else -enotdir

section Storable
variable {st : FsState} (ok : TreeOk st) {dirs : List (List UInt8)} {c : List UInt8}
  (hp : Storable dirs c) {n : Nat} (hn : resolve st.disk 2 dirs = .ok n)
  (hdir : isDirAt st.disk n = true)
include ok hp hn hdir

/-- A name that the directory has already. -/
theorem TreeOk.openParent_present {i : Fin 128} (hl : lookup st.disk n c = some i) (env : Env)
    (k : Inode → (Fin 28 → UInt8) → Except Fault (Int × FsState)) :
    openParent env (render (dirs ++ [c])) st k = .ok (-eexist, st) := by
  have hlive : Live st.disk n := resolve_live .root hn
  have hpos := ok.two_le (hlive.slot_live hdir (lookup_eq_some hl).1).owned
  have hpath := hp.pathToInum_eq ok (env.call 0)
  rw [resolve_append, hn] at hpath
  simp only [resolve_cons_some hdir hl, resolve_nil, codeOf] at hpath
  rw [openParent, hpath, ok_bind, if_pos (by omega)]

/-- A new name goes through the caller's array of 28 bytes, whose last byte nothing sets. -/
theorem TreeOk.openParent_absent (hl : lookup st.disk n c = none) (env : Env) :
    ∃ filename : Fin 28 → UInt8, Stored c filename ∧ filename 27 = env.bytes 28 1 27 ∧
      ∀ k, openParent env (render (dirs ++ [c])) st k = k (inodeAt st.disk n) filename := by
  have hlive : Live st.disk n := resolve_live .root hn
  have hmode : sIsdir (decodeInode (st.disk.data n)).mode = true := hdir
  have hread : st.get (env.junk [0]) n = st.disk.data n := ok.get_inUse hlive.owned _
  have hpath := hp.pathToInum_eq ok (env.call 0)
  have hdirs := hp.pathToInum_parent ok (env.call 1)
  obtain ⟨filename, hlast, hstored, hend⟩ := hp.getLastFilename_eq (env.call 2) (env.bytes 28 1)
  rw [resolve_append, hn] at hpath
  rw [hn] at hdirs
  refine ⟨filename, hstored, hend 27 le_rfl, fun k => ?_⟩
  simp only [resolve_cons_none hdir hl, codeOf] at hpath
  simp only [openParent, hpath, hp.getParentPath_eq 280 (by omega), hdirs, hlast, bind, Except.bind,
    codeOf, hread, hmode]
  rw [if_neg (by decide), if_neg (by omega), if_neg (by decide), if_neg (by decide)]
  rfl

end Storable

section OpenParent
variable {st : FsState} (ok : TreeOk st) (p : CanonPath)
include ok

/-- Either an error exit is taken, with nothing changed, or the rest of the function runs with the
inode of the directory and the last component. -/
theorem TreeOk.openParent_cases (env : Env) :
    (∃ r, r < 0 ∧ r ≠ -enospc ∧ (¬ ∃ n, ReadyIn st p n) ∧
      (∀ k, openParent env p.bytes st k = .ok (r, st)) ∧ r = openError st.disk p) ∨
    ∃ n filename, ReadyIn st p n ∧ cstr (bytesFrom filename 0) = some p.last ∧
      ∀ k, openParent env p.bytes st k = k (inodeAt st.disk n) filename := by
  have hpath := p.pathToInum_eq ok (env.call 0)
  have hparent := p.getParentPath_eq 280 (by omega)
  have hdirs := p.pathToInum_parent ok (env.call 1)
  cases hd : resolve st.disk 2 p.dirs with
  | error e =>
    -- no parent: the path does not resolve either
    have hcomps : resolve st.disk 2 p.comps = .error e := by
      unfold CanonPath.comps
      rw [resolve_append, hd]
    have he := codeOf_error_neg hd
    refine .inl ⟨-enoent, by decide, by decide, ?_, fun k => ?_, by rw [openError, hd]⟩
    · rintro ⟨n, hn⟩
      rw [hn.resolved] at hd
      exact absurd hd (by simp)
    · rw [hcomps] at hpath
      rw [hd] at hdirs
      simp only [openParent, hpath, hparent, hdirs, bind, Except.bind, codeOf]
      rw [if_neg (by omega), if_pos he]
  | ok n =>
    have hn : Live st.disk n := resolve_live .root hd
    have hn2 := ok.two_le hn.owned
    have hread : st.get (env.junk [0]) n = st.disk.data n :=
      ok.get_inUse hn.owned _
    rw [p.resolve_last hd] at hpath
    rw [hd] at hdirs
    cases hdir : isDirAt st.disk n with
    | false =>
      refine .inl ⟨-enotdir, by decide, by decide, ?_, fun k => ?_, ?_⟩
      · rintro ⟨m, hm⟩
        obtain rfl := Except.ok.inj (hm.resolved.symm.trans hd)
        rw [hm.dir] at hdir
        exact absurd hdir (by simp)
      · have hmode : sIsdir (decodeInode (st.disk.data n)).mode = false := hdir
        simp only [resolve_cons_file hdir, codeOf] at hpath
        simp only [openParent, hpath, hparent, hdirs, bind, Except.bind, codeOf, hread, hmode]
        rw [if_neg (by decide), if_neg (by omega), if_pos (by decide)]
      · simp only [openError, hd, hdir, Bool.false_eq_true, if_false]
    | true =>
      cases hl : lookup st.disk n p.last with
      | some i =>
        refine .inl ⟨-eexist, by decide, by decide, ?_, fun k => ?_, ?_⟩
        · rintro ⟨m, hm⟩
          obtain rfl := Except.ok.inj (hm.resolved.symm.trans hd)
          rw [hm.absent] at hl
          exact absurd hl (by simp)
        · exact ok.openParent_present p.storable hd hdir hl env k
        · simp only [openError, hd, hdir, if_true]
      | none =>
        obtain ⟨filename, hstored, -, hrun⟩ := ok.openParent_absent p.storable hd hdir hl env
        exact .inr ⟨n, filename, ⟨hd, hdir, hl⟩, hstored.cstr_eq (by omega) p.last_component, hrun⟩

end OpenParent

/-! ## Modes -/

theorem sIsdir_reg (mode : UInt32) : sIsdir (mode ||| sIfreg) = false := by
  -- bit 15 is set on the left and clear in `S_IFDIR`
  have hne : (mode ||| sIfreg) &&& sIfmt ≠ sIfdir := by
    intro h
    have hbit := congrArg (fun m : UInt32 => m.toBitVec.getLsbD 15) h
    simp [sIfreg, sIfmt, sIfdir] at hbit
  simpa [sIsdir] using hne

theorem sIsdir_dir {mode : UInt32} (h : mode &&& sIfmt = 0 ∨ mode &&& sIfmt = sIfdir) :
    sIsdir (mode ||| sIfdir) = true := by
  have hor : (mode ||| sIfdir) &&& sIfmt = (mode &&& sIfmt) ||| (sIfdir &&& sIfmt) := by
    apply UInt32.toBitVec_inj.mp
    simp only [UInt32.toBitVec_and, UInt32.toBitVec_or]
    exact BitVec.and_or_distrib_right
  unfold sIsdir
  rw [hor]
  rcases h with h | h <;> rw [h] <;> decide

/-! ## The rest of `fs_create` and `fs_mkdir` -/

/-- The inode `fs_create` writes. -/
def newFileInode (env : Env) (mode : UInt32) : Inode :=
  { uid := env.uid, gid := env.gid, mode := mode ||| sIfreg, ctime := env.time,
    mtime := env.time, size := 0, ptrs := fun _ => 0 }

/-- The inode `fs_mkdir` writes. -/
def newDirInode (env : Env) (mode : UInt32) (newDirEntriesInum : Int) : Inode :=
  { uid := env.uid, gid := env.gid, mode := mode ||| sIfdir, ctime := env.time,
    mtime := env.time, size := 0,
    ptrs := fun i => if i.val = 0 then UInt32.ofInt newDirEntriesInum else 0 }

/-- Writing the new inode and its entry: the part both have after the allocations. -/
def placeEntry (env : Env) (ino : Inode) (newFileInum : Int) (st : FsState) (dirInode : Inode)
    (filename : Fin 28 → UInt8) : Except Fault FsState := do
  let st ← st.put (encodeInode ino) newFileInum
  let entries := decodeDirents (st.get (env.junk [2]) (asInt (dirInode.ptrs 0)))
  let (_, st) ← addDirent st entries (asInt (dirInode.ptrs 0)) newFileInum (bytesFrom filename 0)
  .ok st

/-- `fs_create` from the allocation on. -/
def createRest (env : Env) (mode : UInt32) (st : FsState) (dirInode : Inode)
    (filename : Fin 28 → UInt8) : Except Fault (Int × FsState) := do
  let (newFileInum, st) := allocBlk st
  let st ← placeEntry env (newFileInode env mode) newFileInum st dirInode filename
  .ok (0, st)

/-- `fs_mkdir` from the allocations on. -/
def mkdirRest (env : Env) (mode : UInt32) (st : FsState) (dirInode : Inode)
    (filename : Fin 28 → UInt8) : Except Fault (Int × FsState) := do
  let (newFileInum, st) := allocBlk st
  let (newDirEntriesInum, st) := allocBlk st
  let st ← placeEntry env (newDirInode env mode newDirEntriesInum) newFileInum st dirInode filename
  let newDirEntries := fun i => { decodeDirents (env.junk [3]) i with valid := false }
  let st ← st.put (encodeDirents newDirEntries) newDirEntriesInum
  .ok (0, st)

section Full
variable {st : FsState} (hempty : st.unmarked = ∅) (env : Env) (mode : UInt32) (dirInode : Inode)
  (filename : Fin 28 → UInt8)
include hempty

theorem allocBlk_full : allocBlk st = (-enospc, st) := by
  rcases st.allocBlk_unmarked with ⟨b, hb, -⟩ | ⟨-, halloc⟩
  · simp [hempty] at hb
  · exact halloc

/-- Without an unmarked block both abort before they look at the name. -/
theorem createRest_full : createRest env mode st dirInode filename = .error .assertion := by
  simp only [createRest, allocBlk_full hempty, placeEntry, put_enospc, error_bind]

theorem mkdirRest_full : mkdirRest env mode st dirInode filename = .error .assertion := by
  simp only [mkdirRest, allocBlk_full hempty, placeEntry, put_enospc, error_bind]

end Full

theorem fsCreate_eq (env : Env) (path : List UInt8) (mode : UInt32) (st : FsState) :
    fsCreate env path mode st = openParent env path st (createRest env mode st) := by
  have hrest : ∀ dirInode filename, createRest env mode st dirInode filename = (do
      let (newFileInum, st) := allocBlk st
      let st ← st.put (encodeInode (newFileInode env mode)) newFileInum
      let entries := decodeDirents (st.get (env.junk [2]) (asInt (dirInode.ptrs 0)))
      let (_, st) ← addDirent st entries (asInt (dirInode.ptrs 0)) newFileInum
        (bytesFrom filename 0)
      .ok (0, st)) := by
    intro dirInode filename
    simp only [createRest, placeEntry, bind_assoc]
    rfl
  simp only [openParent, hrest]
  rfl

theorem fsMkdir_eq (env : Env) (path : List UInt8) (mode : UInt32) (st : FsState) :
    fsMkdir env path mode st = openParent env path st (mkdirRest env mode st) := by
  have hrest : ∀ dirInode filename, mkdirRest env mode st dirInode filename = (do
      let (newFileInum, st) := allocBlk st
      let (newDirEntriesInum, st) := allocBlk st
      let st ← st.put (encodeInode (newDirInode env mode newDirEntriesInum)) newFileInum
      let entries := decodeDirents (st.get (env.junk [2]) (asInt (dirInode.ptrs 0)))
      let (_, st) ← addDirent st entries (asInt (dirInode.ptrs 0)) newFileInum
        (bytesFrom filename 0)
      let newDirEntries := fun i => { decodeDirents (env.junk [3]) i with valid := false }
      let st ← st.put (encodeDirents newDirEntries) newDirEntriesInum
      .ok (0, st)) := by
    intro dirInode filename
    simp only [mkdirRest, placeEntry, bind_assoc]
    rfl
  simp only [openParent, hrest]
  rfl

/-- The disk after `placeEntry`: the new inode and, with a slot left, its entry. -/
structure Entered (d d' : Disk) (n b : Nat) (c : List UInt8) (ino : Inode) : Prop where
  inode : d'.data b = encodeInode ino
  entry : ((∀ i, (entriesAt d n i).valid = true) ∧ d'.data (tableOf d n) = d.data (tableOf d n)) ∨
    ∃ i e, (entriesAt d n i).valid = false ∧ e.valid = true ∧ e.inode.toNat = b ∧
      e.nameOf = some c ∧
      d'.data (tableOf d n) = encodeDirents (Function.update (entriesAt d n) i e)
  frame : ∀ x, x ≠ b → x ≠ tableOf d n → d'.data x = d.data x
  len : d.len ≤ d'.len
  lt_len : b < d'.len

/-- A new directory: on top of that, its entry block is written. -/
theorem Entered.placed_dir {st s' : FsState} (ok : TreeOk st) {n b t : Nat} {c : List UInt8}
    {ino : Inode} (h : Entered st.disk s'.disk n b c ino) (hn : Live st.disk n)
    (hdir : isDirAt st.disk n = true) (hb : ¬ Marked st b) (ht : ¬ Marked st t) (htb : t ≠ b)
    (hlt : b < 32768) (htlt : t < 32768)
    (hbitmap : s'.blockBitmap = ((st.take b).take t).blockBitmap)
    (hnum : s'.numBlocks = st.numBlocks) {es : Fin 128 → Dirent} (hes : ∀ i, (es i).valid = false) :
    Placed st (s'.write t (encodeDirents es)) n b c (some t) ino := by
  have htable : tableOf st.disk n ≠ t := fun h => (ok.fresh ht).2 (h ▸ hn.table_inUse hdir)
  refine
    { live := hn, dir := hdir, apart := by simpa using htb, numBlocks := hnum,
      len := le_trans h.len (le_max_left _ _), unmarked := ?_, inode := ?_, table := ?_,
      entry := ?_, marked := ?_, frame := ?_ }
  · intro x hx
    rw [FsState.write_disk, Disk.lt_write_len]
    rcases hx with rfl | hx
    · exact ⟨hb, (ok.fresh hb).1, .inl h.lt_len⟩
    · obtain rfl := Option.some.inj hx
      exact ⟨ht, (ok.fresh ht).1, .inr le_rfl⟩
  · unfold inodeAt
    rw [FsState.write_disk, Disk.write_ne _ _ htb.symm, h.inode, decodeInode_encodeInode]
  · intro t' ht' i
    obtain rfl := Option.some.inj ht'
    rw [FsState.write_disk, Disk.write_same, decodeDirents_encodeDirents]
    exact hes i
  · rw [FsState.write_disk, Disk.write_ne _ _ htable]
    exact h.entry
  · intro x
    rw [FsState.marked_write, FsState.marked_congr hbitmap, FsState.marked_take _ htlt,
      st.marked_take hlt, or_assoc, Option.some.injEq, eq_comm (a := t)]
  · intro x hxb hxt hx
    rw [FsState.write_disk, Disk.write_ne _ _ (by rintro rfl; exact hxt rfl)]
    exact h.frame x hxb hx

/-- The new entry is in the first slot that was not valid. -/
def FirstSlot (d d' : Disk) (n b : Nat) (c : List UInt8) : Prop :=
  ∀ i, firstInvalid (entriesAt d n) = some i → ∃ e : Dirent, e.valid = true ∧ e.inode.toNat = b ∧
    e.nameOf = some c ∧ d'.data (tableOf d n) = encodeDirents (Function.update (entriesAt d n) i e)

/-- The new object is in the first unmarked blocks, its entry in the first free slot. -/
structure FirstFree (st st' : FsState) (n b : Nat) (c : List UInt8) (tbl : Option Nat) : Prop where
  block : IsLeast {x | x ∈ st.unmarked} b
  table : ∀ t, tbl = some t → IsLeast {x | x ∈ st.unmarked.erase b} t
  slot : FirstSlot st.disk st'.disk n b c

theorem FirstFree.mem_block {st st' : FsState} {n b : Nat} {c : List UInt8} {tbl : Option Nat}
    (h : FirstFree st st' n b c tbl) : b ∈ st.unmarked := h.block.1

theorem FirstFree.mem_table {st st' : FsState} {n b t : Nat} {c : List UInt8}
    (h : FirstFree st st' n b c (some t)) : t ∈ st.unmarked.erase b := (h.table t rfl).1

/-- A new directory takes two blocks. -/
theorem FirstFree.card_erase {st st' : FsState} {n b t : Nat} {c : List UInt8}
    (h : FirstFree st st' n b c (some t)) :
    ((st.unmarked.erase b).erase t).card + 2 = st.unmarked.card := by
  have hb := Finset.card_erase_add_one h.mem_block
  have ht := Finset.card_erase_add_one h.mem_table
  omega

section Rest
variable {st : FsState} (ok : TreeOk st) {n : Nat} (hn : Live st.disk n)
  (hdir : isDirAt st.disk n = true) {c : List UInt8} (hlen : c.length ≤ 27)
  {filename : Fin 28 → UInt8} (hname : cstr (bytesFrom filename 0) = some c)
include ok hn hdir hlen hname

/-- `placeEntry` at an unmarked block, from a state with the same disk. -/
theorem TreeOk.placeEntry_eq (env : Env) (ino : Inode) {s : FsState} (hs : s.disk = st.disk)
    {b : Nat} (hb : b < 32768) (hunmarked : ¬ Marked st b) :
    ∃ s', placeEntry env ino b s (inodeAt st.disk n) filename = .ok s' ∧
      s'.blockBitmap = s.blockBitmap ∧ s'.numBlocks = s.numBlocks ∧
      Entered st.disk s'.disk n b c ino ∧ FirstSlot st.disk s'.disk n b c := by
  have huse := hn.table_inUse hdir
  obtain ⟨hb3, hunused⟩ := ok.fresh hunmarked
  have htb : tableOf st.disk n ≠ b := fun h => hunused (h ▸ huse)
  have hput := s.put_of_lt (encodeInode ino) (n := b) (by omega) hb
  have hents : decodeDirents ((s.write b (encodeInode ino)).get (env.junk [2])
      (tableOf st.disk n)) = entriesAt st.disk n := by
    rw [FsState.get_of_lt _ _ (ok.lt huse), FsState.write_disk, Disk.write_ne _ _ htb, hs]
    · rfl
    · rw [FsState.write_disk, Disk.lt_write_len, hs]
      exact .inl (ok.lt_len huse)
  unfold placeEntry
  simp only [hput, ok.asInt_table hn hdir, hents, bind, Except.bind]
  rcases addDirent_cases (s.write b (encodeInode ino)) (entriesAt st.disk n) hlen
    hname (ok.pos huse) (ok.lt huse) hb with ⟨hnone, hadd⟩ | ⟨i, e, hsome, hv, hi, hen, hadd⟩
  · refine ⟨s.write b (encodeInode ino), by rw [hadd], rfl, rfl, ?_, fun i hi => ?_⟩
    · rw [FsState.write_disk, hs]
      exact
        { inode := st.disk.write_same b _
          entry := .inl ⟨firstInvalid_none.mp hnone, st.disk.write_ne _ htb⟩
          frame := fun x hx _ => st.disk.write_ne _ hx
          len := le_max_left _ _
          lt_len := (st.disk.lt_write_len _).mpr (.inr le_rfl) }
    · exact absurd (hnone.symm.trans hi) (Option.some_ne_none i).symm
  · refine ⟨(s.write b (encodeInode ino)).write (tableOf st.disk n)
      (encodeDirents (Function.update (entriesAt st.disk n) i e)), by rw [hadd], rfl, rfl, ?_,
      fun j hj => ?_⟩
    · rw [FsState.write_disk, FsState.write_disk, hs]
      exact
        { inode := by rw [Disk.write_ne _ _ htb.symm, Disk.write_same]
          entry := .inr ⟨i, e, firstInvalid_some hsome, hv, hi, hen, Disk.write_same _ _ _⟩
          frame := fun x hx hxt => by rw [Disk.write_ne _ _ hxt, Disk.write_ne _ _ hx]
          len := le_trans (le_max_left _ _) (le_max_left _ _)
          lt_len := by simp [Disk.lt_write_len] }
    · obtain rfl := Option.some.inj (hsome.symm.trans hj)
      exact ⟨e, hv, hi, hen, Disk.write_same _ _ _⟩

/-- Past the error exits `fs_create` takes the first unmarked block, or aborts without one. -/
theorem TreeOk.createRest_cases (env : Env) (mode : UInt32) :
    (st.unmarked = ∅ ∧
      createRest env mode st (inodeAt st.disk n) filename = .error .assertion) ∨
    ∃ b st', createRest env mode st (inodeAt st.disk n) filename = .ok (0, st') ∧
      FirstFit st.unmarked st'.unmarked ∧
      Placed st st' n b c none (newFileInode env mode) ∧
      FirstFree st st' n b c none := by
  rcases st.allocBlk_unmarked with ⟨b, hb, hmin, halloc⟩ | ⟨hempty, -⟩
  · unfold createRest
    obtain ⟨hlt, hunmarked⟩ := FsState.mem_unmarked.mp hb
    obtain ⟨s', hplace, hbitmap, hnum, hent, hslot⟩ := ok.placeEntry_eq hn hdir hlen hname env
      (newFileInode env mode) (s := st.take b) rfl hlt hunmarked
    refine .inr ⟨b, s', by simp only [halloc, hplace, bind, Except.bind], ?_, ?_,
      ⟨⟨hb, hmin⟩, by simp, hslot⟩⟩
    · rw [FsState.unmarked_congr hbitmap]
      exact FsState.firstFit_take hlt hmin
    · refine
        { live := hn, dir := hdir, apart := by simp, entry := hent.entry,
          table := by simp, frame := fun x hx _ => hent.frame x hx, len := hent.len,
          numBlocks := hnum, unmarked := ?_, inode := ?_, marked := ?_ }
      · rintro x (rfl | h)
        · exact ⟨hunmarked, (ok.fresh hunmarked).1, hent.lt_len⟩
        · simp at h
      · unfold inodeAt
        rw [hent.inode, decodeInode_encodeInode]
      · intro x
        rw [FsState.marked_congr hbitmap, st.marked_take hlt]
        simp
  · exact .inl ⟨hempty, createRest_full hempty env mode _ _⟩

/-- Past the error exits `fs_mkdir` takes the first two unmarked blocks. With fewer than two it
aborts: at the first `block_write` without any, at the last one with a single one. -/
theorem TreeOk.mkdirRest_cases (env : Env) (mode : UInt32) :
    (st.unmarked.card < 2 ∧
      mkdirRest env mode st (inodeAt st.disk n) filename = .error .assertion) ∨
    ∃ b t st', mkdirRest env mode st (inodeAt st.disk n) filename = .ok (0, st') ∧
      t < 32768 ∧ FirstFit st.unmarked st'.unmarked ∧
      Placed st st' n b c (some t) (newDirInode env mode t) ∧
      FirstFree st st' n b c (some t) := by
  have huse := hn.table_inUse hdir
  rcases st.allocBlk_unmarked with ⟨b, hb, hmin, halloc⟩ | ⟨hempty, -⟩
  · unfold mkdirRest
    obtain ⟨hlt, hunmarked⟩ := FsState.mem_unmarked.mp hb
    rcases (st.take b).allocBlk_unmarked with ⟨t, ht, hmin', halloc'⟩ | ⟨hempty, halloc'⟩
    · obtain ⟨htlt, hunmarked'⟩ := FsState.mem_unmarked.mp ht
      rw [st.marked_take hlt, not_or] at hunmarked'
      obtain ⟨ht3, htfree⟩ := ok.fresh hunmarked'.1
      have htable : tableOf st.disk n ≠ t := fun h => htfree (h ▸ huse)
      obtain ⟨s', hplace, hbitmap, hnum, hent, hslot⟩ := ok.placeEntry_eq hn hdir hlen hname env
        (newDirInode env mode t) (s := (st.take b).take t) rfl hlt hunmarked
      have hput := s'.put_of_lt (n := t)
        (encodeDirents fun i => { decodeDirents (env.junk [3]) i with valid := false })
        (by omega) htlt
      refine .inr ⟨b, t, s'.write t
        (encodeDirents fun i => { decodeDirents (env.junk [3]) i with valid := false }),
        by simp only [halloc, halloc', hplace, hput, bind, Except.bind], htlt, ?_,
        hent.placed_dir ok hn hdir hunmarked hunmarked'.1 hunmarked'.2 hlt htlt hbitmap hnum
          fun _ => rfl, ⟨hb, hmin⟩, ?_, ?_⟩
      · rw [FsState.unmarked_write, FsState.unmarked_congr hbitmap]
        exact (FsState.firstFit_take hlt hmin).trans (FsState.firstFit_take htlt hmin')
      · intro t' ht'
        obtain rfl := Option.some.inj ht'
        rw [← FsState.unmarked_take hlt]
        exact ⟨ht, hmin'⟩
      · intro i hi
        rw [FsState.write_disk, Disk.write_ne _ _ htable]
        exact hslot i hi
    · -- only the inode got a block
      obtain ⟨s', hplace, -⟩ := ok.placeEntry_eq hn hdir hlen hname env
        (newDirInode env mode (-enospc)) (s := st.take b) rfl hlt hunmarked
      refine .inl ⟨?_, by simp only [halloc, halloc', hplace, put_enospc, bind, Except.bind]⟩
      rw [FsState.unmarked_take hlt] at hempty
      have := Finset.card_erase_add_one hb
      simp [hempty] at this
      omega
  · exact .inl ⟨by simp [hempty], mkdirRest_full hempty env mode _ _⟩

end Rest

theorem newObject_file (env : Env) (mode : UInt32) : NewObject (newFileInode env mode) none :=
  ⟨sIsdir_reg mode, rfl, fun _ => rfl⟩

theorem newObject_dir (env : Env) {mode : UInt32}
    (h : mode &&& sIfmt = 0 ∨ mode &&& sIfmt = sIfdir) {t : Nat} (ht : t < 32768) :
    NewObject (newDirInode env mode t) (some t) :=
  ⟨sIsdir_dir h, toNat_ofInt (by omega)⟩


/-! ## The whole calls -/

section Calls
variable {st : FsState} (ok : TreeOk st) (env : Env) (p : CanonPath) (mode : UInt32)
include ok

theorem TreeOk.fsCreate_cases :
    (∃ r, r < 0 ∧ r ≠ -enospc ∧ (¬ ∃ n, ReadyIn st p n) ∧
      fsCreate env p.bytes mode st = .ok (r, st) ∧ r = openError st.disk p) ∨
    ∃ n, ReadyIn st p n ∧
      ((st.unmarked = ∅ ∧ fsCreate env p.bytes mode st = .error .assertion) ∨
      ∃ b st', fsCreate env p.bytes mode st = .ok (0, st') ∧
        FirstFit st.unmarked st'.unmarked ∧
        Placed st st' n b p.last none (newFileInode env mode) ∧
        FirstFree st st' n b p.last none) := by
  rcases ok.openParent_cases p env with
    ⟨r, hr, hne, hno, heq, hcode⟩ | ⟨n, filename, ready, hname, heq⟩
  · exact .inl ⟨r, hr, hne, hno, by rw [fsCreate_eq, heq], hcode⟩
  · refine .inr ⟨n, ready, ?_⟩
    rw [fsCreate_eq, heq]
    exact ok.createRest_cases ready.live ready.dir p.storable.le hname env mode

theorem TreeOk.fsMkdir_cases :
    (∃ r, r < 0 ∧ r ≠ -enospc ∧ (¬ ∃ n, ReadyIn st p n) ∧
      fsMkdir env p.bytes mode st = .ok (r, st) ∧ r = openError st.disk p) ∨
    ∃ n, ReadyIn st p n ∧
      ((st.unmarked.card < 2 ∧ fsMkdir env p.bytes mode st = .error .assertion) ∨
      ∃ b t st', fsMkdir env p.bytes mode st = .ok (0, st') ∧ t < 32768 ∧
        FirstFit st.unmarked st'.unmarked ∧
        Placed st st' n b p.last (some t) (newDirInode env mode t) ∧
        FirstFree st st' n b p.last (some t)) := by
  rcases ok.openParent_cases p env with
    ⟨r, hr, hne, hno, heq, hcode⟩ | ⟨n, filename, ready, hname, heq⟩
  · exact .inl ⟨r, hr, hne, hno, by rw [fsMkdir_eq, heq], hcode⟩
  · refine .inr ⟨n, ready, ?_⟩
    rw [fsMkdir_eq, heq]
    exact ok.mkdirRest_cases ready.live ready.dir p.storable.le hname env mode

variable {p}

/-- With an unmarked block `fs_create` of a new name returns 0. -/
theorem ReadyIn.fsCreate_ok {n : Nat} (ready : ReadyIn st p n) (hfree : st.unmarked.Nonempty) :
    ∃ b st', fsCreate env p.bytes mode st = .ok (0, st') ∧
      Placed st st' n b p.last none (newFileInode env mode) ∧ FirstFree st st' n b p.last none := by
  rcases ok.fsCreate_cases env p mode with
    ⟨r, -, -, hno, -⟩ | ⟨m, ready', ⟨hempty, -⟩ | ⟨b, st', hrun, -, hplaced, hfirst⟩⟩
  · exact absurd ⟨n, ready⟩ hno
  · exact absurd hempty hfree.ne_empty
  · obtain rfl := Except.ok.inj (ready'.resolved.symm.trans ready.resolved)
    exact ⟨b, st', hrun, hplaced, hfirst⟩

/-- What a call that returned 0 has done. -/
theorem TreeOk.fsCreate_zero {st' : FsState} (h : fsCreate env p.bytes mode st = .ok (0, st')) :
    ∃ n b, ReadyIn st p n ∧ Placed st st' n b p.last none (newFileInode env mode) ∧
      FirstFree st st' n b p.last none := by
  rcases ok.fsCreate_cases env p mode with
    ⟨r, hr, -, -, hrun, -⟩ | ⟨n, ready, ⟨-, hrun⟩ | ⟨b, s, hrun, -, hplaced, hfirst⟩⟩
  · have hcode := (Prod.mk.inj (Except.ok.inj (hrun.symm.trans h))).1
    omega
  · simp [hrun] at h
  · obtain ⟨-, rfl⟩ := Prod.mk.inj (Except.ok.inj (hrun.symm.trans h))
    exact ⟨n, b, ready, hplaced, hfirst⟩

theorem TreeOk.fsMkdir_zero {st' : FsState} (h : fsMkdir env p.bytes mode st = .ok (0, st')) :
    ∃ n b t, ReadyIn st p n ∧ t < 32768 ∧
      Placed st st' n b p.last (some t) (newDirInode env mode t) ∧
      FirstFree st st' n b p.last (some t) := by
  rcases ok.fsMkdir_cases env p mode with
    ⟨r, hr, -, -, hrun, -⟩ | ⟨n, ready, ⟨-, hrun⟩ | ⟨b, t, s, hrun, ht, -, hplaced, hfirst⟩⟩
  · have hcode := (Prod.mk.inj (Except.ok.inj (hrun.symm.trans h))).1
    omega
  · simp [hrun] at h
  · obtain ⟨-, rfl⟩ := Prod.mk.inj (Except.ok.inj (hrun.symm.trans h))
    exact ⟨n, b, t, ready, ht, hplaced, hfirst⟩

end Calls

end SystemsProjects.Fs5600
