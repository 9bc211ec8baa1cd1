import SystemsProjects.Fs5600.Update

/-!
# Removing files and directories

`fs_unlink` and `fs_rmdir` on a tree in order. The error exits come before the first change; past
them the blocks of the object are unmarked, its entry is cleared and the parent directory gets a
new modification time.
-/

namespace SystemsProjects.Fs5600
open SystemsProjects.Lib

/-! ## Giving blocks back -/

theorem freeBlk_release (st : FsState) {b : Nat} (h : b < 32768) :
    freeBlk st b = .ok (st.release b) := freeBlk_of_lt st h

/-- The blocks a file refers to are those behind its nonzero pointers. -/
theorem refs_file_iff {d : Disk} {b x : Nat} (hfile : isDirAt d b = false) :
    (∀ l, refs d b l ≠ some x) ↔
      ∀ j ∈ List.finRange 1019, (inodeAt d b).ptrs j ≠ 0 → x ≠ ((inodeAt d b).ptrs j).toNat := by
  constructor
  · rintro h j - hj rfl
    exact h (.data j) (refs_data hfile hj)
  · intro h l hl
    cases l with
    | table => simp [refs, hfile] at hl
    | slot j => simp [refs, hfile] at hl
    | data j =>
      by_cases hj : (inodeAt d b).ptrs j = 0
      · simp [refs, hfile, hj] at hl
      · rw [refs_data hfile hj] at hl
        exact h j (List.mem_finRange j) hj (Option.some.inj hl).symm

/-- What an empty directory refers to: its entry block. -/
theorem refs_dir_iff {d : Disk} {b x : Nat} (hdir : isDirAt d b = true)
    (hempty : ∀ j, (entriesAt d b j).valid = false) :
    (∀ l, refs d b l ≠ some x) ↔ x ≠ tableOf d b := by
  constructor
  · rintro h rfl
    exact h .table (refs_table hdir)
  · intro h l hl
    cases l with
    | table => exact h (Option.some.inj ((refs_table hdir).symm.trans hl)).symm
    | slot j => simp [refs, hempty] at hl
    | data j => simp [refs, hdir] at hl

/-- The loop over the pointers of a file unmarks the blocks behind the nonzero ones. -/
theorem freePtrs_eq (ino : Inode) (is : List (Fin 1019)) :
    ∀ st : FsState, (∀ i ∈ is, ino.ptrs i ≠ 0 → (ino.ptrs i).toNat < 32768) →
      ∃ st', freePtrs ino is st = .ok st' ∧ st'.disk = st.disk ∧ st'.numBlocks = st.numBlocks ∧
        ∀ x, Marked st' x ↔ Marked st x ∧ ∀ i ∈ is, ino.ptrs i ≠ 0 → x ≠ (ino.ptrs i).toNat := by
  induction is with
  | nil => intro st _; exact ⟨st, rfl, rfl, rfl, by simp⟩
  | cons i is ih =>
    intro st hlt
    unfold freePtrs
    by_cases hi : ino.ptrs i = 0
    · obtain ⟨st', hrun, hdisk, hnum, hmark⟩ := ih st fun j hj => hlt j (by simp [hj])
      refine ⟨st', by simp [hi, hrun], hdisk, hnum, fun x => ?_⟩
      simp [hmark x, hi]
    · have hb := hlt i (by simp) hi
      have hfree : freeBlk st (asInt (ino.ptrs i)) = .ok (st.release (ino.ptrs i).toNat) := by
        rw [asInt_of_lt (by omega), freeBlk_release st hb]
      obtain ⟨st', hrun, hdisk, hnum, hmark⟩ := ih (st.release (ino.ptrs i).toNat)
        fun j hj => hlt j (by simp [hj])
      refine ⟨st', by simp [hi, hfree, hrun, bind, Except.bind], hdisk, hnum, fun x => ?_⟩
      rw [hmark x, st.marked_release hb]
      simp only [List.mem_cons, forall_eq_or_imp]
      tauto

/-! ## The object behind a path -/

/-- `p` names the object `b`, through slot `i` of directory `n`. -/
structure NamedBy (st : FsState) (p : CanonPath) (n b : Nat) (i : Fin 128) : Prop where
  resolved : resolve st.disk 2 p.dirs = .ok n
  dir : isDirAt st.disk n = true
  slot : lookup st.disk n p.last = some i
  target : (entriesAt st.disk n i).inode.toNat = b

theorem NamedBy.live {st : FsState} {p : CanonPath} {n b : Nat} {i : Fin 128}
    (h : NamedBy st p n b i) : Live st.disk n := resolve_live .root h.resolved

theorem NamedBy.valid {st : FsState} {p : CanonPath} {n b : Nat} {i : Fin 128}
    (h : NamedBy st p n b i) : (entriesAt st.disk n i).valid = true := (lookup_eq_some h.slot).1

theorem CanonPath.namedBy {st : FsState} (p : CanonPath) {b : Nat}
    (h : resolve st.disk 2 p.comps = .ok b) : ∃ n i, NamedBy st p n b i := by
  cases hd : resolve st.disk 2 p.dirs with
  | error e =>
    unfold CanonPath.comps at h
    rw [resolve_append, hd] at h
    simp at h
  | ok n =>
    rw [p.resolve_last hd, resolve] at h
    cases hdir : isDirAt st.disk n with
    | false => simp [hdir] at h
    | true =>
      cases hl : lookup st.disk n p.last with
      | none => simp [hdir, hl] at h
      | some i =>
        simp only [hdir, hl, Bool.not_true, Bool.false_eq_true, if_false, resolve,
          Except.ok.injEq] at h
        exact ⟨n, i, hd, hdir, hl, h⟩

/-! ## The blocks a removal changes -/

/-- `st'` is `st` with the entry in slot `i` of directory `n` cleared, the blocks of the object
`b` behind it unmarked, and the modification time of `n` set. -/
structure Cleared (st st' : FsState) (time : UInt32) (n b : Nat) (i : Fin 128) : Prop where
  inode : inodeAt st'.disk n = { inodeAt st.disk n with mtime := time }
  table : st'.disk.data (tableOf st.disk n) = encodeDirents
    (Function.update (entriesAt st.disk n) i { entriesAt st.disk n i with valid := false })
  frame : ∀ x, x ≠ n → x ≠ tableOf st.disk n → st'.disk.data x = st.disk.data x
  marked : ∀ x, Marked st' x ↔ Marked st x ∧ x ≠ b ∧ ∀ l, refs st.disk b l ≠ some x
  len : st.disk.len ≤ st'.disk.len
  numBlocks : st'.numBlocks = st.numBlocks

section Cleared
variable {st st' : FsState} {time : UInt32} {p : CanonPath} {n b : Nat} {i : Fin 128}
  (h : Cleared st st' time n b i)
include h

theorem Cleared.unlinkStep (ok : TreeOk st) (named : NamedBy st p n b i)
    (hempty : ∀ j, isDirAt st.disk b = true → (entriesAt st.disk b j).valid = false) :
    UnlinkStep st st' n b i := by
  have hn := named.live
  have htable : tableOf st'.disk n = tableOf st.disk n := by unfold tableOf; rw [h.inode]
  refine
    { live := hn, dir := named.dir, valid := named.valid, target := named.target,
      empty := hempty, len := h.len, table' := htable, same := ?_, dir' := ?_, entries' := ?_,
      mark := ?_ }
  · intro m hm hmn
    refine ⟨h.frame m hmn (ok.live_ne_table hm hn named.dir), fun hdir => ?_⟩
    exact h.frame _ (ok.live_ne_table hn hm hdir).symm
      fun he => hmn (ok.table_inj hm hdir hn named.dir he)
  · unfold isDirAt
    rw [h.inode]
    exact named.dir
  · show decodeDirents (st'.disk.data (tableOf st'.disk n)) = _
    rw [htable, h.table, decodeDirents_encodeDirents]
  · intro x hx
    rw [h.marked]
    have hb : Live st.disk b := named.target ▸ hn.slot_live named.dir named.valid
    have hlow :
        ∀ y, y < 2 → Marked st y → Marked st y ∧ y ≠ b ∧ ∀ l, refs st.disk b l ≠ some y := by
      intro y hy hmark
      refine ⟨hmark, ?_, fun l hl => ?_⟩
      · have := ok.two_le hb.owned
        omega
      · have := ok.two_le (hb.owned_out hl)
        omega
    rcases hx with rfl | rfl | ⟨hu, hx⟩
    · exact hlow 0 (by omega) ok.reserved.1
    · exact hlow 1 (by omega) ok.reserved.2.1
    · exact ⟨(ok.used x hu).2.2.1, hx⟩

end Cleared

theorem clearDirent_eq {d : Disk} {n : Nat} {c filename : List UInt8} {i : Fin 128}
    (hl : lookup d n c = some i) (hname : cstr filename = some c) (hlen : c.length < 28) :
    clearDirent (entriesAt d n) filename =
      .ok (Function.update (entriesAt d n) i { entriesAt d n i with valid := false }) := by
  have hfin : Fin.ofNat 128 (Int.toNat (i.val : Int)) = i := by
    apply Fin.ext
    simp
  unfold clearDirent
  rw [getDirentIndex_eq hname hlen, hl]
  simp only [bind, Except.bind, hfin]
  rw [if_neg (by omega)]

/-! ## The parent directory -/

/-- The end of both calls up to the point where their order differs. `j` numbers the buffer of
the last component among the locals. -/
def findParent (env : Env) (path : List UInt8) (j : Nat) (st : FsState)
    (k : Int → Inode → (Fin 27 → UInt8) → Except Fault (Int × FsState)) :
    Except Fault (Int × FsState) := do
  let parentDir ← getParentPath 270 path
  let (_, filename) ← getLastFilename (env.call 1) path (env.bytes 27 j)
  let parentInum ← pathToInum (env.call 2) st.disk parentDir
  let parentInode :=
    { decodeInode (st.get (env.junk [j + 1]) parentInum) with mtime := env.time }
  k parentInum parentInode filename

/-- `fs_unlink` with the parent directory at hand: its inode is written first. -/
def unlinkTail (env : Env) (st : FsState) (parentInum : Int) (parentInode : Inode)
    (filename : Fin 27 → UInt8) : Except Fault (Int × FsState) := do
  let st ← st.put (encodeInode parentInode) parentInum
  let entries := decodeDirents (st.get (env.junk [3]) (asInt (parentInode.ptrs 0)))
  let entries ← clearDirent entries (bytesFrom filename 0)
  let st ← st.put (encodeDirents entries) (asInt (parentInode.ptrs 0))
  .ok (0, st)

/-- `fs_rmdir` with the parent directory at hand: its entries are written first. -/
def rmdirTail (env : Env) (st : FsState) (parentInum : Int) (parentInode : Inode)
    (filename : Fin 27 → UInt8) : Except Fault (Int × FsState) := do
  let parentEntries := decodeDirents (st.get (env.junk [4]) (asInt (parentInode.ptrs 0)))
  let parentEntries ← clearDirent parentEntries (bytesFrom filename 0)
  let st ← st.put (encodeDirents parentEntries) (asInt (parentInode.ptrs 0))
  let st ← st.put (encodeInode parentInode) parentInum
  .ok (0, st)

/-- `fs_unlink` from the type test on. -/
def unlinkRest (env : Env) (path : List UInt8) (st : FsState) (fileInum : Int)
    (fileInode : Inode) : Except Fault (Int × FsState) :=
  if sIsdir fileInode.mode then .ok (-eisdir, st)
  else do
    let st ← freeBlk st fileInum
    let st ← freePtrs fileInode (List.finRange 1019) st
    findParent env path 1 st (unlinkTail env st)

/-- `fs_rmdir` from the type test on. -/
def rmdirRest (env : Env) (path : List UInt8) (st : FsState) (fileInum : Int)
    (fileInode : Inode) : Except Fault (Int × FsState) :=
  if !sIsdir fileInode.mode then .ok (-enotdir, st)
  else
    let entries := decodeDirents (st.get (env.junk [1]) (asInt (fileInode.ptrs 0)))
    if (List.finRange 128).any fun i => (entries i).valid then .ok (-enotempty, st)
    else do
      let st ← freeBlk st fileInum
      let st ← freeBlk st (asInt (fileInode.ptrs 0))
      findParent env path 2 st (rmdirTail env st)

theorem fsUnlink_eq (env : Env) (path : List UInt8) (st : FsState) :
    fsUnlink env path st = withInode env path st (unlinkRest env path st) := rfl

theorem fsRmdir_eq (env : Env) (path : List UInt8) (st : FsState) :
    fsRmdir env path st = withInode env path st (rmdirRest env path st) := rfl

/-- From a state with the same disk, `findParent` finds the directory of the path. -/
theorem TreeOk.findParent_eq {st : FsState} (ok : TreeOk st) {dirs : List (List UInt8)}
    {c : List UInt8} (hp : Storable dirs c) {n : Nat} (hres : resolve st.disk 2 dirs = .ok n)
    (env : Env) (j : Nat) : ∃ filename : Fin 27 → UInt8, Stored c filename ∧
      ∀ s : FsState, s.disk = st.disk → ∀ k, findParent env (render (dirs ++ [c])) j s k =
        k n { inodeAt st.disk n with mtime := env.time } filename := by
  have hn : Live st.disk n := resolve_live .root hres
  obtain ⟨filename, hlast, hstored, -⟩ := hp.getLastFilename_eq (env.call 1) (env.bytes 27 j)
  have hdirs := hp.pathToInum_parent ok (env.call 2)
  rw [hres] at hdirs
  refine ⟨filename, hstored, fun s hs k => ?_⟩
  have hget : s.get (env.junk [j + 1]) n = st.disk.data n := by
    rw [s.get_of_lt _ (ok.lt hn.owned) (by rw [hs]; exact ok.lt_len hn.owned), hs]
  simp only [findParent, hp.getParentPath_eq 270 le_rfl, hlast, hs, hdirs, bind, Except.bind,
    codeOf, hget]
  rfl

/-- `fs_unlink` on a file: its inode and the blocks behind its pointers are given back, then the
entry is looked for. -/
theorem TreeOk.unlinkRest_eq {st : FsState} (ok : TreeOk st) (env : Env) {path : List UInt8}
    {n b : Nat} (hn : Live st.disk n) (hdir : isDirAt st.disk n = true) (hb : Live st.disk b)
    (hfile : isDirAt st.disk b = false) {filename : Fin 27 → UInt8}
    (hfind : ∀ s : FsState, s.disk = st.disk → ∀ k, findParent env path 1 s k =
      k n { inodeAt st.disk n with mtime := env.time } filename) :
    ∃ s : FsState, s.disk = st.disk ∧ s.numBlocks = st.numBlocks ∧
      (∀ x, Marked s x ↔ Marked st x ∧ x ≠ b ∧ ∀ l, refs st.disk b l ≠ some x) ∧
      unlinkRest env path st b (inodeAt st.disk b) =
        (clearDirent (entriesAt st.disk n) (bytesFrom filename 0) >>= fun es =>
          .ok (0, (s.write n (encodeInode { inodeAt st.disk n with mtime := env.time })).write
            (tableOf st.disk n) (encodeDirents es))) := by
  have huse := hn.table_inUse hdir
  have hnt := ok.live_ne_table hn hn hdir
  have hptr : ∀ j ∈ List.finRange 1019, (inodeAt st.disk b).ptrs j ≠ 0 →
      ((inodeAt st.disk b).ptrs j).toNat < 32768 := fun j _ hj => ok.lt (hb.data_inUse hfile hj)
  obtain ⟨s, hfree, hdisk, hnum, hmark⟩ := freePtrs_eq (inodeAt st.disk b) (List.finRange 1019)
    (st.release b) hptr
  rw [FsState.release_disk] at hdisk
  have hfind := hfind s hdisk
  generalize hino : ({ inodeAt st.disk n with mtime := env.time } : Inode) = ino at hfind
  have hput := s.put_of_lt (encodeInode ino) (n := n) (ok.pos hn.owned) (ok.lt hn.owned)
  have hptr0 : asInt (ino.ptrs 0) = tableOf st.disk n := by
    rw [← hino]
    exact ok.asInt_table hn hdir
  have hents : decodeDirents ((s.write n (encodeInode ino)).get (env.junk [3])
      (tableOf st.disk n)) = entriesAt st.disk n := by
    rw [FsState.get_of_lt _ _ (ok.lt huse), FsState.write_disk, Disk.write_ne _ _ hnt.symm, hdisk]
    · rfl
    · rw [FsState.write_disk, Disk.lt_write_len, hdisk]
      exact .inl (ok.lt_len huse)
  have hput' := fun es => (s.write n (encodeInode ino)).put_of_lt (encodeDirents es) (ok.pos huse)
    (ok.lt huse)
  have hmode : sIsdir (inodeAt st.disk b).mode = false := hfile
  refine ⟨s, hdisk, hnum, fun x => ?_, ?_⟩
  · rw [hmark x, st.marked_release (ok.lt hb.owned), and_assoc, refs_file_iff hfile]
  · simp only [unlinkRest, hmode, Bool.false_eq_true, if_false,
      freeBlk_release st (ok.lt hb.owned), hfree, ok_bind, hfind, unlinkTail, hput, hptr0, hents,
      hput']

section Rest
variable {st : FsState} (ok : TreeOk st) {p : CanonPath} {n b : Nat} {i : Fin 128}
  (named : NamedBy st p n b i)
include ok named

/-- The inode and the entry block of the directory written to a state with the blocks of the object
unmarked. -/
theorem NamedBy.cleared {s : FsState} {time : UInt32} (hdisk : s.disk = st.disk)
    (hnum : s.numBlocks = st.numBlocks)
    (hmark : ∀ x, Marked s x ↔ Marked st x ∧ x ≠ b ∧ ∀ l, refs st.disk b l ≠ some x) :
    Cleared st ((s.write n (encodeInode { inodeAt st.disk n with mtime := time })).write
      (tableOf st.disk n) (encodeDirents (Function.update (entriesAt st.disk n) i
        { entriesAt st.disk n i with valid := false }))) time n b i := by
  have hnt := ok.live_ne_table named.live named.live named.dir
  refine
    { table := by rw [FsState.write_disk, Disk.write_same], numBlocks := hnum, inode := ?_,
      frame := ?_, marked := ?_, len := ?_ }
  · unfold inodeAt
    rw [FsState.write_disk, Disk.write_ne _ _ hnt, FsState.write_disk, Disk.write_same,
      decodeInode_encodeInode]
  · intro x hxn hxt
    rw [FsState.write_disk, Disk.write_ne _ _ hxt, FsState.write_disk, Disk.write_ne _ _ hxn,
      hdisk]
  · intro x
    rw [FsState.marked_write, FsState.marked_write, hmark x]
  · rw [FsState.write_disk, FsState.write_disk, hdisk]
    exact le_trans (le_max_left _ _) (le_max_left _ _)

/-- Unlinking a file gives back its inode and the blocks behind its pointers. -/
theorem NamedBy.unlink_eq (env : Env) (hfile : isDirAt st.disk b = false) :
    ∃ st', unlinkRest env p.bytes st b (inodeAt st.disk b) = .ok (0, st') ∧
      Cleared st st' env.time n b i := by
  have hb : Live st.disk b := named.target ▸ named.live.slot_live named.dir named.valid
  obtain ⟨filename, hstored, hfind⟩ := ok.findParent_eq p.storable named.resolved env 1
  obtain ⟨s, hdisk, hnum, hmark, hrun⟩ :=
    ok.unlinkRest_eq env named.live named.dir hb hfile hfind
  have hclear := clearDirent_eq named.slot (hstored.cstr_eq le_rfl p.last_component)
    (Nat.lt_succ_of_le p.storable.le)
  exact ⟨_, hrun.trans (by rw [hclear, ok_bind]), named.cleared ok hdisk hnum hmark⟩

/-- Removing an empty directory gives back its inode and its entry block, the only block it
refers to. -/
theorem NamedBy.rmdir_eq (env : Env) (hdir : isDirAt st.disk b = true)
    (hempty : ∀ j, (entriesAt st.disk b j).valid = false) :
    ∃ st', rmdirRest env p.bytes st b (inodeAt st.disk b) = .ok (0, st') ∧
      Cleared st st' env.time n b i := by
  have hn := named.live
  have hb : Live st.disk b := named.target ▸ hn.slot_live named.dir named.valid
  have huse := hn.table_inUse named.dir
  have hbuse := hb.table_inUse hdir
  have hnt := ok.live_ne_table hn hn named.dir
  obtain ⟨filename, hstored, hparent⟩ := ok.findParent_eq p.storable named.resolved env 2
  have hfind : ∀ k, findParent env p.bytes 2 ((st.release b).release (tableOf st.disk b)) k =
      k n { inodeAt st.disk n with mtime := env.time } filename := hparent _ rfl
  generalize hino : ({ inodeAt st.disk n with mtime := env.time } : Inode) = ino at hfind
  have hptr0 : asInt (ino.ptrs 0) = tableOf st.disk n := by
    rw [← hino]
    exact ok.asInt_table hn named.dir
  have hown := ok.get_entries hb hdir (env.junk [1])
  have hany : (List.finRange 128).any (fun i => (entriesAt st.disk b i).valid) = false := by
    simp [hempty]
  generalize hs : (st.release b).release (tableOf st.disk b) = s at hfind
  have hdisk : s.disk = st.disk := by rw [← hs]; rfl
  have hents : decodeDirents (s.get (env.junk [4]) (tableOf st.disk n)) = entriesAt st.disk n := by
    rw [s.get_of_lt _ (ok.lt huse) (by rw [hdisk]; exact ok.lt_len huse), hdisk]
    rfl
  have hclear := clearDirent_eq named.slot (hstored.cstr_eq le_rfl p.last_component)
    (Nat.lt_succ_of_le p.storable.le)
  have hput := s.put_of_lt (encodeDirents (Function.update (entriesAt st.disk n) i
    { entriesAt st.disk n i with valid := false })) (ok.pos huse) (ok.lt huse)
  generalize hes : Function.update (entriesAt st.disk n) i
    { entriesAt st.disk n i with valid := false } = es at hclear hput
  have hput' := (s.write (tableOf st.disk n) (encodeDirents es)).put_of_lt (encodeInode ino)
    (n := n) (ok.pos hn.owned) (ok.lt hn.owned)
  refine ⟨(s.write (tableOf st.disk n) (encodeDirents es)).write n (encodeInode ino), ?_, ?_⟩
  · have hmode : sIsdir (inodeAt st.disk b).mode = true := hdir
    have hfree : freeBlk (st.release b) (tableOf st.disk b) = .ok s := by
      rw [← hs]
      exact freeBlk_release _ (ok.lt hbuse)
    simp only [rmdirRest, hmode, Bool.not_true, Bool.false_eq_true, if_false,
      ok.asInt_table hb hdir, hown, hany, freeBlk_release st (ok.lt hb.owned), hfree, ok_bind,
      hfind, rmdirTail, hptr0, hents, hclear, hput, hput']
  · have hmark : ∀ x, Marked s x ↔ Marked st x ∧ x ≠ b ∧ ∀ l, refs st.disk b l ≠ some x := by
      intro x
      rw [← hs, FsState.marked_release _ (ok.lt hbuse), st.marked_release (ok.lt hb.owned),
        and_assoc, refs_dir_iff hdir hempty]
    rw [FsState.write_comm _ _ _ hnt.symm, ← hes, ← hino]
    exact named.cleared ok hdisk (by rw [← hs]; rfl) hmark

end Rest

theorem TreeOk.rmdirRest_full {st : FsState} (ok : TreeOk st) (env : Env) (path : List UInt8)
    {b : Nat} (hb : Live st.disk b) (hdir : isDirAt st.disk b = true)
    (hfull : ¬ ∀ j, (entriesAt st.disk b j).valid = false) :
    rmdirRest env path st b (inodeAt st.disk b) = .ok (-enotempty, st) := by
  have hown := ok.get_entries hb hdir (env.junk [1])
  have hmode : sIsdir (inodeAt st.disk b).mode = true := hdir
  have hany : (List.finRange 128).any (fun i => (entriesAt st.disk b i).valid) = true := by
    simpa using hfull
  simp only [rmdirRest, hmode, Bool.not_true, Bool.false_eq_true, if_false,
    ok.asInt_table hb hdir, hown, hany, if_true]

/-! ## The whole calls -/

theorem NamedBy.resolve_eq {st : FsState} {p : CanonPath} {n b : Nat} {i : Fin 128}
    (h : NamedBy st p n b i) : resolve st.disk 2 p.comps = .ok b := by
  rw [p.resolve_last h.resolved]
  show resolve st.disk n [p.last] = _
  rw [resolve_cons_some h.dir h.slot, h.target, resolve_nil]

/-- A path that does not resolve names nothing. -/
theorem NamedBy.not_error {st : FsState} {p : CanonPath} {n b : Nat} {i : Fin 128} {e : Int}
    (h : NamedBy st p n b i) : resolve st.disk 2 p.comps ≠ .error e := by
  simp [h.resolve_eq]

/-- A path that resolves names nothing else. -/
theorem NamedBy.target_eq {st : FsState} {p : CanonPath} {n b b' : Nat} {i : Fin 128}
    (h : NamedBy st p n b i) (hres : resolve st.disk 2 p.comps = .ok b') : b' = b :=
  Except.ok.inj (hres.symm.trans h.resolve_eq)

theorem NamedBy.live_target {st : FsState} {p : CanonPath} {n b : Nat} {i : Fin 128}
    (h : NamedBy st p n b i) : Live st.disk b := resolve_live .root h.resolve_eq

/-- The call runs on with the inode of the object. -/
theorem NamedBy.withInode_eq {st : FsState} (ok : TreeOk st) {p : CanonPath} {n b : Nat}
    {i : Fin 128} (named : NamedBy st p n b i) (env : Env)
    (k : Int → Inode → Except Fault (Int × FsState)) :
    withInode env p.bytes st k = k b (inodeAt st.disk b) := by
  rcases ok.withInode_cases env p with ⟨e, hres, -, -⟩ | ⟨b', hres, -, heq⟩
  · exact absurd hres named.not_error
  · obtain rfl := named.target_eq hres
    exact heq k

theorem NamedBy.fsUnlink_ok {st : FsState} (ok : TreeOk st) {p : CanonPath} {n b : Nat}
    {i : Fin 128} (named : NamedBy st p n b i) (hfile : isDirAt st.disk b = false) (env : Env) :
    ∃ st', fsUnlink env p.bytes st = .ok (0, st') ∧ Cleared st st' env.time n b i := by
  rw [fsUnlink_eq, named.withInode_eq ok]
  exact named.unlink_eq ok env hfile

theorem NamedBy.fsRmdir_ok {st : FsState} (ok : TreeOk st) {p : CanonPath} {n b : Nat}
    {i : Fin 128} (named : NamedBy st p n b i) (hdir : isDirAt st.disk b = true)
    (hempty : ∀ j, (entriesAt st.disk b j).valid = false) (env : Env) :
    ∃ st', fsRmdir env p.bytes st = .ok (0, st') ∧ Cleared st st' env.time n b i := by
  rw [fsRmdir_eq, named.withInode_eq ok]
  exact named.rmdir_eq ok env hdir hempty

section Calls
variable {st : FsState} (ok : TreeOk st) (env : Env) (p : CanonPath)
include ok

/-- `fs_unlink` fails with nothing changed unless the path names a file. -/
theorem TreeOk.fsUnlink_cases :
    (∃ r, r < 0 ∧ fsUnlink env p.bytes st = .ok (r, st) ∧
      ¬ ∃ n b i, NamedBy st p n b i ∧ isDirAt st.disk b = false) ∨
    ∃ n b i st', NamedBy st p n b i ∧ isDirAt st.disk b = false ∧
      fsUnlink env p.bytes st = .ok (0, st') ∧ Cleared st st' env.time n b i := by
  rw [fsUnlink_eq]
  rcases ok.withInode_cases env p with ⟨e, hres, he, heq⟩ | ⟨b, hres, hb, heq⟩
  · refine .inl ⟨e, codeOf_error_neg hres, heq _, ?_⟩
    rintro ⟨n, b, i, named, -⟩
    exact named.not_error hres
  · rw [heq]
    cases hfile : isDirAt st.disk b with
    | true =>
      have hmode : sIsdir (inodeAt st.disk b).mode = true := hfile
      refine .inl ⟨-eisdir, by decide, by rw [unlinkRest, if_pos hmode], ?_⟩
      rintro ⟨n, b', i, named, hfile'⟩
      obtain rfl := named.target_eq hres
      simp [hfile] at hfile'
    | false =>
      obtain ⟨n, i, named⟩ := p.namedBy hres
      obtain ⟨st', hrun, hclear⟩ := named.unlink_eq ok env hfile
      exact .inr ⟨n, b, i, st', named, hfile, hrun, hclear⟩

/-- `fs_rmdir` fails with nothing changed unless the path names an empty directory. -/
theorem TreeOk.fsRmdir_cases :
    (∃ r, r < 0 ∧ fsRmdir env p.bytes st = .ok (r, st) ∧
      ¬ ∃ n b i, NamedBy st p n b i ∧ isDirAt st.disk b = true ∧
        ∀ j, (entriesAt st.disk b j).valid = false) ∨
    ∃ n b i st', NamedBy st p n b i ∧ isDirAt st.disk b = true ∧
      (∀ j, (entriesAt st.disk b j).valid = false) ∧
      fsRmdir env p.bytes st = .ok (0, st') ∧ Cleared st st' env.time n b i := by
  rw [fsRmdir_eq]
  rcases ok.withInode_cases env p with ⟨e, hres, he, heq⟩ | ⟨b, hres, hb, heq⟩
  · refine .inl ⟨e, codeOf_error_neg hres, heq _, ?_⟩
    rintro ⟨n, b, i, named, -⟩
    exact named.not_error hres
  · rw [heq]
    cases hdir : isDirAt st.disk b with
    | false =>
      have hmode : (!sIsdir (inodeAt st.disk b).mode) = true := by
        rw [show sIsdir (inodeAt st.disk b).mode = false from hdir, Bool.not_false]
      refine .inl ⟨-enotdir, by decide, by rw [rmdirRest, if_pos hmode], ?_⟩
      rintro ⟨n, b', i, named, hdir', -⟩
      obtain rfl := named.target_eq hres
      simp [hdir] at hdir'
    | true =>
      by_cases hempty : ∀ j, (entriesAt st.disk b j).valid = false
      · obtain ⟨n, i, named⟩ := p.namedBy hres
        obtain ⟨st', hrun, hclear⟩ := named.rmdir_eq ok env hdir hempty
        exact .inr ⟨n, b, i, st', named, hdir, hempty, hrun, hclear⟩
      · refine .inl ⟨-enotempty, by decide, ok.rmdirRest_full env p.bytes hb hdir hempty, ?_⟩
        rintro ⟨n, b', i, named, -, hempty'⟩
        obtain rfl := named.target_eq hres
        exact hempty hempty'

end Calls

end SystemsProjects.Fs5600
