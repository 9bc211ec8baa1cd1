import SystemsProjects.Fs5600.Remove

/-!
# Changing an object in place

`fs_chmod`, `fs_utime`, `fs_rename` and `fs_truncate` on a tree in order. The first two rewrite
one inode and keep its references; `fs_rename` rewrites one entry block and keeps its references;
`fs_truncate` gives all data blocks of a file back.
-/

namespace SystemsProjects.Fs5600
open SystemsProjects.Lib

/-! ## Rewriting an inode -/

section WriteInode
variable {st : FsState} (ok : TreeOk st) {b : Nat} (hb : Live st.disk b) {ino : Inode}
  (hptrs : ino.ptrs = (inodeAt st.disk b).ptrs) (hdir : sIsdir ino.mode = isDirAt st.disk b)

theorem inodeAt_write_self (d : Disk) (n : Nat) (ino : Inode) :
    inodeAt (d.write n (encodeInode ino)) n = ino := by
  unfold inodeAt
  rw [Disk.write_same, decodeInode_encodeInode]

include ok hb hptrs

/-- The entries of a directory do not depend on what else its inode says. -/
theorem TreeOk.entriesAt_write_inode {m : Nat} (hm : Live st.disk m)
    (hmdir : isDirAt st.disk m = true) :
    entriesAt (st.disk.write b (encodeInode ino)) m = entriesAt st.disk m := by
  by_cases hmb : m = b
  · subst hmb
    have htable : tableOf (st.disk.write m (encodeInode ino)) m = tableOf st.disk m := by
      unfold tableOf
      rw [inodeAt_write_self, hptrs]
    unfold entriesAt
    rw [htable, Disk.write_ne _ _ (ok.live_ne_table hm hm hmdir).symm]
  · exact (ok.sameNode_write_inode hb hm hmb).entriesAt hmdir

include hdir

theorem TreeOk.refs_write_inode {m : Nat} (hm : Live st.disk m) :
    refs (st.disk.write b (encodeInode ino)) m = refs st.disk m := by
  by_cases hmb : m = b
  · subst hmb
    have hino := inodeAt_write_self st.disk m ino
    have hdir' : isDirAt (st.disk.write m (encodeInode ino)) m = isDirAt st.disk m := by
      unfold isDirAt
      rw [hino]
      exact hdir
    funext l
    cases hmdir : isDirAt st.disk m with
    | true =>
      have hes := ok.entriesAt_write_inode hb hptrs hm hmdir
      cases l <;> simp [refs, hdir', hmdir, hes, tableOf, hino, hptrs]
    | false => cases l <;> simp [refs, hdir', hmdir, hino, hptrs]
  · exact (ok.sameNode_write_inode hb hm hmb).refs

theorem TreeOk.write_inode : TreeOk (st.write b (encodeInode ino)) := by
  refine ok.of_refs (fun m hm => ok.refs_write_inode hb hptrs hdir hm) (fun m hm hmdir => ?_)
    (fun x hx => ok.marked_reserved hx) (le_max_left _ _)
  rw [FsState.write_disk, ok.entriesAt_write_inode hb hptrs hm hmdir]
  exact ok.dirs m hm hmdir

omit ok in
/-- If the size stays as well, the file keeps its promise. -/
theorem WellFormed.write_inode (wf : WellFormed st) (hsize : ino.size = (inodeAt st.disk b).size) :
    WellFormed (st.write b (encodeInode ino)) where
  toTreeOk := wf.toTreeOk.write_inode hb hptrs hdir
  files := by
    intro m hm hfile
    have hrefs : ∀ m, Live st.disk m →
        refs (st.write b (encodeInode ino)).disk m = refs st.disk m := fun m hm =>
      wf.toTreeOk.refs_write_inode hb hptrs hdir hm
    have hlive : Live (st.write b (encodeInode ino)).disk m ↔ Live st.disk m := live_of_refs hrefs
    have hm := hlive.mp hm
    have hfile := (isDirAt_of_refs (hrefs m hm)).symm.trans hfile
    have hok := wf.files m hm hfile
    rw [FsState.write_disk]
    by_cases hmb : m = b
    · subst hmb
      rw [inodeAt_write_self]
      exact ⟨by rw [hsize]; exact hok.nonneg, by rw [hsize]; exact hok.le,
        by rw [hsize, hptrs]; exact hok.ptrs⟩
    · rw [(wf.toTreeOk.sameNode_write_inode hb hm hmb).inodeAt]
      exact hok

end WriteInode

/-! ## `fs_chmod` and `fs_utime` -/

/-- The inode `fs_chmod` writes back. -/
def chmodInode (mode : UInt32) (ino : Inode) : Inode :=
  { ino with mode := mode ||| (ino.mode &&& sIfmt) }

/-- The inode `fs_utime` writes back. -/
def utimeInode (env : Env) (ut : Option UInt32) (ino : Inode) : Inode :=
  { ino with mtime := ut.getD env.time }

/-- The inode read is written back after a change. -/
def rewriteInode (f : Inode → Inode) (st : FsState) (inum : Int) (inode : Inode) :
    Except Fault (Int × FsState) := do
  let st ← st.put (encodeInode (f inode)) inum
  .ok (0, st)

/-- The type bits of a mode argument are absent or agree with those of the object. -/
def TypeAgrees (mode old : UInt32) : Prop := mode &&& sIfmt = 0 ∨ mode &&& sIfmt = old &&& sIfmt

theorem sIsdir_chmod {mode old : UInt32} (h : TypeAgrees mode old) :
    sIsdir (mode ||| (old &&& sIfmt)) = sIsdir old := by
  have hor : (mode ||| (old &&& sIfmt)) &&& sIfmt = (mode &&& sIfmt) ||| (old &&& sIfmt) := by
    apply UInt32.toBitVec_inj.mp
    simp only [UInt32.toBitVec_and, UInt32.toBitVec_or]
    rw [BitVec.and_or_distrib_right, BitVec.and_assoc, BitVec.and_self]
  have heq : (mode ||| (old &&& sIfmt)) &&& sIfmt = old &&& sIfmt := by
    rw [hor]
    rcases h with h | h <;> rw [h] <;> simp
  unfold sIsdir
  rw [heq]

section Attr
variable {st : FsState} (ok : TreeOk st) (env : Env) (p : CanonPath)
include ok

theorem TreeOk.put_live {b : Nat} (hb : Live st.disk b) (x : Block) :
    st.put x b = .ok (st.write b x) := st.put_of_lt x (ok.pos hb.owned) (ok.lt hb.owned)

theorem TreeOk.rewrite_ok (f : Inode → Inode) {b : Nat} (hres : resolve st.disk 2 p.comps = .ok b) :
    withInode env p.bytes st (rewriteInode f st) =
      .ok (0, st.write b (encodeInode (f (inodeAt st.disk b)))) := by
  rcases ok.withInode_cases env p with ⟨e, herr, -⟩ | ⟨b', hb', hlive, heq⟩
  · rw [hres] at herr
    cases herr
  · obtain rfl := Except.ok.inj (hres.symm.trans hb')
    rw [heq, rewriteInode, ok.put_live hlive, ok_bind]

/-- Both calls write the inode back after a change `f` to it. -/
theorem TreeOk.rewrite_cases (f : Inode → Inode) :
    (∃ r, r < 0 ∧ withInode env p.bytes st (rewriteInode f st) = .ok (r, st)) ∨
    ∃ n b i, NamedBy st p n b i ∧ withInode env p.bytes st (rewriteInode f st) =
      .ok (0, st.write b (encodeInode (f (inodeAt st.disk b)))) := by
  rcases ok.withInode_cases env p with ⟨e, hres, he, heq⟩ | ⟨b, hres, -, -⟩
  · exact .inl ⟨e, codeOf_error_neg hres, heq _⟩
  · obtain ⟨n, i, named⟩ := p.namedBy hres
    exact .inr ⟨n, b, i, named, ok.rewrite_ok env p f hres⟩

theorem TreeOk.fsChmod_ok (mode : UInt32) {b : Nat} (hres : resolve st.disk 2 p.comps = .ok b) :
    fsChmod env p.bytes mode st =
      .ok (0, st.write b (encodeInode (chmodInode mode (inodeAt st.disk b)))) :=
  ok.rewrite_ok env p (chmodInode mode) hres

theorem TreeOk.fsChmod_cases (mode : UInt32) :
    (∃ r, r < 0 ∧ fsChmod env p.bytes mode st = .ok (r, st)) ∨
    ∃ n b i, NamedBy st p n b i ∧ fsChmod env p.bytes mode st =
      .ok (0, st.write b (encodeInode (chmodInode mode (inodeAt st.disk b)))) :=
  ok.rewrite_cases env p (chmodInode mode)

theorem TreeOk.fsUtime_cases (ut : Option UInt32) :
    (∃ r, r < 0 ∧ fsUtime env p.bytes ut st = .ok (r, st)) ∨
    ∃ n b i, NamedBy st p n b i ∧ fsUtime env p.bytes ut st =
      .ok (0, st.write b (encodeInode (utimeInode env ut (inodeAt st.disk b)))) :=
  ok.rewrite_cases env p (utimeInode env ut)

end Attr

/-! ## `fs_truncate` -/

/-- `st'` is `st` with the data blocks of file `f` unmarked and its inode emptied. -/
structure Emptied (st st' : FsState) (f : Nat) : Prop where
  live : Live st.disk f
  file : isDirAt st.disk f = false
  file' : isDirAt st'.disk f = false
  ptrs : ∀ j, (inodeAt st'.disk f).ptrs j = 0
  size : (inodeAt st'.disk f).size = 0
  frame : ∀ x, x ≠ f → st'.disk.data x = st.disk.data x
  marked : ∀ x, Marked st' x ↔ Marked st x ∧ ∀ l, refs st.disk f l ≠ some x
  len : st.disk.len ≤ st'.disk.len
  numBlocks : st'.numBlocks = st.numBlocks

namespace Emptied
variable {st st' : FsState} {f : Nat} (h : Emptied st st' f)
include h

theorem fileStep (ok : TreeOk st) : FileStep st st' f where
  live := h.live
  file := h.file
  file' := h.file'
  len := h.len
  same := fun m hm hmf =>
    ⟨h.frame m hmf, fun hdir => h.frame _ (ok.live_ne_table h.live hm hdir).symm⟩

theorem inUse_iff (ok : TreeOk st) {x : Nat} :
    InUse st'.disk x ↔ InUse st.disk x ∧ ∀ l, refs st.disk f l ≠ some x :=
  (h.fileStep ok).inUse_clearPtrs h.ptrs ok

theorem wellFormed (wf : WellFormed st) : WellFormed st' := by
  have ok := wf.toTreeOk
  refine (h.fileStep ok).wellFormed wf ((h.fileStep ok).treeOk_clearPtrs h.ptrs ok ?_) ?_
  · intro x hx
    rw [h.marked]
    have hlow : ∀ y, y < 2 → ∀ l, refs st.disk f l ≠ some y := fun y hy l hl => by
      have := ok.two_le (h.live.owned_out hl)
      omega
    rcases hx with rfl | rfl | hx
    · exact ⟨ok.reserved.1, hlow 0 (by omega)⟩
    · exact ⟨ok.reserved.2.1, hlow 1 (by omega)⟩
    · obtain ⟨hu, hx⟩ := (h.inUse_iff ok).mp hx
      exact ⟨(ok.used x hu).2.2.1, hx⟩
  · refine ⟨by simp [h.size], by simp [h.size], fun j hj => ?_⟩
    have : (0 : Int32).toInt = 0 := rfl
    rw [h.size] at hj
    omega

end Emptied

/-- The inode `fs_truncate` writes back. -/
def truncateInode (env : Env) (ino : Inode) : Inode :=
  { ino with size := 0, mtime := env.time, ptrs := fun _ => 0 }

/-- `fs_truncate` from the type test on. -/
def truncateRest (env : Env) (st : FsState) (inum : Int) (inode : Inode) :
    Except Fault (Int × FsState) :=
  if sIsdir inode.mode then .ok (-eisdir, st)
  else do
    let st ← freePtrs inode (List.finRange 1019) st
    let inode := { inode with size := 0, mtime := env.time, ptrs := fun _ => 0 }
    let st ← st.put (encodeInode inode) inum
    .ok (0, st)

theorem fsTruncate_eq (env : Env) (path : List UInt8) (st : FsState) :
    fsTruncate env path 0 st = withInode env path st (truncateRest env st) := by
  unfold fsTruncate
  rw [if_neg (by simp)]
  rfl

/-- Truncating a file gives back the blocks behind its pointers. -/
theorem TreeOk.truncate_eq {st : FsState} (ok : TreeOk st) (env : Env) {b : Nat}
    (hb : Live st.disk b) (hfile : isDirAt st.disk b = false) :
    ∃ st', truncateRest env st b (inodeAt st.disk b) = .ok (0, st') ∧ Emptied st st' b ∧
      inodeAt st'.disk b = truncateInode env (inodeAt st.disk b) := by
  have hmode : sIsdir (inodeAt st.disk b).mode = false := hfile
  obtain ⟨s, hfree, hdisk, hnum, hmark⟩ := freePtrs_eq (inodeAt st.disk b) (List.finRange 1019) st
    fun j _ hj => ok.lt (hb.data_inUse hfile hj)
  generalize hino : truncateInode env (inodeAt st.disk b) = ino
  have hput := s.put_of_lt (encodeInode ino) (n := b) (ok.pos hb.owned) (ok.lt hb.owned)
  have hinode : inodeAt (s.write b (encodeInode ino)).disk b = ino := by
    rw [FsState.write_disk, inodeAt_write_self]
  refine ⟨s.write b (encodeInode ino), ?_, ?_, hinode⟩
  · have hino' : ({ inodeAt st.disk b with
        size := 0, mtime := env.time, ptrs := fun _ => 0 } : Inode) = ino := hino
    simp only [truncateRest, hmode, Bool.false_eq_true, if_false, hfree, ok_bind, hino', hput]
  · exact
      { live := hb, file := hfile
        file' := by unfold isDirAt; rw [hinode, ← hino]; exact hfile
        ptrs := fun j => by rw [hinode, ← hino]; rfl
        size := by rw [hinode, ← hino]; rfl
        frame := fun x hx => by rw [FsState.write_disk, Disk.write_ne _ _ hx, hdisk]
        marked := fun x => by rw [FsState.marked_write, hmark x, refs_file_iff hfile]
        len := by rw [FsState.write_disk, hdisk]; exact le_max_left _ _
        numBlocks := hnum }

/-- `fs_truncate` to length 0 fails with nothing changed unless the path names a file. -/
theorem TreeOk.fsTruncate_cases {st : FsState} (ok : TreeOk st) (env : Env) (p : CanonPath)
    (len : Int) :
    (∃ r, r < 0 ∧ fsTruncate env p.bytes len st = .ok (r, st) ∧
      ¬ (len = 0 ∧ ∃ n b i, NamedBy st p n b i ∧ isDirAt st.disk b = false)) ∨
    (len = 0 ∧ ∃ n b i st', NamedBy st p n b i ∧ fsTruncate env p.bytes len st = .ok (0, st') ∧
      Emptied st st' b) := by
  by_cases hlen : len = 0
  · subst hlen
    rw [fsTruncate_eq]
    rcases ok.withInode_cases env p with ⟨e, hres, he, heq⟩ | ⟨b, hres, hb, heq⟩
    · refine .inl ⟨e, codeOf_error_neg hres, heq _, ?_⟩
      rintro ⟨-, n, b, i, named, -⟩
      exact named.not_error hres
    · rw [heq]
      cases hfile : isDirAt st.disk b with
      | true =>
        have hmode : sIsdir (inodeAt st.disk b).mode = true := hfile
        refine .inl ⟨-eisdir, by decide, by rw [truncateRest, if_pos hmode], ?_⟩
        rintro ⟨-, n, b', i, named, hfile'⟩
        obtain rfl := named.target_eq hres
        simp [hfile] at hfile'
      | false =>
        obtain ⟨n, i, named⟩ := p.namedBy hres
        obtain ⟨st', hrun, hempty, -⟩ := ok.truncate_eq env hb hfile
        exact .inr ⟨rfl, n, b, i, st', named, hrun, hempty⟩
  · refine .inl ⟨-einval, by decide, ?_, fun h => hlen h.1⟩
    unfold fsTruncate
    rw [if_pos (by simpa using hlen)]

/-! ## `fs_rename` -/

/-- Slot `i` is the first, valid or not, that holds the name `c`. -/
def FirstNamed (es : Fin 128 → Dirent) (i : Fin 128) (c : List UInt8) : Prop :=
  (es i).nameOf = some c ∧ ∀ k, k < i → (es k).nameOf ≠ some c

/-- The renaming loop changes the first slot, valid or not, that holds the old name. -/
theorem renameFrom_eq {es : Fin 128 → Dirent} {src dst c c' : List UInt8} (hc : Component c)
    (hc' : Component c') (hsrc : cstr src = some c) (hdst : cstr dst = some c')
    (is : List (Fin 128)) (hsorted : is.Pairwise (· < ·))
    (hmem : ∃ i ∈ is, (es i).nameOf = some c) :
    ∃ i e, i ∈ is ∧ (es i).nameOf = some c ∧ (∀ k ∈ is, k < i → (es k).nameOf ≠ some c) ∧
      e.valid = (es i).valid ∧ e.inode = (es i).inode ∧
      e.nameOf = some c' ∧ renameFrom src dst es is = .ok (Function.update es i e) := by
  induction is with
  | nil => simp at hmem
  | cons i is ih =>
    have hlen := hc.le
    have hcmp : strcmpEq (bytesFrom (es i).name 0) src =
        some (decide ((es i).nameOf = some c)) :=
      strcmpEq_of_cstr hsrc (by rw [bytesFrom_length]; omega)
    unfold renameFrom
    rw [hcmp]
    by_cases hi : (es i).nameOf = some c
    · obtain ⟨name, hcpy, hname⟩ := strcpy_nameOf (e := es i) (Nat.le_succ_of_le hc'.le) hc'.no_nul
      refine ⟨i, { es i with name := name }, List.mem_cons_self, hi, ?_, rfl, rfl, hname, ?_⟩
      · intro k hk hlt
        rcases List.mem_cons.mp hk with rfl | hk
        · exact absurd hlt (lt_irrefl k)
        · exact absurd hlt (lt_asymm (List.rel_of_pairwise_cons hsorted hk))
      · simp only [orFault, hi, decide_true, ok_bind, if_true, hdst, hcpy]
    · obtain ⟨j, hj, hname⟩ := hmem
      have hj : j ∈ is := (List.mem_cons.mp hj).resolve_left (by rintro rfl; exact hi hname)
      simp only [orFault, hi, decide_false, ok_bind, Bool.false_eq_true, if_false]
      obtain ⟨l, e, hl, hname, hfirst, hrest⟩ := ih (List.Pairwise.of_cons hsorted) ⟨j, hj, hname⟩
      refine ⟨l, e, List.mem_cons_of_mem i hl, hname, ?_, hrest⟩
      intro k hk hlt
      rcases List.mem_cons.mp hk with rfl | hk
      · exact hi
      · exact hfirst k hk hlt

/-- `st'` is `st` with the name in slot `i` of directory `n` changed to `c'`, which no valid entry
has. -/
structure Renamed (st st' : FsState) (n : Nat) (i : Fin 128) (c' : List UInt8) : Prop where
  live : Live st.disk n
  dir : isDirAt st.disk n = true
  absent : lookup st.disk n c' = none
  write : ∃ e : Dirent, e.valid = (entriesAt st.disk n i).valid ∧
    e.inode = (entriesAt st.disk n i).inode ∧ e.nameOf = some c' ∧
    st' = st.write (tableOf st.disk n) (encodeDirents (Function.update (entriesAt st.disk n) i e))

namespace Renamed
variable {st st' : FsState} {n : Nat} {i : Fin 128} {c' : List UInt8}
  (h : Renamed st st' n i c') (ok : TreeOk st)
include h ok

theorem sameNode {m : Nat} (hm : Live st.disk m) (hmn : m ≠ n) :
    SameNode st.disk st'.disk m := by
  obtain ⟨e, -, -, -, rfl⟩ := h.write
  exact ok.sameNode_write_table h.live h.dir hm hmn

theorem inodeAt_eq : inodeAt st'.disk n = inodeAt st.disk n := by
  obtain ⟨e, -, -, -, rfl⟩ := h.write
  unfold inodeAt
  rw [FsState.write_disk, Disk.write_ne _ _ (ok.live_ne_table h.live h.live h.dir)]

theorem isDirAt_eq : isDirAt st'.disk n = true := by
  unfold isDirAt
  rw [h.inodeAt_eq ok]
  exact h.dir

theorem entriesAt_eq : ∃ e : Dirent, e.valid = (entriesAt st.disk n i).valid ∧
    e.inode = (entriesAt st.disk n i).inode ∧ e.nameOf = some c' ∧
    entriesAt st'.disk n = Function.update (entriesAt st.disk n) i e := by
  have htable : tableOf st'.disk n = tableOf st.disk n := by
    unfold tableOf
    rw [h.inodeAt_eq ok]
  obtain ⟨e, hv, hi, hname, hst⟩ := h.write
  refine ⟨e, hv, hi, hname, ?_⟩
  show decodeDirents (st'.disk.data (tableOf st'.disk n)) = _
  rw [htable, hst, FsState.write_disk, Disk.write_same, decodeDirents_encodeDirents]

theorem refs_eq {m : Nat} (hm : Live st.disk m) : refs st'.disk m = refs st.disk m := by
  by_cases hmn : m = n
  · subst hmn
    obtain ⟨e, hv, hi, -, hes⟩ := h.entriesAt_eq ok
    funext l
    cases l with
    | table => simp [refs, h.isDirAt_eq ok, h.dir, tableOf, h.inodeAt_eq ok]
    | data j => simp [refs, h.isDirAt_eq ok, h.dir]
    | slot j =>
      by_cases hji : j = i
      · subst hji
        simp [refs, h.isDirAt_eq ok, h.dir, hes, hv, hi]
      · simp [refs, h.isDirAt_eq ok, h.dir, hes, hji]
  · exact (h.sameNode ok hm hmn).refs

/-- The directory stays in order: the new name was not there. -/
theorem dirOk : DirOk (entriesAt st'.disk n) := by
  obtain ⟨e, -, -, hname, hes⟩ := h.entriesAt_eq ok
  rw [hes]
  refine (ok.dirs n h.live h.dir).update i fun _ => ?_
  rw [hname]
  exact ⟨by simp, lookup_eq_none h.absent⟩

omit ok in
theorem marked_iff {x : Nat} : Marked st' x ↔ Marked st x := by
  obtain ⟨e, -, -, -, rfl⟩ := h.write
  exact FsState.marked_write _ _ _ _

theorem treeOk : TreeOk st' := by
  refine ok.of_refs (fun m hm => h.refs_eq ok hm) (fun m hm hdir => ?_)
    (fun x hx => h.marked_iff.mpr (ok.marked_reserved hx)) ?_
  · by_cases hmn : m = n
    · rw [hmn]
      exact h.dirOk ok
    · rw [(h.sameNode ok hm hmn).entriesAt hdir]
      exact ok.dirs m hm hdir
  · obtain ⟨e, -, -, -, rfl⟩ := h.write
    exact le_max_left _ _

omit ok in
theorem wellFormed (wf : WellFormed st) : WellFormed st' where
  toTreeOk := h.treeOk wf.toTreeOk
  files := by
    have ok := wf.toTreeOk
    intro m hm hfile
    have hm := (live_of_refs fun m hm => h.refs_eq ok hm).mp hm
    have hfile := (isDirAt_of_refs (h.refs_eq ok hm)).symm.trans hfile
    have hmn : m ≠ n := by
      rintro rfl
      simp [h.dir] at hfile
    rw [(h.sameNode ok hm hmn).inodeAt]
    exact wf.files m hm hfile

end Renamed

/-- Paths with the same parent string have the same parent directory. -/
theorem TreeOk.resolve_sameParent {st : FsState} (ok : TreeOk st) (env : Env) {p q : CanonPath}
    {n : Nat} (hparent : parentBytes p.dirs = parentBytes q.dirs)
    (hres : resolve st.disk 2 p.dirs = .ok n) : resolve st.disk 2 q.dirs = .ok n := by
  have hp := p.pathToInum_parent ok env
  have hq := q.pathToInum_parent ok env
  rw [← hparent, hp, hres] at hq
  have hcode := Except.ok.inj hq
  cases hr : resolve st.disk 2 q.dirs with
  | ok m =>
    rw [hr] at hcode
    simp only [codeOf, Nat.cast_inj] at hcode
    rw [hcode]
  | error e =>
    have := codeOf_error_neg hr
    rw [hr] at hcode
    simp only [codeOf] at hcode
    omega

/-- The tests of `fs_rename`: the source exists, the destination does not, and both have the same
parent string. -/
structure RenameReady (st : FsState) (p q : CanonPath) : Prop where
  source : ∃ b, resolve st.disk 2 p.comps = .ok b
  free : ∀ b, resolve st.disk 2 q.comps ≠ .ok b
  parent : parentBytes p.dirs = parentBytes q.dirs

/-- The error exit `fs_rename` takes: no source, a destination that exists, or another directory. -/
def renameError (d : Disk) (p q : CanonPath) : Int :=
  match resolve d 2 p.comps, resolve d 2 q.comps with
  | .error _, _ => -enoent
  | .ok _, .ok _ => -eexist
  | .ok _, .error _ => -einval

theorem renameError_neg (d : Disk) (p q : CanonPath) : renameError d p q < 0 := by
  unfold renameError
  split <;> decide

/-- `fs_rename` fails with nothing changed unless the source exists, the destination does not and
both are in the same directory. -/
theorem TreeOk.fsRename_error {st : FsState} (ok : TreeOk st) (env : Env) {p q : CanonPath}
    (hno : ¬ RenameReady st p q) :
    fsRename env p.bytes q.bytes st = .ok (renameError st.disk p q, st) := by
  have hsrc := p.pathToInum_eq ok (env.call 0)
  have hdst := q.pathToInum_eq ok (env.call 2)
  obtain ⟨srcLast, hsrcLast, -⟩ := p.getLastFilename_eq (env.call 1) (env.bytes 28 0) (by omega)
  obtain ⟨dstLast, hdstLast, -⟩ := q.getLastFilename_eq (env.call 3) (env.bytes 28 1) (by omega)
  have hsrcDir := p.getParentPath_eq 280 (by omega)
  have hdstDir := q.getParentPath_eq 280 (by omega)
  unfold renameError
  cases hres : resolve st.disk 2 p.comps with
  | error e =>
    have he := codeOf_error_neg hres
    rw [hres] at hsrc
    simp only [fsRename, hsrc, ok_bind, codeOf]
    rw [if_pos he]
  | ok b =>
    rw [hres] at hsrc
    cases hres' : resolve st.disk 2 q.comps with
    | ok b' =>
      have hb' := ok.two_le (resolve_live .root hres').owned
      rw [hres'] at hdst
      simp only [fsRename, hsrc, hsrcLast, hsrcDir, hdst, ok_bind, codeOf]
      rw [if_neg (by omega), if_pos (by omega)]
    | error e =>
      have he := codeOf_error_neg hres'
      rw [hres'] at hdst
      have hparent : parentBytes p.dirs ≠ parentBytes q.dirs := fun hparent =>
        hno ⟨⟨b, hres⟩, fun b' hb' => absurd (hres'.symm.trans hb') (by simp), hparent⟩
      simp only [fsRename, hsrc, hsrcLast, hsrcDir, hdst, hdstLast, hdstDir, ok_bind, codeOf]
      rw [if_neg (by omega), if_neg (by omega), if_pos hparent]

/-- When its tests pass, `fs_rename` changes the first slot with the name of the source. -/
theorem TreeOk.fsRename_cases {st : FsState} (ok : TreeOk st) (env : Env) (p q : CanonPath) :
    (∃ r, r < 0 ∧ fsRename env p.bytes q.bytes st = .ok (r, st) ∧ ¬ RenameReady st p q) ∨
    ∃ n b j i st', NamedBy st p n b j ∧ fsRename env p.bytes q.bytes st = .ok (0, st') ∧
      Renamed st st' n i q.last ∧ RenameReady st p q ∧
      FirstNamed (entriesAt st.disk n) i p.last := by
  by_cases hready : RenameReady st p q
  case neg => exact .inl ⟨_, renameError_neg _ _ _, ok.fsRename_error env hready, hready⟩
  have hsrc := p.pathToInum_eq ok (env.call 0)
  have hdst := q.pathToInum_eq ok (env.call 2)
  obtain ⟨srcLast, hsrcLast, hsrcName⟩ := p.getLastFilename_eq (env.call 1) (env.bytes 28 0)
    (by omega)
  obtain ⟨dstLast, hdstLast, hdstName⟩ := q.getLastFilename_eq (env.call 3) (env.bytes 28 1)
    (by omega)
  have hsrcDir := p.getParentPath_eq 280 (by omega)
  have hdstDir := q.getParentPath_eq 280 (by omega)
  obtain ⟨b, hres⟩ := hready.source
  obtain ⟨n, j, named⟩ := p.namedBy hres
  have hn := named.live
  rw [hres] at hsrc
  cases hres' : resolve st.disk 2 q.comps with
  | ok b' => exact absurd hres' (hready.free b')
  | error e =>
    have he := codeOf_error_neg hres'
    rw [hres'] at hdst
    -- the destination's directory is the same one, without an entry of that name
    have hdir := p.pathToInum_parent ok (env.call 4)
    have hdirs := ok.resolve_sameParent env hready.parent named.resolved
    have habsent : lookup st.disk n q.last = none := by
      rw [q.resolve_last hdirs] at hres'
      cases hl : lookup st.disk n q.last with
      | none => rfl
      | some i => simp [resolve_cons_some named.dir hl, resolve_nil] at hres'
    have huse := hn.table_inUse named.dir
    rw [named.resolved] at hdir
    have hread : st.get (env.junk [2]) n = st.disk.data n :=
      ok.get_inUse hn.owned _
    have hents : decodeDirents (st.get (env.junk [3]) (tableOf st.disk n)) =
        entriesAt st.disk n := ok.get_entries hn named.dir _
    have hptr : asInt ((decodeInode (st.disk.data n)).ptrs 0) = tableOf st.disk n :=
      ok.asInt_table hn named.dir
    have hmode : sIsdir (decodeInode (st.disk.data n)).mode = true := named.dir
    obtain ⟨i, e', -, hi, hfirst, hv, hino, hname, hloop⟩ := renameFrom_eq p.last_component
      q.last_component hsrcName hdstName (List.finRange 128) (List.pairwise_lt_finRange 128)
      ⟨j, List.mem_finRange j, (lookup_eq_some named.slot).2⟩
    have hput := st.put_of_lt
      (encodeDirents (Function.update (entriesAt st.disk n) i e')) (ok.pos huse) (ok.lt huse)
    refine .inr ⟨n, b, j, i, _, named, ?_, ⟨hn, named.dir, habsent, e', hv, hino, hname, rfl⟩,
      hready, hi, fun k hk => hfirst k (List.mem_finRange k) hk⟩
    simp only [fsRename, hsrc, hsrcLast, hsrcDir, hdst, hdstLast, hdstDir, ok_bind, codeOf,
      hdir, hread, hmode, hptr, hents, hloop, hput, Bool.not_true, Bool.false_eq_true, if_false]
    rw [if_neg (by omega), if_neg (by omega), if_neg (not_not.mpr hready.parent)]

end SystemsProjects.Fs5600
