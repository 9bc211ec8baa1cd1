import SystemsProjects.Fs5600.Invariant
import SystemsProjects.Fs5600.Contents
import Mathlib.Order.Interval.Finset.Nat

/-!
# Return codes

Two tables of codes that the calls of `fs5600.c` share by intention. The note on path translation
(`fs5600.c:107-118`) gives the codes of a path that leads nowhere, and the head of `fs_write` the
code of a file that would become too large. Each call makes its own tests.
-/

namespace SystemsProjects.Fs5600
open SystemsProjects.Lib

/-! ## Paths that lead nowhere -/

/-- `cs` leads through something that is not a directory. -/
def ThroughFile (d : Disk) (cs : List (List UInt8)) : Prop :=
  ∃ ds n, ds <+: cs ∧ resolve d 2 ds = .ok n ∧ isDirAt d n = false

/-- The code of a failed walk from the root. -/
theorem resolve_error_code {d : Disk} {cs : List (List UInt8)} {e : Int}
    (h : resolve d 2 cs = .error e) :
    (ThroughFile d cs ∧ e = -enotdir) ∨ (¬ ThroughFile d cs ∧ e = -enoent) := by
  rcases resolve_error_cases h with ⟨he, hfile⟩ | ⟨he, hall⟩
  · exact .inl ⟨hfile, he⟩
  · refine .inr ⟨?_, he⟩
    rintro ⟨ds, m, hds, hm, hfile⟩
    rw [hall ds m hds hm] at hfile
    exact absurd hfile (by simp)

/-- The calls that begin by resolving `path`. -/
inductive CallOn (path : List UInt8) : Call → Prop where
  | create (mode : UInt32) : CallOn path (.create path mode)
  | mkdir (mode : UInt32) : CallOn path (.mkdir path mode)
  | unlink : CallOn path (.unlink path)
  | rmdir : CallOn path (.rmdir path)
  | read (len offset : Nat) : CallOn path (.read path len offset)
  | write (buf : List UInt8) (offset : Nat) : CallOn path (.write path buf offset)
  | getattr : CallOn path (.getattr path)
  | rename (dst : List UInt8) : CallOn path (.rename path dst)

/-- Every call on `path` returns the code of `path_to_inum`, which tells a file in the way from a
missing component. -/
structure SameCode (st : FsState) (p : CanonPath) (e : Int) : Prop where
  path : ∀ env, pathToInum env st.disk p.bytes = .ok e
  notDir : ThroughFile st.disk p.dirs → e = -enotdir
  noEnt : ¬ ThroughFile st.disk p.dirs → e = -enoent
  calls : ∀ env call, CallOn p.bytes call → ∃ st', exec env st call = .ok (e, st')

section Codes
variable {st : FsState} (ok : TreeOk st) (p : CanonPath) {e : Int}
  (hparent : resolve st.disk 2 p.dirs = .error e)
include hparent

theorem resolve_comps_error : resolve st.disk 2 p.comps = .error e := by
  rw [CanonPath.comps, resolve_append, hparent]

include ok

theorem TreeOk.fsCreate_noParent (env : Env) (mode : UInt32) :
    fsCreate env p.bytes mode st = .ok (-enoent, st) := by
  rcases ok.fsCreate_cases env p mode with ⟨r, -, -, -, hrun, hr⟩ | ⟨n, hready, -⟩
  · rw [hrun, hr, openError, hparent]
  · simp [hready.resolved] at hparent

theorem TreeOk.fsMkdir_noParent (env : Env) (mode : UInt32) :
    fsMkdir env p.bytes mode st = .ok (-enoent, st) := by
  rcases ok.fsMkdir_cases env p mode with ⟨r, -, -, -, hrun, hr⟩ | ⟨n, hready, -⟩
  · rw [hrun, hr, openError, hparent]
  · simp [hready.resolved] at hparent

theorem TreeOk.pathToInum_noParent (env : Env) : pathToInum env st.disk p.bytes = .ok e := by
  rw [p.pathToInum_eq ok env, resolve_comps_error p hparent]
  rfl

theorem TreeOk.fsRename_noParent (env : Env) (dst : List UInt8) :
    fsRename env p.bytes dst st = .ok (-enoent, st) := by
  simp only [fsRename, ok.pathToInum_noParent p hparent, ok_bind]
  rw [if_pos (codeOf_error_neg hparent)]

/-- The other calls pass the code on. -/
theorem TreeOk.withInode_noParent (env : Env) (k : Int → Inode → Except Fault (Int × FsState)) :
    withInode env p.bytes st k = .ok (e, st) := by
  rw [withInode, ok.pathToInum_noParent p hparent, ok_bind, if_pos (codeOf_error_neg hparent)]

theorem TreeOk.fsRead_noParent (env : Env) (len offset : Nat) :
    fsRead env p.bytes len offset st = .ok (e, []) := by
  simp only [fsRead, ok.pathToInum_noParent p hparent, ok_bind]
  rw [if_pos (codeOf_error_neg hparent)]

theorem TreeOk.fsGetattr_noParent (env : Env) : fsGetattr env p.bytes st = .ok (e, none) := by
  simp only [fsGetattr, ok.pathToInum_noParent p hparent, ok_bind]
  rw [if_pos (codeOf_error_neg hparent)]

end Codes

/-- When the parent of a path does not resolve, all calls on the path return the code of
`path_to_inum` if and only if no file is in the way. `fs_create`, `fs_mkdir` and `fs_rename`
return `-ENOENT` then as well. -/
theorem sameCode_iff {st : FsState} (wf : WellFormed st) (p : CanonPath) {env : Env} {e : Int}
    (he : e < 0) (hfail : pathToInum env st.disk (parentBytes p.dirs) = .ok e) :
    SameCode st p e ↔ ¬ ThroughFile st.disk p.dirs := by
  have ok := wf.toTreeOk
  have hparent : resolve st.disk 2 p.dirs = .error e := by
    rw [p.pathToInum_parent ok env] at hfail
    have hcode := Except.ok.inj hfail
    cases hres : resolve st.disk 2 p.dirs with
    | error e' =>
      rw [hres] at hcode
      exact congrArg Except.error hcode
    | ok n =>
      rw [hres] at hcode
      simp only [codeOf] at hcode
      omega
  constructor
  · intro hsame hfile
    obtain ⟨st', hrun⟩ := hsame.calls env _ (.create 0)
    simp only [exec, ok.fsCreate_noParent p hparent] at hrun
    have hcode : -enoent = e := congrArg Prod.fst (Except.ok.inj hrun)
    rw [hsame.notDir hfile] at hcode
    exact absurd hcode (by decide)
  · intro hno
    have hcode : e = -enoent := by
      rcases resolve_error_code hparent with ⟨hfile, -⟩ | ⟨-, hcode⟩
      · exact absurd hfile hno
      · exact hcode
    refine ⟨fun env => ok.pathToInum_noParent p hparent env, fun hfile => absurd hfile hno,
      fun _ => hcode, fun env call hcall => ⟨st, ?_⟩⟩
    cases hcall with
    | create mode => rw [exec, ok.fsCreate_noParent p hparent, hcode]
    | mkdir mode => rw [exec, ok.fsMkdir_noParent p hparent, hcode]
    | unlink => rw [exec, fsUnlink_eq, ok.withInode_noParent p hparent]
    | rmdir => rw [exec, fsRmdir_eq, ok.withInode_noParent p hparent]
    | read len offset =>
      rw [exec, ok.fsRead_noParent p hparent]
      rfl
    | write buf offset => rw [exec, fsWrite_eq, ok.withInode_noParent p hparent]
    | getattr =>
      rw [exec, ok.fsGetattr_noParent p hparent]
      rfl
    | rename dst => rw [exec, ok.fsRename_noParent p hparent, hcode]

/-- The path `/a/b`. -/
def pathAB : CanonPath where
  dirs := [[0x61]]
  last := [0x62]
  components := by
    intro c hc
    obtain rfl | rfl : c = [0x61] ∨ c = [0x62] := by simpa using hc
    · exact ⟨by decide, by decide, by decide, by decide⟩
    · exact ⟨by decide, by decide, by decide, by decide⟩
  depth := by decide

/-- The path `/a/b/c`. -/
def pathABC : CanonPath where
  dirs := [[0x61], [0x62]]
  last := [0x63]
  components := by
    intro c hc
    obtain rfl | rfl | rfl : c = [0x61] ∨ c = [0x62] ∨ c = [0x63] := by simpa using hc
    · exact ⟨by decide, by decide, by decide, by decide⟩
    · exact ⟨by decide, by decide, by decide, by decide⟩
    · exact ⟨by decide, by decide, by decide, by decide⟩
  depth := by decide

/-- `/a/b` in an empty image: `/a` does not exist. -/
theorem sameCode_empty : SameCode (emptyState 399) pathAB (-enoent) := by
  have wf : WellFormed (emptyState 399) := emptyState_wellFormed (by omega) (by omega)
  have hready := @emptyState_readyIn 399 (by omega) (by omega)
  have hparent : resolve (emptyState 399).disk 2 pathAB.dirs = .error (-enoent) := by
    show resolve (emptyState 399).disk 2 [pathA.last] = _
    exact resolve_cons_none hready.dir hready.absent
  have hfail : pathToInum quietEnv (emptyState 399).disk (parentBytes pathAB.dirs) =
      .ok (-enoent) := by
    rw [pathAB.pathToInum_parent wf.toTreeOk, hparent]
    rfl
  refine (sameCode_iff wf pathAB (by decide) hfail).mpr fun hfile => ?_
  rcases resolve_error_code hparent with ⟨-, he⟩ | ⟨hno, -⟩
  · exact absurd he (by decide)
  · exact hno hfile

/-- `/a/b/c` where `/a` is a file. `path_to_inum` and `fs_unlink` say `-ENOTDIR`, `fs_create`,
`fs_mkdir` and `fs_rename` say `-ENOENT`. -/
theorem sameCode_through_file :
    WellFormed (oneFile 399) ∧
    pathToInum quietEnv (oneFile 399).disk (parentBytes pathABC.dirs) = .ok (-enotdir) ∧
    pathToInum quietEnv (oneFile 399).disk pathABC.bytes = .ok (-enotdir) ∧
    fsUnlink quietEnv pathABC.bytes (oneFile 399) = .ok (-enotdir, oneFile 399) ∧
    fsCreate quietEnv pathABC.bytes 0o644 (oneFile 399) = .ok (-enoent, oneFile 399) ∧
    fsMkdir quietEnv pathABC.bytes 0o755 (oneFile 399) = .ok (-enoent, oneFile 399) ∧
    fsRename quietEnv pathABC.bytes pathA.bytes (oneFile 399) = .ok (-enoent, oneFile 399) := by
  have wf : WellFormed (oneFile 399) := oneFile_wellFormed (by omega) (by omega)
  have ok := wf.toTreeOk
  have hparent : resolve (oneFile 399).disk 2 pathABC.dirs = .error (-enotdir) := by
    show resolve (oneFile 399).disk 2 (pathA.comps ++ [[0x62]]) = _
    rw [resolve_append, oneFile_resolve (by omega) (by omega)]
    show resolve (oneFile 399).disk 3 [[0x62]] = _
    rw [resolve, oneFile_isDir (by omega) (by omega)]
    rfl
  refine ⟨wf, ?_, ok.pathToInum_noParent pathABC hparent quietEnv, ?_,
    ok.fsCreate_noParent pathABC hparent quietEnv _, ok.fsMkdir_noParent pathABC hparent quietEnv _,
    ok.fsRename_noParent pathABC hparent quietEnv _⟩
  · rw [pathABC.pathToInum_parent ok, hparent]
    rfl
  · rw [fsUnlink_eq, ok.withInode_noParent pathABC hparent]

/-! ## Files that would become too large -/

/-- `fs_write` refuses a range that ends behind the largest size and writes any other. -/
structure SizeRule (st : FsState) (path buf : List UInt8) (off : Nat) : Prop where
  refused : ∀ env, (∃ st', fsWrite env path buf off st = .ok (-enospc, st')) ↔
    off + buf.length > 1019 * 4096
  written : ∀ env, off + buf.length ≤ 1019 * 4096 →
    ∃ st', fsWrite env path buf off st = .ok (buf.length, st')

/-- `fs_write` by any path that leads to `f`. -/
theorem TreeOk.fsWrite_at {st : FsState} (ok : TreeOk st) {path : List UInt8} {f : Nat}
    (hpath : ∀ env, pathToInum env st.disk path = .ok f) (hf : Live st.disk f) (env : Env)
    (buf : List UInt8) (off : Nat) :
    fsWrite env path buf off st = writeRest env buf off st f (inodeAt st.disk f) := by
  have hread : decodeInode (st.get (env.junk [0]) f) = inodeAt st.disk f := by
    rw [ok.get_inUse hf.owned]
    rfl
  rw [fsWrite_eq, withInode, hpath, ok_bind, if_neg (by omega), hread]

/-- With enough blocks, a write inside a file follows the rule if and only if the buffer fits
behind the old end as well, or does not fit where it goes: the test is about `inode.size + len`,
not about `offset + len`. -/
theorem sizeRule_iff {st : FsState} (wf : WellFormed st) {path : List UInt8} {f : Nat}
    (hpath : ∀ env, pathToInum env st.disk path = .ok f) (hf : Live st.disk f)
    (hfile : isDirAt st.disk f = false) {buf : List UInt8} (hbuf : buf.length < 2 ^ 31) {off : Nat}
    (hoff : (off : Int) ≤ (inodeAt st.disk f).size.toInt)
    (hroom : (missing (inodeAt st.disk f) off buf.length).card ≤ st.unmarked.card) :
    SizeRule st path buf off ↔
      (inodeAt st.disk f).size.toInt + buf.length ≤ 1019 * 4096 ∨
        off + buf.length > 1019 * 4096 := by
  have hrun := wf.toTreeOk.fsWrite_at hpath hf
  by_cases hfit : (inodeAt st.disk f).size.toInt + buf.length ≤ 1019 * 4096
  · -- the buffer is written, and the range ends before the old end plus its length
    have hwritten : ∀ env, ∃ st', fsWrite env path buf off st = .ok (buf.length, st') := by
      intro env
      have haccepts : Accepts st f off buf.length := ⟨hf, hfile, hoff, hfit⟩
      rw [hrun env buf off]
      rcases haccepts.writeRest_cases wf hbuf env with ⟨hcard, -⟩ | ⟨st', hok, -⟩
      · omega
      · exact ⟨st', hok⟩
    refine iff_of_true ⟨fun env => ?_, fun env _ => hwritten env⟩ (.inl hfit)
    refine iff_of_false ?_ (by omega)
    rintro ⟨st', hno⟩
    obtain ⟨st'', hok⟩ := hwritten env
    have hcode : (buf.length : Int) = -enospc :=
      congrArg Prod.fst (Except.ok.inj (hok.symm.trans hno))
    simp only [enospc] at hcode
    omega
  · have hrefused : ∀ env, fsWrite env path buf off st = .ok (-enospc, st) := by
      intro env
      rw [hrun env buf off]
      exact wf.writeRest_enospc hbuf hf hfile hoff (by omega) env st
    constructor
    · intro hrule
      exact .inr ((hrule.refused ⟨0, 0, 0, fun _ => Block.zero⟩).mp ⟨st, hrefused _⟩)
    · intro hcond
      have hend := hcond.resolve_left hfit
      exact ⟨fun env => iff_of_true ⟨st, hrefused env⟩ hend, fun env hle => absurd hend (by omega)⟩

/-- `hi` in an empty file. -/
theorem sizeRule_oneFile : SizeRule (oneFile 399) pathA.bytes [0x68, 0x69] 0 := by
  have hino : inodeAt (oneFile 399).disk 3 = newFileInode quietEnv 0o644 :=
    oneFile_inode (by omega) (by omega)
  have hlive : Live (oneFile 399).disk 3 :=
    resolve_live .root (oneFile_resolve (by omega) (by omega))
  have hpath : ∀ env, pathToInum env (oneFile 399).disk pathA.bytes = .ok ((3 : Nat) : Int) :=
    oneFile_pathA (by omega) (by omega)
  have hsize : (inodeAt (oneFile 399).disk 3).size.toInt = 0 := by
    rw [hino]
    rfl
  have wf : WellFormed (oneFile 399) := oneFile_wellFormed (by omega) (by omega)
  have hfile : isDirAt (oneFile 399).disk 3 = false := oneFile_isDir (by omega) (by omega)
  have hoff : ((0 : Nat) : Int) ≤ (inodeAt (oneFile 399).disk 3).size.toInt := by omega
  have hbuf : ([0x68, 0x69] : List UInt8).length < 2 ^ 31 := by decide
  refine (sizeRule_iff wf hpath hlive hfile hbuf hoff oneFile_room).mpr (.inl ?_)
  rw [hsize]
  decide

/-- The file `/a` is filled up to the largest size. Then its first byte cannot be written again. -/
theorem sizeRule_full_file : ∃ st',
    fsWrite quietEnv pathA.bytes (List.replicate (1019 * 4096) 0) 0 (oneFile 1999) =
      .ok ((1019 * 4096 : Nat), st') ∧
    WellFormed st' ∧
    (∀ env, pathToInum env st'.disk pathA.bytes = .ok 3) ∧
    isDirAt st'.disk 3 = false ∧
    (inodeAt st'.disk 3).size.toInt = 1019 * 4096 ∧
    missing (inodeAt st'.disk 3) 0 1 = ∅ ∧
    fsWrite quietEnv pathA.bytes [0x78] 0 st' = .ok (-enospc, st') := by
  have wf : WellFormed (oneFile 1999) := oneFile_wellFormed (by omega) (by omega)
  have hres : resolve (oneFile 1999).disk 2 pathA.comps = .ok 3 :=
    oneFile_resolve (by omega) (by omega)
  have hino : inodeAt (oneFile 1999).disk 3 = newFileInode quietEnv 0o644 :=
    oneFile_inode (by omega) (by omega)
  have hsize : (inodeAt (oneFile 1999).disk 3).size.toInt = 0 := by
    rw [hino]
    rfl
  have hlen : (List.replicate (1019 * 4096) (0 : UInt8)).length = 1019 * 4096 :=
    List.length_replicate
  generalize List.replicate (1019 * 4096) (0 : UInt8) = buf at hlen
  have w : Writable (oneFile 1999) pathA 3 0 buf.length :=
    ⟨hres, oneFile_isDir (by omega) (by omega), by omega, by omega⟩
  -- 1019 of the blocks 4 to 1998 are enough
  have hroom : 1019 ≤ (oneFile 1999).unmarked.card := by
    have hsub : Finset.Icc 4 1998 ⊆ (oneFile 1999).unmarked := by
      intro x hx
      rw [Finset.mem_Icc] at hx
      rw [FsState.mem_unmarked, (oneFile_placed (by omega) (by omega)).marked,
        emptyState_marked (by omega)]
      simp only [reduceCtorEq, or_false]
      omega
    exact (by simp : 1019 ≤ (Finset.Icc 4 1998).card).trans (Finset.card_le_card hsub)
  have hcard : (missing (inodeAt (oneFile 1999).disk 3) 0 buf.length).card ≤ 1019 :=
    (Finset.card_le_univ _).trans (by simp)
  rcases wf.fsWrite_cases quietEnv pathA buf (by omega) 0 with
    ⟨r, -, -, hno⟩ | ⟨f, w', ⟨hfull, -⟩ | ⟨st', hrun, hg⟩⟩
  · exact absurd ⟨3, w⟩ hno
  · obtain rfl := Except.ok.inj (w'.resolved.symm.trans hres)
    omega
  · obtain rfl := Except.ok.inj (w'.resolved.symm.trans hres)
    have hstep := w.fileStep hg wf.toTreeOk
    have wf' := w.wellFormed hg wf
    have hres' : resolve st'.disk 2 pathA.comps = .ok 3 := by
      rw [hstep.resolve_eq _ 2 .root, hres]
    have hpath : ∀ env, pathToInum env st'.disk pathA.bytes = .ok 3 := by
      intro env
      rw [pathA.pathToInum_eq wf'.toTreeOk, hres']
      rfl
    have hlive : Live st'.disk 3 := resolve_live .root hres'
    have hsize' : (inodeAt st'.disk 3).size.toInt = 1019 * 4096 := by
      rw [w.size_eq hg wf, hsize, hlen]
      rfl
    refine ⟨st', by rw [hrun, hlen], wf', hpath, hstep.file', hsize', ?_, ?_⟩
    · refine Finset.eq_empty_of_forall_notMem fun i hi => ?_
      exact (wf'.files 3 hlive hstep.file').ptrs i (by omega) (mem_missing.mp hi).1
    · rw [wf'.toTreeOk.fsWrite_at hpath hlive]
      exact wf'.writeRest_enospc (by decide) hlive hstep.file' (by omega)
        (by rw [hsize']; decide) _ _

end SystemsProjects.Fs5600
