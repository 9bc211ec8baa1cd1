import SystemsProjects.Fs5600.Accounting
import SystemsProjects.Fs5600.Rename
import Mathlib.Order.Interval.Finset.Nat

/-!
# New and cleared entries, seen through paths

After `fs_create` or `fs_mkdir` the path leads to the new object, unless the directory was full:
the callers of `add_dirent` ignore its result (`fs5600.c:737`, `fs5600.c:804`) and report success
for an object that has no name. After `fs_unlink` or `fs_rmdir` the path leads nowhere.
-/

namespace SystemsProjects.Fs5600
open SystemsProjects.Lib

/-! ## Walks up to a directory that gets or loses an entry -/

section Walks
variable {st st' : FsState} (ok : TreeOk st) {n : Nat}
  (hsame : ∀ m, Live st.disk m → m ≠ n → SameNode st.disk st'.disk m)
  {cs : List (List UInt8)} (h : resolve st.disk 2 cs = .ok n)
include ok hsame h

/-- A walk to `n`, or a part of one, does not see a change to the entries of `n`. -/
theorem TreeOk.resolve_upto {ds : List (List UInt8)} (hds : ds <+: cs) :
    resolve st'.disk 2 ds = resolve st.disk 2 ds := by
  refine resolve_congr fun pre hpre hne m hm => hsame m (resolve_live .root hm) ?_
  rintro rfl
  obtain rfl := ok.resolve_inj hm h
  exact hne (hpre.eq_of_length_le hds.length_le)

theorem TreeOk.resolve_to : resolve st'.disk 2 cs = .ok n := by
  rw [ok.resolve_upto hsame h List.prefix_rfl, h]

end Walks

section LinkStep
variable {st st' : FsState} {n b : Nat} {i : Fin 128} {c : List UInt8} {tbl : Option Nat}
  (h : LinkStep st st' n b i c tbl) (ok : TreeOk st)
include h ok

theorem LinkStep.lookup_new : lookup st'.disk n c = some i := by
  obtain ⟨e, hv, -, hname, hes⟩ := h.entry
  refine lookup_of_name (h.dirOk_n ok) ?_ ?_
  · rw [hes, Function.update_self, hv]
  · rw [hes, Function.update_self, hname]

omit ok in
theorem LinkStep.target_new : (entriesAt st'.disk n i).inode.toNat = b := by
  obtain ⟨e, -, hi, -, hes⟩ := h.entry
  rw [hes, Function.update_self, hi]

/-- The new object is behind its path. -/
theorem LinkStep.namedBy {p : CanonPath} (hp : resolve st.disk 2 p.dirs = .ok n)
    (hc : p.last = c) : NamedBy st' p n b i where
  resolved := ok.resolve_to h.same hp
  dir := h.isDir_n
  slot := by rw [hc, h.lookup_new ok]
  target := h.target_new

end LinkStep

section Cleared
variable {st st' : FsState} {time : UInt32} {p : CanonPath} {n b : Nat} {i : Fin 128}
  (h : Cleared st st' time n b i) (ok : TreeOk st) (named : NamedBy st p n b i)
  (hempty : ∀ j, isDirAt st.disk b = true → (entriesAt st.disk b j).valid = false)
include h ok named hempty

/-- After the removal the directory is still there and has no entry of that name. -/
theorem Cleared.readyIn : ReadyIn st' p n := by
  have hstep := h.unlinkStep ok named hempty
  refine ⟨ok.resolve_to hstep.same named.resolved, hstep.dir', ?_⟩
  unfold lookup
  rw [hstep.entries', List.find?_eq_none]
  intro j _
  by_cases hji : j = i
  · subst hji
    simp
  · rw [Function.update_of_ne hji, Bool.and_eq_true, decide_eq_true_eq, not_and]
    intro hv hname
    have hok := ok.dirs n named.live named.dir
    exact hji (hok.unique j i hv named.valid (hname.trans (lookup_eq_some named.slot).2.symm))

end Cleared

/-! ## What a return value of 0 says -/

theorem and_or_right (a b c : UInt32) : (a ||| b) &&& c = (a &&& c) ||| (b &&& c) := by
  apply UInt32.toBitVec_inj.mp
  simp only [UInt32.toBitVec_and, UInt32.toBitVec_or]
  exact BitVec.and_or_distrib_right

/-- Type bits that are absent or agree leave the type the call adds. -/
theorem type_bits {mode type : UInt32} (h : TypeAgrees mode type) (ht : type &&& sIfmt = type) :
    (mode ||| type) &&& sIfmt = type := by
  rw [and_or_right, ht]
  rcases h with h | h
  · rw [h, UInt32.zero_or]
  · rw [h, ht, UInt32.or_self]

/-- The inode `b` was made for a caller: the type, the permission bits and the owner asked for,
and nothing in it yet. -/
structure MadeAs (env : Env) (type mode : UInt32) (st : FsState) (b : Nat) : Prop where
  type : (inodeAt st.disk b).mode &&& sIfmt = type
  permission : (inodeAt st.disk b).mode &&& 0o7777 = mode &&& 0o7777
  owner : (inodeAt st.disk b).uid = env.uid ∧ (inodeAt st.disk b).gid = env.gid
  empty : if isDirAt st.disk b then ∀ i, (entriesAt st.disk b i).valid = false
    else (inodeAt st.disk b).size = 0

/-- The directory of the path has 128 valid entries. -/
def ParentFull (st : FsState) (p : CanonPath) : Prop :=
  ∃ n, resolve st.disk 2 p.dirs = .ok n ∧ isDirAt st.disk n = true ∧
    ∀ i, (entriesAt st.disk n i).valid = true

/-- What the result of a creation promises: 0 says that the path leads to the inode that was
allocated, made as asked for; and a full directory is reported, with nothing changed. -/
structure Honest (env : Env) (type mode : UInt32) (st : FsState) (p : CanonPath)
    (run : Except Fault (Int × FsState)) : Prop where
  done : ∀ st', run = .ok (0, st') → ∃ b : Nat, (allocBlk st).1 = b ∧
    (∀ env', pathToInum env' st'.disk p.bytes = .ok b) ∧ MadeAs env type mode st' b
  full : ParentFull st p → run = .ok (-enospc, st)

section Honest
variable {st st' : FsState} {p : CanonPath} {n b : Nat} {tbl : Option Nat} {ino : Inode}

theorem FirstFree.allocBlk_eq {c : List UInt8} (h : FirstFree st st' n b c tbl) :
    (allocBlk st).1 = b := by
  rcases st.allocBlk_unmarked with ⟨b', hb', hmin, halloc⟩ | ⟨hempty, -⟩
  · have hle := h.block.2 hb'
    have hge := hmin b h.block.1
    rw [halloc, le_antisymm hge hle]
  · have hb := h.block.1
    simp [hempty] at hb

/-- With a slot left, the new object has got its entry. -/
theorem Placed.linked {c : List UInt8} (h : Placed st st' n b c tbl ino) (ok : TreeOk st)
    (habsent : lookup st.disk n c = none) (hnew : NewObject ino tbl)
    (hroom : ∃ i, (entriesAt st.disk n i).valid = false) : ∃ i, LinkStep st st' n b i c tbl := by
  rcases h.entry with ⟨hfull, -⟩ | ⟨i, e, hslot, hv, hi, hname, htable⟩
  · obtain ⟨i, hi⟩ := hroom
    simp [hfull i] at hi
  · exact ⟨i, h.linkStep ok habsent hnew hslot ⟨hv, hi, hname⟩ htable⟩

theorem Placed.namedBy (h : Placed st st' n b p.last tbl ino) (ok : TreeOk st)
    (ready : ReadyIn st p n) (hnew : NewObject ino tbl)
    (hroom : ∃ i, (entriesAt st.disk n i).valid = false) : ∃ i, NamedBy st' p n b i := by
  obtain ⟨i, hlink⟩ := h.linked ok ready.absent hnew hroom
  exact ⟨i, hlink.namedBy ok ready.resolved rfl⟩

theorem ReadyIn.room (ready : ReadyIn st p n) (h : ¬ ParentFull st p) :
    ∃ i, (entriesAt st.disk n i).valid = false := by
  by_contra hno
  exact h ⟨n, ready.resolved, ready.dir, by simpa using hno⟩

theorem Placed.pathToInum_eq (h : Placed st st' n b p.last tbl ino) (wf : WellFormed st)
    (ready : ReadyIn st p n) (hnew : NewObject ino tbl) (hroom : ¬ ParentFull st p) (env : Env) :
    pathToInum env st'.disk p.bytes = .ok b := by
  obtain ⟨i, named⟩ := h.namedBy wf.toTreeOk ready hnew (ready.room hroom)
  rw [p.pathToInum_eq (h.wellFormed wf ready.absent hnew).toTreeOk, named.resolve_eq]
  rfl

theorem Placed.madeAs_file {env : Env} {mode : UInt32}
    (h : Placed st st' n b p.last none (newFileInode env mode)) (hmode : TypeAgrees mode sIfreg) :
    MadeAs env sIfreg mode st' b := by
  have hfile : isDirAt st'.disk b = false := h.isDirAt_object.trans (sIsdir_reg mode)
  refine ⟨?_, ?_, ?_, ?_⟩
  · rw [h.inode]
    exact type_bits hmode (by decide)
  · rw [h.inode]
    show (mode ||| sIfreg) &&& 0o7777 = _
    rw [and_or_right, show sIfreg &&& 0o7777 = 0 by decide, UInt32.or_zero]
  · rw [h.inode]
    exact ⟨rfl, rfl⟩
  · simp only [hfile, Bool.false_eq_true, if_false]
    exact h.size_object (newObject_file env mode) hfile

theorem Placed.madeAs_dir {env : Env} {mode : UInt32} {t : Nat} (ht : t < 32768)
    (h : Placed st st' n b p.last (some t) (newDirInode env mode t))
    (hmode : TypeAgrees mode sIfdir) : MadeAs env sIfdir mode st' b := by
  have hnew := newObject_dir env (typeAgrees_dir hmode) ht
  have hdir : isDirAt st'.disk b = true := h.isDirAt_object.trans hnew.1
  refine ⟨?_, ?_, ?_, ?_⟩
  · rw [h.inode]
    exact type_bits hmode (by decide)
  · rw [h.inode]
    show (mode ||| sIfdir) &&& 0o7777 = _
    rw [and_or_right, show sIfdir &&& 0o7777 = 0 by decide, UInt32.or_zero]
  · rw [h.inode]
    exact ⟨rfl, rfl⟩
  · simp only [hdir, if_true]
    exact h.entries_object hnew hdir

/-- A creation that fails, aborts, or makes its object, which has a path unless the directory is
full, keeps the promise where the directory is not full. -/
theorem honest_iff {env : Env} {type mode : UInt32} {run : Except Fault (Int × FsState)}
    (h : (∃ r, r < 0 ∧ r ≠ -enospc ∧ run = .ok (r, st)) ∨ run = .error .assertion ∨
      ∃ (b : Nat) (s : FsState), run = .ok (0, s) ∧ (allocBlk st).1 = b ∧
        MadeAs env type mode s b ∧
        (¬ ParentFull st p → ∀ env', pathToInum env' s.disk p.bytes = .ok b)) :
    Honest env type mode st p run ↔ ¬ ParentFull st p := by
  constructor
  · intro hon hfull
    have hcode := hon.full hfull
    rcases h with ⟨r, -, hne, hrun⟩ | hrun | ⟨b, s, hrun, -⟩
    · rw [hcode] at hrun
      exact hne (Prod.mk.inj (Except.ok.inj hrun)).1.symm
    · simp [hcode] at hrun
    · simp [hcode, enospc] at hrun
  · intro hroom
    refine ⟨fun st' hst' => ?_, fun hfull => absurd hfull hroom⟩
    rcases h with ⟨r, hr, -, hrun⟩ | hrun | ⟨b, s, hrun, halloc, hmade, hpath⟩
    · rw [hrun] at hst'
      have := (Prod.mk.inj (Except.ok.inj hst')).1
      omega
    · simp [hrun] at hst'
    · rw [hrun] at hst'
      obtain ⟨-, rfl⟩ := Prod.mk.inj (Except.ok.inj hst')
      exact ⟨b, halloc, hpath hroom, hmade⟩

end Honest

/-- Creations keep the promise exactly where the directory has a slot left: into a full one they
never return `-ENOSPC`. -/
theorem creation_honest_iff {st : FsState} (wf : WellFormed st) (env : Env) (p : CanonPath)
    (mode : UInt32) :
    (TypeAgrees mode sIfreg →
      (Honest env sIfreg mode st p (fsCreate env p.bytes mode st) ↔ ¬ ParentFull st p)) ∧
    (TypeAgrees mode sIfdir →
      (Honest env sIfdir mode st p (fsMkdir env p.bytes mode st) ↔ ¬ ParentFull st p)) := by
  refine ⟨fun hmode => honest_iff ?_, fun hmode => honest_iff ?_⟩
  · rcases wf.toTreeOk.fsCreate_cases env p mode with
      ⟨r, hr, hne, -, hrun, -⟩ | ⟨n, ready, ⟨-, hrun⟩ | ⟨b, s, hrun, -, hplaced, hfirst⟩⟩
    · exact .inl ⟨r, hr, hne, hrun⟩
    · exact .inr (.inl hrun)
    · exact .inr (.inr ⟨b, s, hrun, hfirst.allocBlk_eq, hplaced.madeAs_file hmode,
        hplaced.pathToInum_eq wf ready (newObject_file env mode)⟩)
  · rcases wf.toTreeOk.fsMkdir_cases env p mode with
      ⟨r, hr, hne, -, hrun, -⟩ | ⟨n, ready, ⟨-, hrun⟩ | ⟨b, t, s, hrun, ht, -, hplaced, hfirst⟩⟩
    · exact .inl ⟨r, hr, hne, hrun⟩
    · exact .inr (.inl hrun)
    · exact .inr (.inr ⟨b, s, hrun, hfirst.allocBlk_eq, hplaced.madeAs_dir ht hmode,
        hplaced.pathToInum_eq wf ready (newObject_dir env (typeAgrees_dir hmode) ht)⟩)

/-- `fs_create ("/a")` in an empty file system keeps the promise. -/
theorem creation_honest_empty : ¬ ParentFull (emptyState 399) pathA ∧
    Honest quietEnv sIfreg 0o644 (emptyState 399) pathA
      (fsCreate quietEnv pathA.bytes 0o644 (emptyState 399)) := by
  have hroom : ¬ ParentFull (emptyState 399) pathA := by
    rintro ⟨n, hn, -, hfull⟩
    obtain rfl : 2 = n := Except.ok.inj hn
    have h0 := hfull 0
    rw [show (emptyState 399).disk = emptyDisk 399 from rfl,
      emptyDisk_entries (by omega) (by omega)] at h0
    exact absurd h0 (by decide)
  exact ⟨hroom, ((creation_honest_iff (emptyState_wellFormed (by omega) (by omega)) quietEnv pathA
    0o644).1 (.inl (by decide))).mpr hroom⟩

/-! ## A full directory -/

/-- The state a call leaves; that before it if the call does not return. -/
def stateAfter (st : FsState) : Except Fault (Int × FsState) → FsState
  | .ok (_, st') => st'
  | .error _ => st

/-- The `k`-th of 128 names of one byte. -/
def fillName (k : Nat) : List UInt8 := [UInt8.ofNat (128 + k % 128)]

theorem component_fillName (k : Nat) : Component (fillName k) := by
  have hk : ∀ j : Fin 128, UInt8.ofNat (128 + j.val) ≠ 0 ∧ UInt8.ofNat (128 + j.val) ≠ slash := by
    decide
  obtain ⟨h0, hs⟩ := hk ⟨k % 128, Nat.mod_lt _ (by omega)⟩
  refine ⟨by simp [fillName], by simp [fillName], ?_, ?_⟩
  · simpa [fillName] using hs.symm
  · simpa [fillName] using h0.symm

/-- An empty file system after `fs_create` of the first `k` names. -/
def fillRoot : Nat → FsState
  | 0 => emptyState 399
  | k + 1 => stateAfter (fillRoot k)
      (fsCreate quietEnv (rootPath (fillName k) (component_fillName k)).bytes 0o644 (fillRoot k))

/-- The root directory has `k` entries, under the first `k` names. -/
structure Filled (st : FsState) (k : Nat) : Prop where
  wf : WellFormed st
  count : (Finset.univ.filter fun i => (entriesAt st.disk 2 i).valid = true).card = k
  names : ∀ i, (entriesAt st.disk 2 i).valid = true →
    ∃ j < k, (entriesAt st.disk 2 i).nameOf = some (fillName j)
  room : 200 ≤ st.unmarked.card + k

/-- Every block behind the last one of the image is unmarked. -/
theorem emptyState_room : 32368 ≤ (emptyState 399).unmarked.card := by
  have hsub : Finset.Icc 400 32767 ⊆ (emptyState 399).unmarked := by
    intro x hx
    rw [Finset.mem_Icc] at hx
    rw [FsState.mem_unmarked, emptyState_marked (by omega)]
    omega
  exact (by simp : 32368 ≤ (Finset.Icc 400 32767).card).trans (Finset.card_le_card hsub)

theorem fillRoot_zero : Filled (fillRoot 0) 0 := by
  have hes : entriesAt (fillRoot 0).disk 2 = fun _ => noEntry :=
    emptyDisk_entries (by omega) (by omega)
  refine ⟨emptyState_wellFormed (by omega) (by omega), ?_, ?_, ?_⟩
  · simp [hes, noEntry]
  · simp [hes, noEntry]
  · have hroom := emptyState_room
    show 200 ≤ (emptyState 399).unmarked.card + 0
    omega

theorem Placed.card_unmarked {st st' : FsState} {n b : Nat} {c : List UInt8} {tbl : Option Nat}
    {ino : Inode} (h : Placed st st' n b c tbl ino) :
    st.unmarked.card ≤ st'.unmarked.card + (insert b tbl.toFinset).card := by
  have hsub : st.unmarked ⊆ st'.unmarked ∪ (insert b tbl.toFinset) := by
    intro x hx
    by_cases hx' : x ∈ st'.unmarked
    · exact Finset.mem_union_left _ hx'
    · exact Finset.mem_union_right _ (h.taken (Finset.mem_sdiff.mpr ⟨hx, hx'⟩))
  exact (Finset.card_le_card hsub).trans (Finset.card_union_le _ _)

theorem fillName_inj {j k : Nat} (hj : j < 128) (hk : k < 128) (h : fillName j = fillName k) :
    j = k := by
  have hval := congrArg (fun l => (l.headD 0).toNat) h
  simp only [fillName, List.headD_cons, UInt8.toNat_ofNat'] at hval
  omega

/-- One more file, as long as a slot is left. -/
theorem Filled.create {st : FsState} {k : Nat} (h : Filled st k) (hk : k < 128) :
    Filled (stateAfter st
      (fsCreate quietEnv (rootPath (fillName k) (component_fillName k)).bytes 0o644 st))
        (k + 1) := by
  have ok := h.wf.toTreeOk
  have hready : ReadyIn st (rootPath (fillName k) (component_fillName k)) 2 := by
    refine ⟨rfl, ok.root, List.find?_eq_none.mpr fun i _ => ?_⟩
    rw [Bool.and_eq_true, decide_eq_true_eq, not_and]
    intro hv hname
    obtain ⟨j, hj, hname'⟩ := h.names i hv
    have := fillName_inj (by omega) hk (Option.some.inj (hname'.symm.trans hname))
    omega
  have hfree : st.unmarked.Nonempty := by
    have hroom := h.room
    exact Finset.card_pos.mp (by omega)
  obtain ⟨b, st', hrun, hplaced, -⟩ := hready.fsCreate_ok ok quietEnv 0o644 hfree
  rw [hrun]
  show Filled st' (k + 1)
  have hcard := hplaced.card_unmarked
  have hroom := h.room
  rcases hplaced.entry with ⟨hfull, -⟩ | ⟨i, e, hslot, hv, hi, hname, htable⟩
  · have hcount := h.count
    simp [hfull] at hcount
    omega
  · have hes := hplaced.entriesAt_parent ok htable
    refine ⟨hplaced.wellFormed h.wf hready.absent (newObject_file quietEnv _), ?_, ?_, ?_⟩
    · have hvalid : (Finset.univ.filter fun j => (entriesAt st'.disk 2 j).valid = true) =
          insert i (Finset.univ.filter fun j => (entriesAt st.disk 2 j).valid = true) := by
        ext j
        by_cases hji : j = i
        · subst hji
          simp [hes, hv]
        · simp [hes, hji]
      rw [hvalid, Finset.card_insert_of_notMem (by simp [hslot]), h.count]
    · intro j hj
      by_cases hji : j = i
      · subst hji
        exact ⟨k, by omega, by rw [hes, Function.update_self]; exact hname⟩
      · rw [hes, Function.update_of_ne hji] at hj ⊢
        obtain ⟨l, hl, hl'⟩ := h.names j hj
        exact ⟨l, by omega, hl'⟩
    · simp at hcard
      omega

theorem fillRoot_filled {k : Nat} (hk : k ≤ 128) : Filled (fillRoot k) k := by
  induction k with
  | zero => exact fillRoot_zero
  | succ k ih => exact (ih (by omega)).create (by omega)

/-- In a root directory with 128 files `fs_create ("/a")` returns 0, and then there is no `/a`. -/
theorem creation_full_root : WellFormed (fillRoot 128) ∧ ParentFull (fillRoot 128) pathA ∧
    ∃ st', fsCreate quietEnv pathA.bytes 0o644 (fillRoot 128) = .ok (0, st') ∧
      pathToInum quietEnv st'.disk pathA.bytes = .ok (-enoent) := by
  have h := fillRoot_filled le_rfl
  generalize fillRoot 128 = st at h
  have ok := h.wf.toTreeOk
  have hfull : ∀ i, (entriesAt st.disk 2 i).valid = true := by
    have huniv := (Finset.card_eq_iff_eq_univ _).mp (h.count.trans (Fintype.card_fin 128).symm)
    intro i
    have hmem := Finset.mem_univ i
    rw [← huniv] at hmem
    simpa using hmem
  have habsent : lookup st.disk 2 pathA.last = none := by
    refine List.find?_eq_none.mpr fun i _ => ?_
    rw [Bool.and_eq_true, decide_eq_true_eq, not_and]
    intro hv hname
    obtain ⟨j, hj, hname'⟩ := h.names i hv
    have hfin : ∀ j : Fin 128, some (fillName j.val) ≠ some pathA.last := by decide
    exact hfin ⟨j, hj⟩ (hname'.symm.trans hname)
  have hready : ReadyIn st pathA 2 := ⟨rfl, ok.root, habsent⟩
  have hfree : st.unmarked.Nonempty := by
    have hroom := h.room
    exact Finset.card_pos.mp (by omega)
  obtain ⟨b, st', hrun, hplaced, -⟩ := hready.fsCreate_ok ok quietEnv 0o644 hfree
  have hsame := hplaced.sameNode_of_full ok hfull .root
  have hwf := hplaced.wellFormed h.wf habsent (newObject_file quietEnv 0o644)
  refine ⟨h.wf, ⟨2, rfl, ok.root, hfull⟩, st', hrun, ?_⟩
  rw [pathA.pathToInum_eq hwf.toTreeOk, pathA.resolve_last rfl, resolve, hwf.root,
    lookup_congr (hsame.entriesAt ok.root), habsent]
  rfl

/-! ## A chain of directories -/

/-- `fs_mkdir` of `/c₁`, `/c₁/c₂` and so on, below the directory with the components `done`. -/
def mkdirAll : FsState → (done cs : List (List UInt8)) → FsState
  | st, _, [] => st
  | st, done, c :: cs =>
    mkdirAll (stateAfter st (fsMkdir quietEnv (render (done ++ [c])) 0o755 st)) (done ++ [c]) cs

/-- The tree is a chain of directories with the names `cs`. -/
structure Nested (st : FsState) (cs : List (List UInt8)) : Prop where
  wf : WellFormed st
  path : ∃ n, resolve st.disk 2 cs = .ok n ∧ isDirAt st.disk n = true ∧
    ∀ i, (entriesAt st.disk n i).valid = false
  only : ∀ ds m, resolve st.disk 2 ds = .ok m → ds <+: cs
  room : 100 ≤ st.unmarked.card + 2 * cs.length

/-- What a walk passes through is reached by a shorter one. -/
theorem resolve_prefix {d : Disk} {pre cs : List (List UInt8)} {m : Nat} (hpre : pre <+: cs)
    (h : resolve d 2 cs = .ok m) : ∃ k, resolve d 2 pre = .ok k := by
  obtain ⟨suf, rfl⟩ := hpre
  induction suf using List.reverseRecOn generalizing m with
  | nil => exact ⟨m, by simpa using h⟩
  | append_singleton suf c ih =>
    rw [← List.append_assoc] at h
    obtain ⟨k, i, hk, -⟩ := resolve_concat h
    exact ih hk

theorem lookup_of_invalid {d : Disk} {n : Nat} (h : ∀ i, (entriesAt d n i).valid = false)
    (c : List UInt8) : lookup d n c = none :=
  List.find?_eq_none.mpr fun i _ => by simp [h i]

/-- In a chain of directories, a new directory at its end leaves a chain. -/
theorem LinkStep.prefix_of_resolve {st st' : FsState} {n b : Nat} {i : Fin 128} {c : List UInt8}
    {tbl : Option Nat} (h : LinkStep st st' n b i c tbl) (ok : TreeOk st)
    {cs : List (List UInt8)} (hn : resolve st.disk 2 cs = .ok n)
    (hempty : ∀ j, (entriesAt st.disk n j).valid = false)
    (honly : ∀ ds m, resolve st.disk 2 ds = .ok m → ds <+: cs) {ds : List (List UInt8)} {m : Nat}
    (hds : resolve st'.disk 2 ds = .ok m) : ds <+: cs ++ [c] := by
  have hto := ok.resolve_to h.same hn
  induction ds using List.reverseRecOn generalizing m with
  | nil => exact List.nil_prefix
  | append_singleton ds x ih =>
    obtain ⟨k, j, hk, hdir, hl, hm⟩ := resolve_concat hds
    rcases List.prefix_concat_iff.mp (ih hk) with rfl | hpre
    · -- the new directory has no entries
      obtain ⟨k', i', hk', -, hl', hb⟩ := resolve_concat hk
      obtain rfl := Except.ok.inj (hto.symm.trans hk')
      obtain rfl := Option.some.inj ((h.lookup_new ok).symm.trans hl')
      rw [h.target_new] at hb
      subst hb
      rw [lookup_of_invalid fun j => h.entries j hdir] at hl
      simp at hl
    · by_cases hcs : ds = cs
      · -- the directory that got the entry has no other
        subst hcs
        obtain rfl := Except.ok.inj (hto.symm.trans hk)
        obtain ⟨e, -, -, hname, hes⟩ := h.entry
        obtain ⟨hv, hx⟩ := lookup_eq_some hl
        by_cases hji : j = i
        · subst hji
          rw [hes, Function.update_self, hname] at hx
          rw [Option.some.inj hx]
        · rw [hes, Function.update_of_ne hji, hempty j] at hv
          simp at hv
      · have hsame : ∀ pre, pre <+: ds → ∀ l, resolve st.disk 2 pre = .ok l →
            SameNode st.disk st'.disk l := by
          intro pre hp l hl
          refine h.same l (resolve_live .root hl) ?_
          rintro rfl
          have hpc := ok.resolve_inj hl hn
          exact hcs (hpre.eq_of_length_le (hpc ▸ hp.length_le))
        have hold := resolve_congr fun pre hp _ => hsame pre hp
        rw [hold] at hk
        have hk' := hsame ds List.prefix_rfl k hk
        rw [hk'.isDirAt] at hdir
        rw [lookup_congr (hk'.entriesAt hdir)] at hl
        have hstep : resolve st.disk 2 (ds ++ [x]) = .ok (entriesAt st.disk k j).inode.toNat := by
          rw [resolve_append, hk]
          exact resolve_cons_some hdir hl
        exact (honly _ _ hstep).trans (List.prefix_append _ _)

theorem Nested.mkdir {st : FsState} {cs : List (List UInt8)} {c : List UInt8} (h : Nested st cs)
    (hcs : ∀ x ∈ cs ++ [c], Component x) (hlen : cs.length ≤ 9) :
    Nested (stateAfter st (fsMkdir quietEnv (render (cs ++ [c])) 0o755 st)) (cs ++ [c]) := by
  have ok := h.wf.toTreeOk
  obtain ⟨n, hn, hdir, hempty⟩ := h.path
  let p : CanonPath := ⟨cs, c, hcs, hlen⟩
  have hready : ReadyIn st p n := ⟨hn, hdir, lookup_of_invalid hempty c⟩
  rcases ok.fsMkdir_cases quietEnv p 0o755 with
    ⟨r, -, -, hno, -⟩ | ⟨n', hready', ⟨hcard, -⟩ | ⟨b, t, st', hrun, ht, -, hplaced, -⟩⟩
  · exact absurd ⟨n, hready⟩ hno
  · have hroom := h.room
    omega
  · obtain rfl := Except.ok.inj (hready'.resolved.symm.trans hn)
    have hnew : NewObject (newDirInode quietEnv 0o755 t) (some t) :=
      newObject_dir quietEnv (.inl (by decide)) ht
    rw [show render (cs ++ [c]) = p.bytes from rfl, hrun]
    show Nested st' (cs ++ [c])
    obtain ⟨i, hlink⟩ := hplaced.linked ok hready.absent hnew ⟨0, hempty 0⟩
    have hnamed : NamedBy st' p n' b i := hlink.namedBy ok hn rfl
    have hb : isDirAt st'.disk b = true := hplaced.isDirAt_object.trans hnew.1
    refine ⟨hlink.wellFormed h.wf, ⟨b, hnamed.resolve_eq, hb, fun j => hlink.entries j hb⟩,
      fun ds m => hlink.prefix_of_resolve ok hn hempty h.only, ?_⟩
    have hcard := hplaced.card_unmarked.trans
      (Nat.add_le_add_left (Finset.card_insert_le _ _) _)
    have hroom := h.room
    simp only [Option.toFinset_some, Finset.card_singleton] at hcard
    simp only [List.length_append, List.length_singleton]
    omega

theorem Nested.chain {cs : List (List UInt8)} :
    ∀ {st : FsState} {done : List (List UInt8)}, Nested st done →
      (∀ x ∈ done ++ cs, Component x) → (done ++ cs).length ≤ 10 →
      Nested (mkdirAll st done cs) (done ++ cs) := by
  induction cs with
  | nil =>
    intro st done h _ _
    rw [List.append_nil]
    exact h
  | cons c cs ih =>
    intro st done h hcs hlen
    simp only [List.length_append, List.length_cons] at hlen
    have hstep : Nested _ (done ++ [c]) :=
      h.mkdir (fun x hx => hcs x (by simp at hx ⊢; tauto)) (by omega)
    rw [List.append_cons] at hcs ⊢
    exact ih hstep hcs (by simp; omega)

/-- Every path of up to ten components is that of a directory in some image. -/
theorem nested_mkdirAll {cs : List (List UInt8)} (hcs : ∀ x ∈ cs, Component x)
    (hlen : cs.length ≤ 10) : Nested (mkdirAll (emptyState 399) [] cs) cs := by
  have hes : entriesAt (emptyState 399).disk 2 = fun _ => noEntry :=
    emptyDisk_entries (by omega) (by omega)
  have hinvalid : ∀ i, (entriesAt (emptyState 399).disk 2 i).valid = false := by
    intro i
    rw [hes]
    rfl
  have wf : WellFormed (emptyState 399) := emptyState_wellFormed (by omega) (by omega)
  have hroom := emptyState_room
  have hroot : Nested (emptyState 399) [] := by
    refine ⟨wf, ⟨2, rfl, wf.root, hinvalid⟩, ?_, by omega⟩
    rintro ds m hds
    rcases ds with - | ⟨c, ds⟩
    · exact List.prefix_rfl
    · rw [resolve, wf.root, lookup_of_invalid hinvalid] at hds
      simp at hds
  exact hroot.chain (by simpa using hcs) (by simpa using hlen)

end SystemsProjects.Fs5600
