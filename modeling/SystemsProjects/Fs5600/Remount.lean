import SystemsProjects.Fs5600.Frame

/-!
# Remounting

`fs_init` reads the bitmap from block 1 into memory, and nothing writes it back. Block 1 agrees
with the bitmap in memory as long as the calls move no blocks, and the first call that moves one
makes them differ.
-/

namespace SystemsProjects.Fs5600
open SystemsProjects.Lib

/-- Block 1 of the disk is the bitmap in memory. -/
def Synced (st : FsState) : Prop := st.disk.data 1 = st.blockBitmap

/-! ## `fs_init` -/

/-- What `fs_init` has read. -/
structure Mounted (st : FsState) : Prop where
  magic : (decodeSuper (st.disk.data 0)).magic = fsMagic
  size : st.numBlocks = (decodeSuper (st.disk.data 0)).diskSize

theorem fsInit_eq (env : Env) {d : Disk} (hlen : 1 < d.len) :
    fsInit env d = if (decodeSuper (d.data 0)).magic ≠ fsMagic then .error .exit
      else .ok { disk := d, numBlocks := (decodeSuper (d.data 0)).diskSize,
                 blockBitmap := d.data 1 } := by
  have h0 : blockRead d (env.junk [0]) 0 = (d.data 0, 0) := by
    have := blockRead_of_lt (d := d) (n := 0) (env.junk [0]) (by omega) (by omega)
    rwa [Nat.cast_zero] at this
  have h1 : blockRead d Block.zero 1 = (d.data 1, 0) := by
    have := blockRead_of_lt (d := d) (n := 1) Block.zero (by omega) hlen
    rwa [Nat.cast_one] at this
  unfold fsInit
  simp only [h0, h1, lt_self_iff_false, if_false]

theorem fsInit_disk {env : Env} {d : Disk} {st : FsState} (h : fsInit env d = .ok st) :
    st.disk = d := by
  simp only [fsInit] at h
  split_ifs at h
  obtain rfl := Except.ok.inj h
  rfl

theorem WellFormed.one_lt_len {st : FsState} (wf : WellFormed st) : 1 < st.disk.len := by
  have := wf.lt_len (Reach.root.owned : InUse st.disk 2)
  omega

theorem fsInit_mounted {env : Env} {d : Disk} {st : FsState} (h : fsInit env d = .ok st)
    (wf : WellFormed st) : Mounted st ∧ Synced st := by
  obtain rfl := fsInit_disk h
  rw [fsInit_eq env wf.one_lt_len] at h
  split_ifs at h with hmagic
  obtain ⟨hnum, hmap⟩ : st.numBlocks = (decodeSuper (st.disk.data 0)).diskSize ∧
      st.blockBitmap = st.disk.data 1 := by
    constructor <;> rw [← Except.ok.inj h]
  exact ⟨⟨not_not.mp hmagic, hnum⟩, hmap.symm⟩

/-- A mounted file system in step with its disk is what `fs_init` makes of that disk. -/
theorem Mounted.remount {st : FsState} (h : Mounted st) (hsync : Synced st) (hlen : 1 < st.disk.len)
    (env : Env) : fsInit env st.disk = .ok st := by
  rw [fsInit_eq env hlen, if_neg (by simp [h.magic]), ← h.size, hsync]

/-! ## The two reserved blocks -/

/-- No effect touches the superblock or block 1. -/
theorem Effect.reserved {env : Env} {st st' : FsState} {op : Op} (h : Effect env st op st')
    (ok : TreeOk st) {x : Nat} (hx : x < 2) :
    st'.disk.data x = st.disk.data x ∧ st'.numBlocks = st.numBlocks := by
  have hlow : ∀ y, InUse st.disk y → x ≠ y := fun y hy he => by
    have := ok.two_le hy
    omega
  cases h with
  | create _ _ hplaced => exact ⟨hplaced.frame_low ok hx, hplaced.numBlocks⟩
  | mkdir _ _ _ hplaced => exact ⟨hplaced.frame_low ok hx, hplaced.numBlocks⟩
  | unlink named _ hclear =>
    exact ⟨hclear.frame x (hlow _ named.live.owned) (hlow _ (named.live.table_inUse named.dir)),
      hclear.numBlocks⟩
  | rmdir named _ _ hclear =>
    exact ⟨hclear.frame x (hlow _ named.live.owned) (hlow _ (named.live.table_inUse named.dir)),
      hclear.numBlocks⟩
  | rename _ hren =>
    obtain ⟨e, -, -, -, rfl⟩ := hren.write
    exact ⟨Disk.write_ne _ _ (hlow _ (hren.live.table_inUse hren.dir)), rfl⟩
  | @write p buf off f _ w hgrown =>
    have hxf := hlow f w.live.owned
    refine ⟨?_, hgrown.numBlocks⟩
    rw [hgrown.frame x hxf fun i hi he => ?_, startWrite, FsState.write_disk, Disk.write_ne _ _ hxf]
    have huse :=
      (hgrown.step.live_iff.mpr ((w.accepts.fileStep_start ok).live_iff.mpr w.live)).data_inUse
      hgrown.step.file' (hgrown.ptr_ne_zero hi)
    have := hgrown.ok.two_le huse
    omega
  | truncate _ hempty => exact ⟨hempty.frame x (hlow _ hempty.live.owned), hempty.numBlocks⟩
  | chmod named => exact ⟨Disk.write_ne _ _ (hlow _ named.live_target.owned), rfl⟩
  | utime named => exact ⟨Disk.write_ne _ _ (hlow _ named.live_target.owned), rfl⟩

/-! ## The bitmap in memory -/

/-- A new object marks its inode. -/
theorem Placed.marks {st st' : FsState} {n b : Nat} {c : List UInt8} {tbl : Option Nat}
    {ino : Inode} (h : Placed st st' n b c tbl ino) : ¬ ∀ x, Marked st' x ↔ Marked st x := by
  intro hsame
  have hmark : Marked st' b := (h.marked b).mpr (.inr (.inl rfl))
  exact (h.unmarked b (.inl rfl)).1 ((hsame b).mp hmark)

/-- A removed object gives back its inode. -/
theorem Cleared.unmarks {st st' : FsState} {time : UInt32} {p : CanonPath} {n b : Nat}
    {i : Fin 128} (h : Cleared st st' time n b i) (ok : TreeOk st) (named : NamedBy st p n b i) :
    ¬ ∀ x, Marked st' x ↔ Marked st x := by
  intro hsame
  have hmark := (hsame b).mpr (ok.used b named.live_target.owned).2.2.1
  exact ((h.marked b).mp hmark).2.1 rfl

/-- The bitmap in memory stays exactly when the call moves no block. -/
theorem Effect.blockBitmap_iff {env : Env} {st st' : FsState} {op : Op}
    (h : Effect env st op st') (ok : TreeOk st) :
    st'.blockBitmap = st.blockBitmap ↔ ¬ op.MovesBlocks st := by
  rw [blockBitmap_eq_iff]
  cases h with
  | @create p mode n b _ ready _ hplaced =>
    exact iff_of_false hplaced.marks (not_not.mpr ⟨n, ready⟩)
  | @mkdir p mode n b t _ ready _ _ hplaced =>
    exact iff_of_false hplaced.marks (not_not.mpr ⟨n, ready⟩)
  | @unlink p n b i _ named hfile hclear =>
    exact iff_of_false (hclear.unmarks ok named) (not_not.mpr ⟨n, b, i, named, hfile⟩)
  | @rmdir p n b i _ named hdir hempty hclear =>
    exact iff_of_false (hclear.unmarks ok named) (not_not.mpr ⟨n, b, i, named, hdir, hempty⟩)
  | rename _ hren => exact iff_of_true (fun x => hren.marked_iff) id
  | @write p buf off f _ w hgrown =>
    constructor
    · rintro hsame ⟨f', w', i, hi⟩
      obtain rfl := Except.ok.inj (w.resolved.symm.trans w'.resolved)
      exact hgrown.unmarked_start hi ((hsame _).mp (hgrown.marked_iff.mpr (.inr ⟨i, hi, rfl⟩)))
    · intro hno x
      rw [hgrown.marked_iff]
      refine ⟨fun hx => hx.resolve_right ?_, .inl⟩
      rintro ⟨i, hi, -⟩
      exact hno ⟨f, w, i, hi⟩
  | @truncate p n b i _ named hempty =>
    constructor
    · rintro hsame ⟨-, n', b', i', named', hfile, j, hj⟩
      obtain rfl := named.target_eq named'.resolve_eq
      have hmark := (hsame _).mpr (ok.used _ (named.live_target.data_inUse hfile hj)).2.2.1
      exact ((hempty.marked _).mp hmark).2 (.data j) (refs_data hfile hj)
    · intro hno x
      rw [hempty.marked]
      refine ⟨And.left, fun hx => ⟨hx, (refs_file_iff hempty.file).mpr fun j _ hj => ?_⟩⟩
      exact absurd ⟨rfl, n, b, i, named, hempty.file, j, hj⟩ hno
  | chmod => exact iff_of_true (fun x => st.marked_write _ _ _) id
  | utime => exact iff_of_true (fun x => st.marked_write _ _ _) id

/-! ## Runs -/

/-- A call that returns and moves no block. -/
def QuietStep (st : FsState) (x : Env × Op) (st' : FsState) : Prop :=
  OpStep st x st' ∧ ¬ x.2.MovesBlocks st

/-- What a mounted file system in step with its disk keeps. -/
structure InStep (st : FsState) : Prop extends WellFormed st, Mounted st where
  synced : Synced st

/-- After a call block 1 agrees with the bitmap in memory exactly if the call moved no block. -/
theorem InStep.synced_iff {st st' : FsState} (h : InStep st) {env : Env} {op : Op} (hop : op.Sized)
    {r : Int} (hrun : exec env st op.call = .ok (r, st')) :
    Synced st' ↔ ¬ op.MovesBlocks st := by
  rcases h.toWellFormed.exec_ok hop hrun with ⟨rfl, hno⟩ | ⟨-, heff⟩
  · exact iff_of_true h.synced hno
  · unfold Synced
    rw [(heff.reserved h.toTreeOk (x := 1) (by omega)).1, h.synced, eq_comm,
      heff.blockBitmap_iff h.toTreeOk]

theorem QuietStep.inStep {st st' : FsState} {x : Env × Op} (h : InStep st)
    (hstep : QuietStep st x st') : InStep st' := by
  obtain ⟨⟨hsized, hmode, r, hrun⟩, hquiet⟩ := hstep
  have hwf := OpStep.wellFormed h.toWellFormed ⟨hsized, hmode, r, hrun⟩
  have hsync := (h.synced_iff hsized hrun).mpr hquiet
  rcases h.toWellFormed.exec_ok hsized hrun with ⟨rfl, -⟩ | ⟨-, heff⟩
  · exact h
  · obtain ⟨hdata, hnum⟩ := heff.reserved h.toTreeOk (x := 0) (by omega)
    exact { toWellFormed := hwf, synced := hsync, magic := by rw [hdata]; exact h.magic
            size := by rw [hdata, hnum]; exact h.size }

/-- From `fs_init` on a well-formed image, through any run of calls that move no block: block 1 is
the bitmap in memory, `fs_init` on the disk gives the same state again, and `alloc_blk` then hands
out no block in use. The next call keeps block 1 in step exactly if it moves no block. -/
theorem synced_run {env : Env} {d : Disk} {st st' : FsState} {xs : List (Env × Op)}
    (hinit : fsInit env d = .ok st) (wf : WellFormed st) (hrun : Steps QuietStep st xs st') :
    Synced st' ∧ (∀ env', fsInit env' st'.disk = .ok st') ∧
      (∀ (b : Nat) (st'' : FsState), allocBlk st' = ((b : Int), st'') → ¬ InUse st'.disk b) ∧
      ∀ (env' : Env) (op : Op) (r : Int) (st'' : FsState), op.Sized →
        exec env' st' op.call = .ok (r, st'') → (Synced st'' ↔ ¬ op.MovesBlocks st') := by
  obtain ⟨hmount, hsync⟩ := fsInit_mounted hinit wf
  have hend : InStep st' := hrun.invariant (fun s x t hs hstep => hstep.inStep hs)
    { toWellFormed := wf, toMounted := hmount, synced := hsync }
  refine ⟨hend.synced, hend.toMounted.remount hend.synced hend.toWellFormed.one_lt_len,
    fun b st'' halloc => ?_, fun env' op r st'' hop hr => hend.synced_iff hop hr⟩
  rcases st'.allocBlk_unmarked with ⟨b', hb', -, halloc'⟩ | ⟨-, halloc'⟩
  · rw [halloc'] at halloc
    obtain rfl := Int.ofNat.inj (Prod.mk.inj halloc).1
    exact (hend.toTreeOk.fresh (FsState.mem_unmarked.mp hb').2).2
  · rw [halloc'] at halloc
    have := (Prod.mk.inj halloc).1
    simp only [enospc] at this
    omega

theorem emptyState_init (table : Nat) :
    fsInit quietEnv (emptyDisk table) = .ok (emptyState table) := by
  have h0 : (emptyDisk table).data 0 =
      encodeSuper { magic := fsMagic, diskSize := UInt32.ofNat (table + 1) } := rfl
  have hlen : 1 < (emptyDisk table).len := lt_of_lt_of_le (by omega) (le_max_left _ _)
  rw [fsInit_eq quietEnv hlen, h0, decodeSuper_encodeSuper, if_neg (by simp)]
  rfl

/-- The image with the file `/a`, and its bitmap in block 1. -/
def syncedFile : FsState := (oneFile 399).write 1 (oneFile 399).blockBitmap

theorem oneFile_unused : ¬ InUse (oneFile 399).disk 1 := fun h =>
  ((oneFile_wellFormed (by omega) (by omega)).used 1 h).2.1 rfl

theorem syncedFile_wellFormed : WellFormed syncedFile :=
  (oneFile_wellFormed (by omega) (by omega)).write_unused oneFile_unused _

theorem syncedFile_resolve : resolve syncedFile.disk 2 pathA.comps = .ok 3 := by
  have hres := @oneFile_resolve 399 (by omega) (by omega)
  have hsame : ∀ m, Live (oneFile 399).disk m → SameNode (oneFile 399).disk syncedFile.disk m :=
    fun m hm => sameNode_write oneFile_unused _ hm
  have hlive := resolve_live .root hres
  have hfile : isDirAt (oneFile 399).disk 3 = false := oneFile_isDir (by omega) (by omega)
  have hstep : FileStep (oneFile 399) syncedFile 3 :=
    ⟨hlive, hfile, fun m hm _ => hsame m hm, (hsame 3 hlive).isDirAt.trans hfile, le_max_left _ _⟩
  rw [hstep.resolve_eq _ 2 .root, hres]

theorem syncedFile_init : fsInit quietEnv syncedFile.disk = .ok syncedFile := by
  have h0 : syncedFile.disk.data 0 =
      encodeSuper { magic := fsMagic, diskSize := UInt32.ofNat 400 } := rfl
  have hmount : Mounted syncedFile := by
    constructor
    · rw [h0, decodeSuper_encodeSuper]
    · rw [h0, decodeSuper_encodeSuper]
      rfl
  exact hmount.remount (Disk.write_same _ _ _) syncedFile_wellFormed.one_lt_len quietEnv

/-- Mounting an image with the file `/a` and changing the mode of that file. -/
theorem synced_run_chmod : ∃ st, Steps QuietStep syncedFile [(quietEnv, .chmod pathA 0o600)] st ∧
    (inodeAt st.disk 3).mode = 0o100600 ∧ Synced st := by
  have wf := syncedFile_wellFormed
  have hino : inodeAt syncedFile.disk 3 = newFileInode quietEnv 0o644 :=
    (sameNode_write oneFile_unused _ (resolve_live .root (oneFile_resolve (by omega)
      (by omega)))).inodeAt.trans (oneFile_inode (by omega) (by omega))
  have hrun := wf.toTreeOk.fsChmod_ok quietEnv pathA 0o600 syncedFile_resolve
  have hstep : QuietStep syncedFile (quietEnv, .chmod pathA 0o600) _ :=
    ⟨⟨trivial, fun _ _ => .inl (by decide), 0, hrun⟩, id⟩
  refine ⟨_, .single hstep, ?_, (synced_run syncedFile_init wf (.single hstep)).1⟩
  rw [FsState.write_disk, inodeAt_write_self, hino]
  decide

/-- Mounting an empty file system and creating `/a` leaves block 1 behind the bitmap. -/
theorem synced_lost : ¬ ∀ (env : Env) (d : Disk) (st st' : FsState) (xs : List (Env × Op)),
    fsInit env d = .ok st → WellFormed st → Steps OpStep st xs st' → Synced st' := by
  intro h
  have wf : WellFormed (emptyState 399) := emptyState_wellFormed (by omega) (by omega)
  obtain ⟨hmount, hsync⟩ := fsInit_mounted (emptyState_init 399) wf
  have hin : InStep (emptyState 399) := { toWellFormed := wf, toMounted := hmount, synced := hsync }
  obtain ⟨st', hrun, -⟩ := emptyState_create 399 (by omega) (by omega)
  have hstep : OpStep (emptyState 399) (quietEnv, .create pathA 0o644) st' :=
    ⟨trivial, .inl (by decide), 0, hrun⟩
  have hiff : Synced st' ↔ ¬ (Op.create pathA 0o644).MovesBlocks (emptyState 399) :=
    hin.synced_iff trivial hrun
  have hlost := hiff.mp
    (h quietEnv _ _ st' _ (emptyState_init 399) wf (.cons hstep (.nil st')))
  exact hlost ⟨2, emptyState_readyIn (by omega) (by omega)⟩

end SystemsProjects.Fs5600
