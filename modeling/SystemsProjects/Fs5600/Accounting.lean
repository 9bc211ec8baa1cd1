import SystemsProjects.Fs5600.Invariant
import Mathlib.Data.Finset.Option

/-!
# Block accounting

The bitmap against the blocks in use. As long as no object is created in a full directory, every
call marks exactly the blocks that come into use and unmarks exactly those that go out of use.
`alloc_blk` knows nothing of `num_blocks`: a call that needs more blocks than are unmarked below
`num_blocks` takes one from behind the end or aborts, and never returns `-ENOSPC`.
-/

namespace SystemsProjects.Fs5600
open SystemsProjects.Lib

/-- The set bits are the two reserved blocks and the blocks in use. -/
def Exact (st : FsState) : Prop := ∀ b, Marked st b ↔ b = 0 ∨ b = 1 ∨ InUse st.disk b

/-- A new object is created in a directory with a slot left. -/
def Op.HasRoom (st : FsState) : Op → Prop
  | .create p _ | .mkdir p _ => ∀ n, resolve st.disk 2 p.dirs = .ok n → isDirAt st.disk n = true →
      ∃ i, (entriesAt st.disk n i).valid = false
  | _ => True

/-! ## Exact accounting -/

section Exact
variable {st st' : FsState} (hexact : Exact st)
include hexact

/-- Blocks that come into use are marked. -/
theorem Exact.gain {P : Nat → Prop} (hmark : ∀ x, Marked st' x ↔ Marked st x ∨ P x)
    (huse : ∀ x, InUse st'.disk x ↔ InUse st.disk x ∨ P x) : Exact st' := by
  intro x
  rw [hmark, huse, hexact x]
  tauto

/-- Blocks that go out of use are unmarked; the reserved ones never do. -/
theorem Exact.lose {P : Nat → Prop} (hmark : ∀ x, Marked st' x ↔ Marked st x ∧ P x)
    (huse : ∀ x, InUse st'.disk x ↔ InUse st.disk x ∧ P x) (hlow : ∀ x, x < 2 → P x) :
    Exact st' := by
  intro x
  rw [hmark, huse, hexact x]
  constructor
  · rintro ⟨rfl | rfl | hu, hp⟩
    · exact .inl rfl
    · exact .inr (.inl rfl)
    · exact .inr (.inr ⟨hu, hp⟩)
  · rintro (rfl | rfl | ⟨hu, hp⟩)
    · exact ⟨.inl rfl, hlow 0 (by omega)⟩
    · exact ⟨.inr (.inl rfl), hlow 1 (by omega)⟩
    · exact ⟨.inr (.inr hu), hp⟩

theorem Exact.same (hmark : ∀ x, Marked st' x ↔ Marked st x)
    (hrefs : ∀ m, Live st.disk m → refs st'.disk m = refs st.disk m) : Exact st' := by
  intro x
  rw [hmark, inUse_of_refs hrefs, hexact x]

/-- An inode that keeps its type and pointers. -/
theorem Exact.write_inode (ok : TreeOk st) {b : Nat} {ino : Inode} (hb : Live st.disk b)
    (hptrs : ino.ptrs = (inodeAt st.disk b).ptrs) (hdir : sIsdir ino.mode = isDirAt st.disk b) :
    Exact (st.write b (encodeInode ino)) := by
  refine hexact.same (fun x => st.marked_write _ _ _) fun m hm => ?_
  rw [FsState.write_disk]
  exact ok.refs_write_inode hb hptrs hdir hm

/-- Removing an object unmarks it and the blocks it refers to. -/
theorem Exact.cleared {time : UInt32} {p : CanonPath} {n b : Nat} {i : Fin 128}
    (ok : TreeOk st) (hclear : Cleared st st' time n b i) (named : NamedBy st p n b i)
    (hstep : UnlinkStep st st' n b i) : Exact st' := by
  refine hexact.lose hclear.marked (fun x => hstep.inUse_iff ok) fun x hx => ⟨?_, fun l hl => ?_⟩
  · have := ok.two_le named.live_target.owned
    omega
  · have := ok.two_le (named.live_target.owned_out hl)
    omega

theorem Effect.exact {env : Env} {op : Op} (h : Effect env st op st') (wf : WellFormed st)
    (hmode : op.ModeOk st) (hroom : op.HasRoom st) : Exact st' := by
  have ok := wf.toTreeOk
  cases h with
  | create ready _ hplaced =>
    exact hexact.gain hplaced.marked fun x => hplaced.inUse_iff ok ready.absent
      (newObject_file env _) (hroom _ ready.resolved ready.dir)
  | mkdir ready ht _ hplaced =>
    exact hexact.gain hplaced.marked fun x => hplaced.inUse_iff ok ready.absent
      (newObject_dir env (typeAgrees_dir hmode) ht) (hroom _ ready.resolved ready.dir)
  | unlink named hfile hclear =>
    exact hexact.cleared ok hclear named
      (hclear.unlinkStep ok named fun j hdir => by simp [hfile] at hdir)
  | rmdir named hdir hempty hclear =>
    exact hexact.cleared ok hclear named (hclear.unlinkStep ok named fun j _ => hempty j)
  | rename named hren => exact hexact.same (fun x => hren.marked_iff) fun m hm => hren.refs_eq ok hm
  | write w hgrown => exact hexact.gain (fun x => hgrown.marked_iff) fun x => w.inUse_iff hgrown ok
  | truncate named hempty =>
    refine hexact.lose hempty.marked (fun x => hempty.inUse_iff ok) fun x hx l hl => ?_
    have := ok.two_le (named.live_target.owned_out hl)
    omega
  | chmod named =>
    exact hexact.write_inode ok named.live_target rfl (sIsdir_chmod (hmode _ named.resolve_eq))
  | utime named => exact hexact.write_inode ok named.live_target rfl rfl

end Exact

/-- A call that returns, with room for what it creates. -/
def RoomyStep (st : FsState) (x : Env × Op) (st' : FsState) : Prop :=
  OpStep st x st' ∧ x.2.HasRoom st

theorem RoomyStep.exact {st st' : FsState} {x : Env × Op} (h : RoomyStep st x st')
    (hs : WellFormed st ∧ Exact st) : WellFormed st' ∧ Exact st' := by
  obtain ⟨hstep, hroom⟩ := h
  refine ⟨hstep.wellFormed hs.1, ?_⟩
  obtain ⟨hsized, hmode, r, hrun⟩ := hstep
  rcases hs.1.exec_ok hsized hrun with ⟨rfl, -⟩ | ⟨-, heff⟩
  · exact hs.2
  · exact heff.exact hs.2 hs.1 hmode hroom

/-- With exact accounting the bitmap is determined by the blocks in use. -/
theorem Exact.bitmap_eq {st st' : FsState} (h : Exact st) (h' : Exact st')
    (huse : ∀ b, InUse st'.disk b ↔ InUse st.disk b) : st'.blockBitmap = st.blockBitmap := by
  rw [blockBitmap_eq_iff]
  intro x
  rw [h' x, h x, huse x]

/-- From a well-formed image with exact accounting, every run of calls in which nothing is created
in a full directory keeps the accounting exact; a run after which the same blocks are in use as
before leaves the bitmap as it was. -/
theorem exact_run {st st' : FsState} {xs : List (Env × Op)} (wf : WellFormed st)
    (hexact : Exact st) (hrun : Steps RoomyStep st xs st') :
    Exact st' ∧ ((∀ b, InUse st'.disk b ↔ InUse st.disk b) → st'.blockBitmap = st.blockBitmap) := by
  have hend : WellFormed st' ∧ Exact st' :=
    hrun.invariant (fun s x t hs hstep => hstep.exact hs) ⟨wf, hexact⟩
  exact ⟨hend.2, fun huse => hexact.bitmap_eq hend.2 huse⟩

/-- Creating `/a` in an empty file system. -/
theorem exact_run_create : ∃ st', Steps RoomyStep (emptyState 399)
    [(quietEnv, .create pathA 0o644)] st' ∧ Exact (emptyState 399) ∧ Exact st' := by
  have wf : WellFormed (emptyState 399) := emptyState_wellFormed (by omega) (by omega)
  have hexact : Exact (emptyState 399) := fun b => by
    rw [emptyState_marked (by omega), emptyState_inUse (by omega) (by omega)]
  obtain ⟨st', hrun, -⟩ := emptyState_create 399 (by omega) (by omega)
  have hstep : RoomyStep (emptyState 399) (quietEnv, .create pathA 0o644) st' := by
    refine ⟨⟨trivial, .inl (by decide), 0, hrun⟩, fun n hn _ => ⟨0, ?_⟩⟩
    obtain rfl : 2 = n := Except.ok.inj hn
    rw [show (emptyState 399).disk = emptyDisk 399 from rfl,
      emptyDisk_entries (by omega) (by omega)]
    rfl
  have hsteps := Steps.cons hstep (Steps.nil st')
  exact ⟨st', hsteps, hexact, (exact_run wf hexact hsteps).1⟩

/-! ## Running out of blocks -/

/-- The unmarked block numbers below `num_blocks`. -/
def FsState.unmarkedBelow (st : FsState) : Finset Nat :=
  st.unmarked.filter (· < st.numBlocks.toNat)

theorem Needs.unique {st : FsState} {op : Op} {k k' : Nat} (h : Needs st op k)
    (h' : Needs st op k') : k = k' := by
  cases h with
  | create => cases h'; rfl
  | mkdir => cases h'; rfl
  | write w =>
    cases h' with
    | write w' =>
      obtain rfl := Except.ok.inj (w.resolved.symm.trans w'.resolved)
      rfl

/-- A call that needs a block moves one. -/
theorem Needs.movesBlocks {st : FsState} {op : Op} {k : Nat} (h : Needs st op k) (hk : 0 < k) :
    op.MovesBlocks st := by
  cases h with
  | create ready => exact ⟨_, ready⟩
  | mkdir ready => exact ⟨_, ready⟩
  | write w => exact ⟨_, w, Finset.card_pos.mp hk⟩

/-- A call that needs a block never returns `-ENOSPC`. -/
theorem Needs.ne_enospc {st : FsState} {op : Op} {k : Nat} (h : Needs st op k) (hk : 0 < k)
    (wf : WellFormed st) (env : Env) (hop : op.Sized) :
    exec env st op.call ≠ .ok (-enospc, st) := by
  intro hrun
  rcases wf.exec_ok hop hrun with ⟨-, hno⟩ | ⟨hr, -⟩
  · exact hno (h.movesBlocks hk)
  · exact absurd hr (by decide)

/-- The blocks of a new object are the only ones that get a mark. -/
theorem Placed.taken {st st' : FsState} {n b : Nat} {c : List UInt8} {tbl : Option Nat}
    {ino : Inode} (h : Placed st st' n b c tbl ino) :
    st.unmarked \ st'.unmarked ⊆ insert b tbl.toFinset := by
  intro x hx
  obtain ⟨hx, hx'⟩ := Finset.mem_sdiff.mp hx
  rw [FsState.mem_unmarked] at hx hx'
  have hmark : Marked st' x := by
    by_contra hno
    exact hx' ⟨hx.1, hno⟩
  rcases (h.marked x).mp hmark with hm | rfl | ht
  · exact absurd hm hx.2
  · exact Finset.mem_insert_self _ _
  · exact Finset.mem_insert_of_mem (by simp [ht])

/-- The blocks a call takes are the first unmarked ones, no more than it needs. -/
theorem Needs.firstFit {env : Env} {st st' : FsState} {op : Op} {k : Nat} (h : Needs st op k)
    (heff : Effect env st op st') :
    FirstFit st.unmarked st'.unmarked ∧ (st.unmarked \ st'.unmarked).card ≤ k := by
  cases h with
  | create ready =>
    cases heff with
    | create _ hfit hplaced => exact ⟨hfit, (Finset.card_le_card hplaced.taken).trans (by simp)⟩
  | mkdir ready =>
    cases heff with
    | mkdir _ _ hfit hplaced =>
      exact ⟨hfit, (Finset.card_le_card hplaced.taken).trans (Finset.card_insert_le _ _)⟩
  | write w =>
    cases heff with
    | write w' hgrown =>
      obtain rfl := Except.ok.inj (w.resolved.symm.trans w'.resolved)
      have hfit := hgrown.fit
      have hcard := hgrown.card
      rw [unmarked_startWrite] at hfit hcard
      rw [inodeAt_startWrite, missing_growInode] at hcard
      refine ⟨hfit, ?_⟩
      rw [Finset.card_sdiff_of_subset hfit.sub]
      omega

/-- What is promised of a call that needs `k` blocks: when fewer are unmarked below `num_blocks`
it returns `-ENOSPC` with nothing changed; it takes no block at or behind `num_blocks`; and it
does not run into the assertion of `block_write`. -/
structure SpaceSafe (env : Env) (st : FsState) (op : Op) (k : Nat) : Prop where
  reported : st.unmarkedBelow.card < k → exec env st op.call = .ok (-enospc, st)
  below : ∀ r st', exec env st op.call = .ok (r, st') →
    ∀ x, Marked st' x → ¬ Marked st x → x < st.numBlocks.toNat
  no_abort : exec env st op.call ≠ .error .assertion

/-- The promise is kept exactly by the calls that do not run out: at least as many block numbers
below `num_blocks` are unmarked as the call needs. -/
theorem spaceSafe_iff {st : FsState} (wf : WellFormed st) (env : Env) (op : Op) (hop : op.Sized)
    {k : Nat} (hk : Needs st op k) :
    SpaceSafe env st op k ↔ k ≤ st.unmarkedBelow.card := by
  constructor
  · intro hsafe
    by_contra hlt
    exact hk.ne_enospc (by omega) wf env hop (hsafe.reported (by omega))
  · intro hle
    refine ⟨fun hlt => absurd hlt (by omega), fun r st' hrun x hx hx' => ?_, fun hrun => ?_⟩
    · rcases wf.exec_ok hop hrun with ⟨rfl, -⟩ | ⟨-, heff⟩
      · exact absurd hx hx'
      · obtain ⟨hfit, hcard⟩ := hk.firstFit heff
        refine hfit.lt_of_card (hcard.trans hle) (x := x) ?_ ?_
        · exact FsState.mem_unmarked.mpr ⟨hx.1, hx'⟩
        · exact fun h => (FsState.mem_unmarked.mp h).2 hx
    · rcases wf.exec_cases env op hop with ⟨r, hr, -⟩ | ⟨r, s, -, hr, -⟩ | ⟨k', hk', hcard, -⟩
      · simp [hr] at hrun
      · simp [hr] at hrun
      · have hsub : st.unmarkedBelow.card ≤ st.unmarked.card :=
          Finset.card_le_card (Finset.filter_subset _ _)
        have := hk.unique hk'
        omega

/-- In an empty file system of 400 blocks there is room for `/a`. -/
theorem spaceSafe_iff_create :
    SpaceSafe quietEnv (emptyState 399) (.create pathA 0o644) 1 := by
  have hready : ReadyIn (emptyState 399) pathA 2 := emptyState_readyIn (by omega) (by omega)
  refine (spaceSafe_iff (emptyState_wellFormed (by omega) (by omega)) quietEnv
    (.create pathA 0o644) trivial (.create hready)).mpr (Finset.card_pos.mpr ⟨3, ?_⟩)
  rw [FsState.unmarkedBelow, Finset.mem_filter, FsState.mem_unmarked, emptyState_marked (by omega)]
  refine ⟨by omega, ?_⟩
  show 3 < (UInt32.ofNat 400).toNat
  decide

/-- In a file system of four blocks, all in use, `fs_create` does not report that there is no
space left. -/
theorem spaceSafe_full_disk :
    ¬ ∀ (env : Env) (st : FsState) (op : Op) (k : Nat), WellFormed st → op.Sized → Needs st op k →
      st.unmarkedBelow.card < k → exec env st op.call = .ok (-enospc, st) := by
  intro h
  have wf : WellFormed (emptyState 3) := emptyState_wellFormed (by omega) (by omega)
  have hneeds : Needs (emptyState 3) (.create pathA 0o644) 1 :=
    .create (emptyState_readyIn (by omega) (by omega))
  have hnone : (emptyState 3).unmarkedBelow.card < 1 := by
    rw [Nat.lt_one_iff, Finset.card_eq_zero, Finset.eq_empty_iff_forall_notMem]
    intro x hx
    rw [FsState.unmarkedBelow, Finset.mem_filter, FsState.mem_unmarked,
      emptyState_marked (by omega)] at hx
    have hnum : (emptyState 3).numBlocks.toNat = 4 := by decide
    omega
  exact hneeds.ne_enospc (by omega) wf quietEnv trivial
    (h quietEnv _ _ 1 wf trivial hneeds hnone)

end SystemsProjects.Fs5600
