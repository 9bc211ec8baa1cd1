import SystemsProjects.Fs5600.Accounting
import SystemsProjects.Fs5600.Image
import Mathlib.Order.Interval.Finset.Nat

/-!
# Free space

What `fs_statfs` reports against the bitmap. `alloc_blk` looks at all `FS_BLOCK_SIZE * 8` bits,
the loop of `fs_statfs` at the first `FS_BLOCK_SIZE` only: a block from number 4096 on is never
counted as used.
-/

namespace SystemsProjects.Fs5600
open SystemsProjects.Lib

/-- The marked blocks below `k`. -/
def FsState.markedBelow (st : FsState) (k : Nat) : Finset Nat :=
  (Finset.range k).filter fun b => bitTest st.blockBitmap b = true

section
variable {st : FsState} {b k : Nat}

theorem FsState.mem_markedBelow (hk : k ≤ 32768) : b ∈ st.markedBelow k ↔ Marked st b ∧ b < k := by
  unfold FsState.markedBelow Marked
  rw [Finset.mem_filter, Finset.mem_range]
  constructor
  · rintro ⟨hb, ht⟩
    exact ⟨⟨by omega, ht⟩, hb⟩
  · rintro ⟨⟨-, ht⟩, hb⟩
    exact ⟨hb, ht⟩

theorem FsState.card_markedBelow_le (st : FsState) (k : Nat) : (st.markedBelow k).card ≤ k := by
  have hle := Finset.card_filter_le (Finset.range k) fun b => bitTest st.blockBitmap b = true
  rwa [Finset.card_range] at hle

theorem FsState.card_markedBelow_take (hk : k ≤ 32768) (hb : b < k) (hclear : ¬ Marked st b) :
    ((st.take b).markedBelow k).card = (st.markedBelow k).card + 1 := by
  have hinsert : (st.take b).markedBelow k = insert b (st.markedBelow k) := by
    ext x
    rw [Finset.mem_insert, FsState.mem_markedBelow hk, FsState.mem_markedBelow hk,
      st.marked_take (by omega)]
    constructor
    · rintro ⟨hx | hx, hlt⟩
      · exact .inr ⟨hx, hlt⟩
      · exact .inl hx
    · rintro (rfl | ⟨hx, hlt⟩)
      · exact ⟨.inr rfl, hb⟩
      · exact ⟨.inl hx, hlt⟩
  rw [hinsert, Finset.card_insert_of_notMem]
  rw [FsState.mem_markedBelow hk]
  exact fun h => hclear h.1

theorem FsState.markedBelow_take_of_le (hk : k ≤ 32768) (hb : b < 32768) (hkb : k ≤ b) :
    (st.take b).markedBelow k = st.markedBelow k := by
  ext x
  rw [FsState.mem_markedBelow hk, FsState.mem_markedBelow hk, st.marked_take hb]
  constructor
  · rintro ⟨hx | rfl, hlt⟩
    · exact ⟨hx, hlt⟩
    · omega
  · exact fun ⟨hx, hlt⟩ => ⟨.inl hx, hlt⟩

theorem FsState.card_markedBelow_release (hk : k ≤ 32768) (hb : b < k) (hset : Marked st b) :
    ((st.release b).markedBelow k).card + 1 = (st.markedBelow k).card := by
  have herase : (st.release b).markedBelow k = (st.markedBelow k).erase b := by
    ext x
    rw [Finset.mem_erase, FsState.mem_markedBelow hk, FsState.mem_markedBelow hk,
      st.marked_release (by omega)]
    tauto
  rw [herase, Finset.card_erase_add_one]
  exact (FsState.mem_markedBelow hk).mpr ⟨hset, hb⟩

theorem FsState.mem_unmarkedBelow :
    b ∈ st.unmarkedBelow ↔ b < 32768 ∧ ¬ Marked st b ∧ b < st.numBlocks.toNat := by
  rw [FsState.unmarkedBelow, Finset.mem_filter, FsState.mem_unmarked, and_assoc]

/-- Below the end of the disk, a block is marked or free. -/
theorem FsState.card_unmarkedBelow (st : FsState) (hsize : st.numBlocks.toNat ≤ 32768) :
    st.unmarkedBelow.card + (st.markedBelow st.numBlocks.toNat).card = st.numBlocks.toNat := by
  have hfree : st.unmarkedBelow =
      (Finset.range st.numBlocks.toNat).filter fun b => ¬ bitTest st.blockBitmap b = true := by
    ext x
    rw [FsState.unmarkedBelow, Finset.mem_filter, FsState.unmarked, Finset.mem_filter,
      Finset.mem_filter, Finset.mem_range, Finset.mem_range, Bool.not_eq_true]
    constructor
    · rintro ⟨⟨-, ht⟩, hx⟩
      exact ⟨hx, ht⟩
    · rintro ⟨hx, ht⟩
      exact ⟨⟨by omega, ht⟩, hx⟩
  have hall := Finset.card_filter_add_card_filter_not (s := Finset.range st.numBlocks.toNat)
    fun b => bitTest st.blockBitmap b = true
  rw [Finset.card_range] at hall
  rw [hfree, FsState.markedBelow]
  omega

end

/-! ## The loop of `fs_statfs` -/

/-- The 16-bit counter is the number of set bits it has passed. -/
theorem blocksUsed_eq (map : Block) (left i : Nat) (used : UInt16)
    (h : used.toNat + left < 65536) :
    (blocksUsed map left i used).toNat =
      used.toNat + ((Finset.Ico i (i + left)).filter fun b => bitTest map b = true).card := by
  induction left generalizing i used with
  | zero => simp [blocksUsed]
  | succ left ih =>
    have hrange : Finset.Ico i (i + (left + 1)) = insert i (Finset.Ico (i + 1) (i + 1 + left)) := by
      ext x
      simp only [Finset.mem_Ico, Finset.mem_insert]
      omega
    have hnew : i ∉ (Finset.Ico (i + 1) (i + 1 + left)).filter fun b => bitTest map b = true := by
      simp
    unfold blocksUsed
    rw [hrange, Finset.filter_insert]
    split
    · have hinc : (used + 1).toNat = used.toNat + 1 := by
        rw [UInt16.toNat_add, UInt16.toNat_one]
        omega
      rw [ih _ _ (by omega), hinc, Finset.card_insert_of_notMem hnew]
      omega
    · exact ih _ _ (by omega)

/-- `fs_statfs` takes the blocks marked below 4096 for the used ones. -/
theorem fsStatfs_bfree (st : FsState) :
    (fsStatfs st).bfree =
      (st.numBlocks.toNat + 2 ^ 64 - (st.markedBelow 4096).card) % 2 ^ 64 := by
  have hused := blocksUsed_eq st.blockBitmap 4096 0 0 (by simp)
  rw [UInt16.toNat_zero, Nat.zero_add, Nat.zero_add, ← Finset.range_eq_Ico] at hused
  simp only [fsStatfs, hused]
  rfl

/-- As long as no more blocks are counted than the disk has, the subtraction does not wrap. -/
theorem fsStatfs_bfree_of_le (st : FsState) (h : (st.markedBelow 4096).card ≤ st.numBlocks.toNat) :
    (fsStatfs st).bfree + (st.markedBelow 4096).card = st.numBlocks.toNat := by
  have hlt := st.numBlocks.toNat_lt
  rw [fsStatfs_bfree]
  omega

/-! ## Exact reports -/

/-- The report is right, and stays right by the next call of `alloc_blk` or `free_blk`. -/
structure SpaceExact (st : FsState) : Prop where
  bfree : (fsStatfs st).bfree = st.unmarkedBelow.card
  bavail : (fsStatfs st).bavail = st.unmarkedBelow.card
  alloc : ∀ r st', allocBlk st = (r, st') → 0 ≤ r →
    (fsStatfs st').bfree + 1 = (fsStatfs st).bfree
  free : ∀ b st', Marked st b → freeBlk st b = .ok st' →
    (fsStatfs st').bfree = (fsStatfs st).bfree + 1

section
variable {st : FsState} (hsize : st.numBlocks.toNat ≤ 32768)
  (hset : ∀ b, Marked st b → b < st.numBlocks.toNat)
include hsize hset

theorem FsState.markedBelow_subset : st.markedBelow 4096 ⊆ st.markedBelow st.numBlocks.toNat := by
  intro x hx
  rw [FsState.mem_markedBelow (by omega)] at hx
  exact (FsState.mem_markedBelow hsize).mpr ⟨hx.1, hset x hx.1⟩

theorem FsState.card_markedBelow_numBlocks : (st.markedBelow 4096).card ≤ st.numBlocks.toNat :=
  (Finset.card_le_card (FsState.markedBelow_subset hsize hset)).trans
    (st.card_markedBelow_le st.numBlocks.toNat)

/-- The reported number is right if and only if the loop has seen every mark. -/
theorem fsStatfs_bfree_iff :
    (fsStatfs st).bfree = st.unmarkedBelow.card ↔ ∀ b, Marked st b → b < 4096 := by
  have hreport := fsStatfs_bfree_of_le st (FsState.card_markedBelow_numBlocks hsize hset)
  have hfree := st.card_unmarkedBelow hsize
  have hsub := FsState.markedBelow_subset hsize hset
  constructor
  · intro heq b hb
    have hsame := Finset.eq_of_subset_of_card_le hsub (by omega)
    have hmem : b ∈ st.markedBelow 4096 := by
      rw [hsame]
      exact (FsState.mem_markedBelow hsize).mpr ⟨hb, hset b hb⟩
    exact ((FsState.mem_markedBelow (by omega)).mp hmem).2
  · intro hlow
    have hsame : st.markedBelow st.numBlocks.toNat = st.markedBelow 4096 := by
      refine Finset.Subset.antisymm (fun x hx => ?_) hsub
      obtain ⟨hx, -⟩ := (FsState.mem_markedBelow hsize).mp hx
      exact (FsState.mem_markedBelow (by omega)).mpr ⟨hx, hlow x hx⟩
    rw [hsame] at hfree
    omega

/-- The report is exact if and only if no block from 4096 on is marked and `alloc_blk` still finds
a block that lies on the disk and below 4096. -/
theorem spaceExact_iff :
    SpaceExact st ↔ (∀ b, Marked st b → b < 4096) ∧
      ∃ b, b < 4096 ∧ b < st.numBlocks.toNat ∧ ¬ Marked st b := by
  have hreport := fsStatfs_bfree_of_le st (FsState.card_markedBelow_numBlocks hsize hset)
  have hiff := fsStatfs_bfree_iff hsize hset
  constructor
  · intro hexact
    have hlow := hiff.mp hexact.bfree
    refine ⟨hlow, ?_⟩
    rcases st.allocBlk_unmarked with ⟨b, hb, hmin, halloc⟩ | ⟨hfull, -⟩
    · obtain ⟨hlt, hclear⟩ := FsState.mem_unmarked.mp hb
      have hstep := hexact.alloc b _ halloc (by omega)
      refine ⟨b, ?_, ?_, hclear⟩
      · -- a block from 4096 on is taken unseen
        by_contra hge
        have hsame : (fsStatfs (st.take b)).bfree = (fsStatfs st).bfree := by
          rw [fsStatfs_bfree, fsStatfs_bfree,
            FsState.markedBelow_take_of_le (by omega) hlt (by omega)]
          rfl
        omega
      · -- something was free on the disk, and `b` is the first free block
        have hpos : 0 < st.unmarkedBelow.card := by
          rw [← hexact.bfree]
          omega
        obtain ⟨x, hx⟩ := Finset.card_pos.mp hpos
        obtain ⟨hx32, hxclear, hxnum⟩ := FsState.mem_unmarkedBelow.mp hx
        exact lt_of_le_of_lt (hmin x (FsState.mem_unmarked.mpr ⟨hx32, hxclear⟩)) hxnum
    · have hmark : Marked st 4096 := FsState.marked_iff_notMem.mpr ⟨by omega, by simp [hfull]⟩
      exact absurd (hlow 4096 hmark) (by omega)
  · rintro ⟨hlow, b, hb, hbnum, hclear⟩
    have hfree := hiff.mpr hlow
    refine ⟨hfree, hfree, ?_, ?_⟩
    · intro r st' hrun hr
      rcases st.allocBlk_unmarked with ⟨x, hx, hmin, halloc⟩ | ⟨-, halloc⟩
      · obtain ⟨rfl, rfl⟩ := Prod.mk.inj (hrun.symm.trans halloc)
        have hxb := hmin b (FsState.mem_unmarked.mpr ⟨by omega, hclear⟩)
        have hcount := FsState.card_markedBelow_take (k := 4096) (by omega)
          (lt_of_le_of_lt hxb hb) (FsState.mem_unmarked.mp hx).2
        have hpos : 0 < st.unmarkedBelow.card :=
          Finset.card_pos.mpr ⟨b, FsState.mem_unmarkedBelow.mpr ⟨by omega, hclear, hbnum⟩⟩
        have hnum : (st.take x).numBlocks.toNat = st.numBlocks.toNat := rfl
        have hreport' := fsStatfs_bfree_of_le (st.take x) (by omega)
        omega
      · obtain ⟨rfl, -⟩ := Prod.mk.inj (hrun.symm.trans halloc)
        exact absurd hr (by decide)
    · intro x st' hx hrun
      rw [freeBlk_release st hx.1] at hrun
      obtain rfl := Except.ok.inj hrun
      have hcount := FsState.card_markedBelow_release (k := 4096) (by omega) (hlow x hx) hx
      have hnum : (st.release x).numBlocks.toNat = st.numBlocks.toNat := rfl
      have hreport' := fsStatfs_bfree_of_le (st.release x) (by omega)
      omega

end

/-- An empty image of 400 blocks. -/
theorem spaceExact_empty : SpaceExact (emptyState 399) := by
  refine (spaceExact_iff (by decide) fun b hb => ?_).mpr
    ⟨fun b hb => ?_, 3, by omega, by decide, ?_⟩
  · rw [emptyState_marked (by omega)] at hb
    have hnum : (emptyState 399).numBlocks.toNat = 400 := rfl
    omega
  · rw [emptyState_marked (by omega)] at hb
    omega
  · rw [emptyState_marked (by omega)]
    omega

/-- An empty image of 8192 blocks whose root entries are in the last block: blocks 0, 1, 2 and 8191
are marked, and `fs_statfs` reports 8189 free blocks where 8188 are. -/
theorem spaceExact_last_block :
    WellFormed (emptyState 8191) ∧
    (emptyState 8191).numBlocks.toNat = 8192 ∧
    (∀ b, Marked (emptyState 8191) b → b < 8192) ∧
    (emptyState 8191).unmarkedBelow.card = 8188 ∧
    (fsStatfs (emptyState 8191)).bfree = 8189 := by
  have hnum : (emptyState 8191).numBlocks.toNat = 8192 := rfl
  have hmark : ∀ b, Marked (emptyState 8191) b ↔ b = 0 ∨ b = 1 ∨ b = 2 ∨ b = 8191 :=
    emptyState_marked (by omega)
  have hseen : (emptyState 8191).markedBelow 4096 = {0, 1, 2} := by
    ext x
    rw [FsState.mem_markedBelow (by omega), hmark]
    simp only [Finset.mem_insert, Finset.mem_singleton]
    omega
  have hall : (emptyState 8191).markedBelow 8192 = {0, 1, 2, 8191} := by
    ext x
    rw [FsState.mem_markedBelow (by omega), hmark]
    simp only [Finset.mem_insert, Finset.mem_singleton]
    omega
  have hfree := (emptyState 8191).card_unmarkedBelow (by omega)
  have hreport := fsStatfs_bfree_of_le (emptyState 8191) (by simp [hseen, hnum])
  rw [hnum, hall] at hfree
  rw [hnum, hseen] at hreport
  refine ⟨emptyState_wellFormed (by omega) (by omega), hnum, fun b hb => ?_, ?_, ?_⟩
  · rw [hmark] at hb
    omega
  · simpa using hfree
  · simpa using hreport

end SystemsProjects.Fs5600
