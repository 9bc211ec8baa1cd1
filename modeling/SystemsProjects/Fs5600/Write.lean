import SystemsProjects.Fs5600.Change
import Mathlib.Data.Fintype.Card
import Mathlib.Data.Fintype.Basic

/-!
# Writing to a file

The loop of `fs_write`. `Grown` says what writing `bytes` at offset `off` does to a file: the
blocks of the range get pointers where they had none, the bytes of the range are the ones written,
and everything else stays. One iteration of the loop is such a change, and two of them in a row
are one.
-/

namespace SystemsProjects.Fs5600
open SystemsProjects.Lib

/-! ## Ranges of a file -/

/-- `norm_len`: up to the end of the block or of the buffer. -/
theorem normLen_eq (len : Nat) {done : Nat} (offset : Nat) (h : done ≤ len) :
    normLen len done offset = min (len - done) (4096 - offset % 4096) := by
  unfold normLen
  dsimp only
  split_ifs <;> omega

/-- Block `i` of a file meets the `len` bytes from `off` on. -/
def Touches (off len : Nat) (i : Fin 1019) : Prop :=
  0 < len ∧ off < (i.val + 1) * 4096 ∧ i.val * 4096 < off + len

instance (off len : Nat) (i : Fin 1019) : Decidable (Touches off len i) :=
  inferInstanceAs (Decidable (_ ∧ _ ∧ _))

/-- The blocks of the range that have no pointer yet. -/
def missing (ino : Inode) (off len : Nat) : Finset (Fin 1019) :=
  Finset.univ.filter fun i => ino.ptrs i = 0 ∧ Touches off len i

/-- Byte `j` of a file. -/
def fileByte (d : Disk) (ino : Inode) (j : Nat) : UInt8 :=
  d.data (ino.ptrs (Fin.ofNat 1019 (j / 4096))).toNat (Fin.ofNat 4096 (j % 4096))

theorem mem_missing {ino : Inode} {off len : Nat} {i : Fin 1019} :
    i ∈ missing ino off len ↔ ino.ptrs i = 0 ∧ Touches off len i := by
  simp [missing]

theorem touches_append {off m n : Nat} {i : Fin 1019} :
    Touches off (m + n) i ↔ Touches off m i ∨ Touches (off + m) n i := by
  unfold Touches
  omega

/-- A range inside one block meets that block only. -/
theorem touches_block {off len : Nat} (hpos : 0 < len) (hlen : off % 4096 + len ≤ 4096)
    {i : Fin 1019} : Touches off len i ↔ i.val = off / 4096 := by
  unfold Touches
  omega

/-- The block of a byte of the range. -/
theorem touches_at {off len j : Nat} (hj : j < len) (hbound : off + len ≤ 1019 * 4096) :
    Touches off len (Fin.ofNat 1019 ((off + j) / 4096)) := by
  unfold Touches
  simp only [Fin.val_ofNat]
  omega

theorem overlay_of_lt {data : Block} {o : Nat} {bytes : List UInt8} {k : Fin 4096}
    (h : k.val < o ∨ o + bytes.length ≤ k.val) : overlay data o bytes k = data k := by
  unfold overlay
  split_ifs with hk
  · rfl
  · rw [List.getD_eq_getElem?_getD, List.getElem?_eq_none (by omega), Option.getD_none]

theorem overlay_of_mem {data : Block} {o j : Nat} {bytes : List UInt8} {k : Fin 4096}
    (hk : k.val = o + j) (hj : j < bytes.length) : overlay data o bytes k = bytes[j] := by
  unfold overlay
  rw [if_neg (by omega), show k.val - o = j by omega, List.getD_eq_getElem?_getD,
    List.getElem?_eq_getElem hj, Option.getD_some]

/-! ## What a write does -/

/-- `s'` is `s` after writing `bytes` at offset `off` of file `f`. -/
structure Grown (s s' : FsState) (f off : Nat) (bytes : List UInt8) : Prop where
  bound : off + bytes.length ≤ 1019 * 4096
  step : FileStep s s' f
  ok : TreeOk s'
  inode : inodeAt s'.disk f = { inodeAt s.disk f with ptrs := (inodeAt s'.disk f).ptrs }
  keep : ∀ i ∉ missing (inodeAt s.disk f) off bytes.length,
    (inodeAt s'.disk f).ptrs i = (inodeAt s.disk f).ptrs i
  filled : ∀ i ∈ missing (inodeAt s.disk f) off bytes.length,
    (inodeAt s'.disk f).ptrs i ≠ 0 ∧ ¬ Marked s ((inodeAt s'.disk f).ptrs i).toNat
  marked : ∀ x, Marked s' x ↔ Marked s x ∨ ∃ i ∈ missing (inodeAt s.disk f) off bytes.length,
    x = ((inodeAt s'.disk f).ptrs i).toNat
  inUse : ∀ x, InUse s'.disk x ↔ InUse s.disk x ∨
    ∃ i ∈ missing (inodeAt s.disk f) off bytes.length, x = ((inodeAt s'.disk f).ptrs i).toNat
  frame : ∀ x, x ≠ f → (∀ i, Touches off bytes.length i → x ≠ ((inodeAt s'.disk f).ptrs i).toNat) →
    s'.disk.data x = s.disk.data x
  written : ∀ j (h : j < bytes.length),
    fileByte s'.disk (inodeAt s'.disk f) (off + j) = bytes[j]
  kept : ∀ j, j < 1019 * 4096 → j < off ∨ off + bytes.length ≤ j →
    (inodeAt s.disk f).ptrs (Fin.ofNat 1019 (j / 4096)) ≠ 0 →
    fileByte s'.disk (inodeAt s'.disk f) j = fileByte s.disk (inodeAt s.disk f) j
  fit : FirstFit s.unmarked s'.unmarked
  card : s.unmarked.card =
    s'.unmarked.card + (missing (inodeAt s.disk f) off bytes.length).card
  numBlocks : s'.numBlocks = s.numBlocks

section Append
variable {s t u : FsState} {f off : Nat} {b₁ b₂ : List UInt8}

theorem Grown.ptr_ne_zero (h : Grown s t f off b₁) {i : Fin 1019}
    (hi : Touches off b₁.length i) : (inodeAt t.disk f).ptrs i ≠ 0 := by
  by_cases hmem : i ∈ missing (inodeAt s.disk f) off b₁.length
  · exact (h.filled i hmem).1
  · rw [h.keep i hmem]
    exact fun h0 => hmem (mem_missing.mpr ⟨h0, hi⟩)

/-- A pointer stays once it is there. -/
theorem Grown.ptr_keep (h : Grown s t f off b₁) {i : Fin 1019}
    (hi : (inodeAt s.disk f).ptrs i ≠ 0) :
    (inodeAt t.disk f).ptrs i = (inodeAt s.disk f).ptrs i :=
  h.keep i fun hmem => hi (mem_missing.mp hmem).1

/-- The blocks missing in two adjacent ranges. -/
theorem Grown.missing_append (h : Grown s t f off b₁) (n : Nat) :
    Disjoint (missing (inodeAt s.disk f) off b₁.length)
      (missing (inodeAt t.disk f) (off + b₁.length) n) ∧
    missing (inodeAt s.disk f) off (b₁.length + n) =
      missing (inodeAt s.disk f) off b₁.length ∪
        missing (inodeAt t.disk f) (off + b₁.length) n := by
  constructor
  · rw [Finset.disjoint_left]
    intro i hi hi'
    exact (h.filled i hi).1 (mem_missing.mp hi').1
  · ext i
    rw [Finset.mem_union, mem_missing, mem_missing, mem_missing, touches_append]
    by_cases ht : Touches off b₁.length i
    · simp only [ht, h.ptr_ne_zero ht, true_or, and_true, false_and, or_false]
    · have hkeep := h.keep i fun hmem => ht (mem_missing.mp hmem).2
      simp only [ht, hkeep, false_or, and_false]

theorem Grown.card_append (h : Grown s t f off b₁) (n : Nat) :
    (missing (inodeAt s.disk f) off (b₁.length + n)).card =
      (missing (inodeAt s.disk f) off b₁.length).card +
        (missing (inodeAt t.disk f) (off + b₁.length) n).card := by
  rw [(h.missing_append n).2, Finset.card_union_of_disjoint (h.missing_append n).1]

/-- Writing two adjacent ranges is writing the whole. -/
theorem Grown.append (h : Grown s t f off b₁) (h' : Grown t u f (off + b₁.length) b₂) :
    Grown s u f off (b₁ ++ b₂) := by
  obtain ⟨hdisj, hmiss⟩ := h.missing_append b₂.length
  have hlen : (b₁ ++ b₂).length = b₁.length + b₂.length := List.length_append
  -- the pointers of the first range are there when the second is written
  have hfirst : ∀ i ∈ missing (inodeAt s.disk f) off b₁.length,
      (inodeAt u.disk f).ptrs i = (inodeAt t.disk f).ptrs i := fun i hi =>
    h'.ptr_keep (h.filled i hi).1
  have hexists : ∀ x, ((∃ i ∈ missing (inodeAt s.disk f) off b₁.length,
        x = ((inodeAt t.disk f).ptrs i).toNat) ∨
      ∃ i ∈ missing (inodeAt t.disk f) (off + b₁.length) b₂.length,
        x = ((inodeAt u.disk f).ptrs i).toNat) ↔
      ∃ i ∈ missing (inodeAt s.disk f) off (b₁ ++ b₂).length,
        x = ((inodeAt u.disk f).ptrs i).toNat := by
    intro x
    rw [hlen, hmiss]
    constructor
    · rintro (⟨i, hi, rfl⟩ | ⟨i, hi, rfl⟩)
      · exact ⟨i, Finset.mem_union_left _ hi, by rw [hfirst i hi]⟩
      · exact ⟨i, Finset.mem_union_right _ hi, rfl⟩
    · rintro ⟨i, hi, rfl⟩
      rcases Finset.mem_union.mp hi with hi | hi
      · exact .inl ⟨i, hi, by rw [hfirst i hi]⟩
      · exact .inr ⟨i, hi, rfl⟩
  refine
    { bound := by have := h'.bound; omega
      step := h.step.trans h'.step
      ok := h'.ok, fit := h.fit.trans h'.fit, numBlocks := h'.numBlocks.trans h.numBlocks,
      inode := ?_, keep := ?_, filled := ?_, marked := ?_, inUse := ?_, frame := ?_, written := ?_,
      kept := ?_, card := ?_ }
  · rw [h'.inode, h.inode]
  · intro i hi
    rw [hlen, hmiss, Finset.mem_union, not_or] at hi
    rw [h'.keep i hi.2, h.keep i hi.1]
  · intro i hi
    rw [hlen, hmiss] at hi
    rcases Finset.mem_union.mp hi with hi | hi
    · rw [hfirst i hi]
      exact h.filled i hi
    · refine ⟨(h'.filled i hi).1, fun hm => (h'.filled i hi).2 ?_⟩
      exact (h.marked _).mpr (.inl hm)
  · intro x
    rw [h'.marked, h.marked, or_assoc, hexists]
  · intro x
    rw [h'.inUse, h.inUse, or_assoc, hexists]
  · intro x hxf hx
    rw [hlen] at hx
    have hx2 := h'.frame x hxf fun i hi => hx i (touches_append.mpr (.inr hi))
    refine hx2.trans (h.frame x hxf fun i hi => ?_)
    rw [← h'.ptr_keep (h.ptr_ne_zero hi)]
    exact hx i (touches_append.mpr (.inl hi))
  · intro j hj
    by_cases hj1 : j < b₁.length
    · rw [h'.kept (off + j) (by have := h.bound; omega) (by omega)
        (h.ptr_ne_zero (touches_at hj1 h.bound)), h.written j hj1, List.getElem_append_left hj1]
    · have hj2 : j - b₁.length < b₂.length := by omega
      rw [List.getElem_append_right (by omega), ← h'.written _ hj2,
        show off + b₁.length + (j - b₁.length) = off + j by omega]
  · intro j hmax hj hptr
    rw [hlen] at hj
    rw [h'.kept j hmax (by omega) (by rw [h.ptr_keep hptr]; exact hptr),
      h.kept j hmax (by omega) hptr]
  · rw [h.card, h'.card, hlen, h.card_append]
    omega

end Append

/-! ## One iteration -/

/-- The body of the loop of `fs_write`. -/
def writeBlock (env : Env) (inum : Int) (buf : List UInt8) (wrote offset : Nat) (i : Fin 1019)
    (inode : Inode) (st : FsState) : Except Fault (Inode × FsState) := do
  let (inode, st) ← ensurePtr inum i inode st
  let data := st.get (env.junk [1, wrote]) (asInt (inode.ptrs i))
  let data := overlay data (offset % 4096)
    ((buf.drop wrote).take (normLen buf.length wrote offset))
  let st ← st.put data (asInt (inode.ptrs i))
  .ok (inode, st)

theorem writeLoop_done (env : Env) (inum : Int) {buf : List UInt8} {wrote : Nat} (offset : Nat)
    (inode : Inode) (st : FsState) (h : buf.length ≤ wrote) :
    writeLoop env inum buf wrote offset inode st = .ok st := by
  unfold writeLoop
  rw [dif_neg (by omega)]

theorem writeLoop_step (env : Env) (inum : Int) {buf : List UInt8} {wrote offset : Nat}
    (inode : Inode) (st : FsState) (h : wrote < buf.length) (hi : offset / 4096 < 1019) :
    writeLoop env inum buf wrote offset inode st =
      writeBlock env inum buf wrote offset ⟨offset / 4096, hi⟩ inode st >>= fun r =>
        writeLoop env inum buf (wrote + normLen buf.length wrote offset)
          (offset + normLen buf.length wrote offset) r.1 r.2 := by
  rw [writeLoop, dif_pos h, dif_pos hi]
  simp only [writeBlock, bind_assoc]
  rfl

/-- The block `x` holds `bytes` from position `o` on. -/
def Holds (x : Block) (o : Nat) (bytes : List UInt8) : Prop :=
  ∀ (k : Fin 4096) (j : Nat) (h : j < bytes.length), k.val = o + j → x k = bytes[j]

/-- `s'` is `s` with block `b` marked, filled with `x` and put behind pointer `i` of file `f`. -/
structure Attached (s s' : FsState) (f : Nat) (i : Fin 1019) (b : Nat) (x : Block) : Prop where
  inode : inodeAt s'.disk f = { inodeAt s.disk f with
    ptrs := Function.update (inodeAt s.disk f).ptrs i (UInt32.ofInt b) }
  block : s'.disk.data b = x
  frame : ∀ y, y ≠ f → y ≠ b → s'.disk.data y = s.disk.data y
  marked : ∀ y, Marked s' y ↔ Marked s y ∨ y = b
  unmarked : s'.unmarked = s.unmarked.erase b
  len : s.disk.len ≤ s'.disk.len
  lt_len : b < s'.disk.len
  numBlocks : s'.numBlocks = s.numBlocks

theorem attached_write {s : FsState} {f b : Nat} (i : Fin 1019) (x : Block) (hlt : b < 32768)
    (hfb : f ≠ b) :
    Attached s (((s.take b).write f (encodeInode { inodeAt s.disk f with
      ptrs := Function.update (inodeAt s.disk f).ptrs i
        (UInt32.ofInt b) })).write b x) f i b x := by
  refine
    { block := Disk.write_same _ _ _, numBlocks := rfl, inode := ?_, frame := ?_, marked := ?_,
      unmarked := ?_, len := ?_, lt_len := ?_ }
  · unfold inodeAt
    rw [FsState.write_disk, Disk.write_ne _ _ hfb, FsState.write_disk, Disk.write_same,
      decodeInode_encodeInode]
  · intro y hyf hyb
    rw [FsState.write_disk, Disk.write_ne _ _ hyb, FsState.write_disk, Disk.write_ne _ _ hyf,
      FsState.take_disk]
  · intro y
    rw [FsState.marked_write, FsState.marked_write, s.marked_take hlt]
  · rw [FsState.unmarked_write, FsState.unmarked_write, FsState.unmarked_take hlt]
  · exact le_trans (le_max_left _ _) (le_max_left _ _)
  · rw [FsState.write_disk, Disk.lt_write_len]
    exact .inr le_rfl

/-- Nothing but the file changes when a block that is not in use is attached to it. -/
theorem Attached.fileStep {s s' : FsState} {f b : Nat} {i : Fin 1019} {x : Block}
    (h : Attached s s' f i b x) (ok : TreeOk s) (hf : Live s.disk f)
    (hfile : isDirAt s.disk f = false) (hunused : ¬ InUse s.disk b) : FileStep s s' f where
  live := hf
  file := hfile
  file' := by
    unfold isDirAt
    rw [h.inode]
    exact hfile
  len := h.len
  same := by
    intro m hm hmf
    refine ⟨h.frame m hmf fun hmb => hunused (hmb ▸ hm.owned), fun hdir => ?_⟩
    exact h.frame _ (ok.live_ne_table hf hm hdir).symm fun hb => hunused (hb ▸ hm.table_inUse hdir)

section OneBlock
variable {s : FsState} (ok : TreeOk s) {f : Nat} (hf : Live s.disk f)
  (hfile : isDirAt s.disk f = false) {off : Nat} {bytes : List UInt8} (hpos : 0 < bytes.length)
  (hlen : off % 4096 + bytes.length ≤ 4096) {i : Fin 1019} (hi : i.val = off / 4096)
  {x : Block} (hx : Holds x (off % 4096) bytes)
include ok hf hfile hpos hlen hi hx

omit ok hf hfile hpos hx in
theorem fileByte_index {j : Nat} (hj : j < bytes.length) :
    Fin.ofNat 1019 ((off + j) / 4096) = i ∧ (Fin.ofNat 4096 ((off + j) % 4096)).val =
      off % 4096 + j := by
  constructor
  · apply Fin.ext
    have := i.isLt
    simp only [Fin.val_ofNat]
    omega
  · simp only [Fin.val_ofNat]
    omega

/-- Overwriting a block that is there. -/
theorem TreeOk.grown_present (hp : (inodeAt s.disk f).ptrs i ≠ 0)
    (hout : ∀ k : Fin 4096, k.val < off % 4096 ∨ off % 4096 + bytes.length ≤ k.val →
      x k = s.disk.data ((inodeAt s.disk f).ptrs i).toNat k) :
    Grown s (s.write ((inodeAt s.disk f).ptrs i).toNat x) f off bytes := by
  have hsame : ∀ m, Live s.disk m →
      SameNode s.disk (s.write ((inodeAt s.disk f).ptrs i).toNat x).disk m := fun m hm =>
    ok.sameNode_write_data hf hfile hp hm
  have hino := (hsame f hf).inodeAt
  have hmiss : missing (inodeAt s.disk f) off bytes.length = ∅ := by
    refine Finset.filter_eq_empty_iff.mpr fun j _ hj => hp ?_
    obtain rfl : j = i := Fin.ext (((touches_block hpos hlen).mp hj.2).trans hi.symm)
    exact hj.1
  have hbound : off + bytes.length ≤ 1019 * 4096 := by have := i.isLt; omega
  refine
    { bound := hbound
      step :=
        { live := hf, file := hfile, file' := (hsame f hf).isDirAt.trans hfile
          len := le_max_left _ _, same := fun m hm _ => hsame m hm }
      ok := ok.of_sameNode hsame (fun x hx => ok.marked_reserved hx) (le_max_left _ _)
      fit := FirstFit.refl _, numBlocks := rfl, inode := by rw [hino]
      keep := fun j _ => by rw [hino], filled := by simp [hmiss], marked := by simp [hmiss]
      inUse := fun x => by
        rw [hmiss]
        simp only [Finset.notMem_empty, false_and, exists_false, or_false]
        exact inUse_of_refs fun m hm => (hsame m hm).refs
      card := by simp [hmiss], frame := ?_, written := ?_, kept := ?_ }
  · intro y _ hy
    have := hy i ((touches_block hpos hlen).mpr hi)
    rw [hino] at this
    rw [FsState.write_disk, Disk.write_ne _ _ this]
  · intro j hj
    obtain ⟨h1, h2⟩ := fileByte_index hlen hi hj
    unfold fileByte
    rw [hino, h1, FsState.write_disk, Disk.write_same, hx _ j hj h2]
  · intro j hmax hj hptr
    unfold fileByte
    rw [hino, FsState.write_disk, Disk.write_data]
    split_ifs with heq
    · -- another byte of the same block
      obtain ⟨-, hji⟩ := ok.data_inj hf hfile hf hfile hptr hp heq
      have hj' := congrArg Fin.val hji
      simp only [Fin.val_ofNat] at hj'
      rw [hji]
      refine hout _ ?_
      simp only [Fin.val_ofNat]
      omega
    · rfl

omit ok hf hfile hx in
/-- One block of the range is missing. -/
theorem missing_absent (hp : (inodeAt s.disk f).ptrs i = 0) :
    missing (inodeAt s.disk f) off bytes.length = {i} := by
  ext j
  rw [mem_missing, Finset.mem_singleton, touches_block hpos hlen, ← hi]
  constructor
  · rintro ⟨-, h⟩
    exact Fin.ext h
  · rintro rfl
    exact ⟨hp, rfl⟩

/-- Writing to a block that `alloc_blk` has just handed out. -/
theorem Attached.grown {s' : FsState} {b : Nat} (h : Attached s s' f i b x)
    (hp : (inodeAt s.disk f).ptrs i = 0) (hb : b ∈ s.unmarked) (hmin : ∀ y ∈ s.unmarked, b ≤ y) :
    Grown s s' f off bytes := by
  obtain ⟨hlt, hunmarked⟩ := FsState.mem_unmarked.mp hb
  obtain ⟨hb3, hunused⟩ := ok.fresh hunmarked
  have hbnat : (UInt32.ofInt b).toNat = b := toNat_ofInt (by omega)
  have hbne : UInt32.ofInt b ≠ 0 := by
    intro h0
    rw [h0] at hbnat
    have : (0 : UInt32).toNat = 0 := rfl
    omega
  have hptrs : (inodeAt s'.disk f).ptrs =
      Function.update (inodeAt s.disk f).ptrs i (UInt32.ofInt b) := by rw [h.inode]
  have hstep := h.fileStep ok hf hfile hunused
  have hmiss := missing_absent hpos hlen hi hp
  have hbound : off + bytes.length ≤ 1019 * 4096 := by have := i.isLt; omega
  refine
    { bound := hbound, step := hstep
      ok := hstep.treeOk_addPtr ok hp hbne hptrs
        (by rw [hbnat]; exact ⟨hunused, by omega, h.lt_len⟩) fun y hy => ?_
      inode := by rw [h.inode]
      fit := by rw [h.unmarked]; exact FirstFit.erase_min hmin
      numBlocks := h.numBlocks
      card := by
        rw [h.unmarked, hmiss, Finset.card_singleton, Finset.card_erase_add_one hb]
      keep := ?_, filled := ?_, marked := ?_, inUse := ?_, frame := ?_, written := ?_, kept := ?_ }
  · rw [hbnat] at hy
    rw [h.marked]
    rcases hy with h0 | h1 | h2 | hyb
    · exact .inl (ok.marked_reserved (.inl h0))
    · exact .inl (ok.marked_reserved (.inr (.inl h1)))
    · exact .inl (ok.marked_reserved (.inr (.inr h2)))
    · exact .inr hyb
  · intro j hj
    rw [hmiss, Finset.mem_singleton] at hj
    rw [hptrs, Function.update_of_ne hj]
  · intro j hj
    rw [hmiss, Finset.mem_singleton] at hj
    rw [hj, hptrs, Function.update_self, hbnat]
    exact ⟨hbne, hunmarked⟩
  · intro y
    simp [h.marked, hmiss, hptrs, hbnat]
  · intro y
    rw [hstep.inUse_addPtr hp hbne hptrs]
    simp [hmiss, hptrs]
  · intro y hyf hy
    refine h.frame y hyf ?_
    have := hy i ((touches_block hpos hlen).mpr hi)
    rwa [hptrs, Function.update_self, hbnat] at this
  · intro j hj
    obtain ⟨h1, h2⟩ := fileByte_index hlen hi hj
    unfold fileByte
    rw [hptrs, h1, Function.update_self, hbnat, h.block, hx _ j hj h2]
  · intro j _ _ hptr
    have hne : Fin.ofNat 1019 (j / 4096) ≠ i := fun hij => hptr (hij ▸ hp)
    unfold fileByte
    rw [hptrs, Function.update_of_ne hne, h.frame]
    · exact (ok.live_ne_data hf hf hfile hptr).symm
    · exact fun hjb => hunused (hjb ▸ hf.data_inUse hfile hptr)

end OneBlock

theorem holds_overlay (data : Block) {o : Nat} (bytes : List UInt8) :
    Holds (overlay data o bytes) o bytes := fun _ _ h hk => overlay_of_mem hk h

theorem asInt_enospc : asInt (UInt32.ofInt (-enospc)) = -enospc := by decide

theorem TreeOk.asInt_data {s : FsState} (ok : TreeOk s) {f : Nat} (hf : Live s.disk f)
    (hfile : isDirAt s.disk f = false) {i : Fin 1019} (hp : (inodeAt s.disk f).ptrs i ≠ 0) :
    asInt ((inodeAt s.disk f).ptrs i) = ((inodeAt s.disk f).ptrs i).toNat := by
  have := ok.lt (hf.data_inUse hfile hp)
  exact asInt_of_lt (by omega)

/-- A pointer that is there is left as it is. -/
theorem ensurePtr_of_ne {s : FsState} {f : Nat} {i : Fin 1019} {ino : Inode} (hp : ino.ptrs i ≠ 0) :
    ensurePtr f i ino s = .ok (ino, s) := by
  unfold ensurePtr
  rw [if_neg hp]

/-- A missing pointer gets the block `b`, and the inode is written with it. -/
theorem TreeOk.ensurePtr_of_alloc {s : FsState} (ok : TreeOk s) {f b : Nat} (hf : Live s.disk f)
    {i : Fin 1019} (hp : (inodeAt s.disk f).ptrs i = 0)
    (halloc : allocBlk s = ((b : Int), s.take b)) {ino1 : Inode} (hino1 : ({ inodeAt s.disk f with
      ptrs := Function.update (inodeAt s.disk f).ptrs i (UInt32.ofInt b) } : Inode) = ino1) :
    ensurePtr f i (inodeAt s.disk f) s = .ok (ino1, (s.take b).write f (encodeInode ino1)) := by
  have hput := (s.take b).put_of_lt (encodeInode ino1) (ok.pos hf.owned) (ok.lt hf.owned)
  unfold ensurePtr
  rw [if_pos hp, halloc]
  simp only [hino1, hput, ok_bind]

/-- One iteration writes one chunk, or aborts at the `block_write` after a failed allocation. -/
theorem TreeOk.writeBlock_cases {s : FsState} (ok : TreeOk s) {f : Nat} (hf : Live s.disk f)
    (hfile : isDirAt s.disk f = false) (env : Env) {buf : List UInt8} {wrote offset : Nat}
    (hw : wrote < buf.length) {i : Fin 1019} (hi : i.val = offset / 4096) :
    (s.unmarked = ∅ ∧ (inodeAt s.disk f).ptrs i = 0 ∧
      writeBlock env f buf wrote offset i (inodeAt s.disk f) s = .error .assertion) ∨
    ∃ s', writeBlock env f buf wrote offset i (inodeAt s.disk f) s = .ok (inodeAt s'.disk f, s') ∧
      Grown s s' f offset ((buf.drop wrote).take (normLen buf.length wrote offset)) := by
  have hn := normLen_eq buf.length offset hw.le
  have hpos' := normLen_pos offset hw
  have hchunk : ((buf.drop wrote).take (normLen buf.length wrote offset)).length =
      normLen buf.length wrote offset := by
    rw [List.length_take, List.length_drop]
    omega
  unfold writeBlock
  generalize hbytes : (buf.drop wrote).take (normLen buf.length wrote offset) = bytes at hchunk ⊢
  have hpos : 0 < bytes.length := by omega
  have hlen : offset % 4096 + bytes.length ≤ 4096 := by omega
  by_cases hp : (inodeAt s.disk f).ptrs i = 0
  · rcases s.allocBlk_unmarked with ⟨b, hb, hmin, halloc⟩ | ⟨hempty, halloc⟩
    · obtain ⟨hlt, hunmarked⟩ := FsState.mem_unmarked.mp hb
      obtain ⟨hb3, hunused⟩ := ok.fresh hunmarked
      have hfb : f ≠ b := fun h => hunused (h ▸ hf.owned)
      have hbnat : asInt (UInt32.ofInt b) = b := by
        rw [asInt_of_lt] <;> rw [toNat_ofInt (by omega)]
        omega
      have hattach := fun x => attached_write (s := s) i x hlt hfb
      generalize hino1 : ({ inodeAt s.disk f with
        ptrs := Function.update (inodeAt s.disk f).ptrs i (UInt32.ofInt b) } : Inode) = ino1
        at hattach
      have hptr : asInt (ino1.ptrs i) = b := by
        rw [← hino1]
        exact (congrArg asInt (Function.update_self i _ _)).trans hbnat
      rw [ok.ensurePtr_of_alloc hf hp halloc hino1]
      simp only [ok_bind, hptr, FsState.put_of_lt _ _ (show 0 < b by omega) hlt]
      refine .inr ⟨_, ?_, (hattach _).grown ok hf hfile hpos hlen hi (holds_overlay
        (((s.take b).write f (encodeInode ino1)).get (env.junk [1, wrote]) b) bytes) hp hb hmin⟩
      rw [(hattach _).inode, hino1]
    · -- the inode with the pointer `-ENOSPC` is written before the abort
      refine .inl ⟨hempty, hp, ?_⟩
      unfold ensurePtr
      rw [if_pos hp, halloc]
      simp only [ok.put_live hf, ok_bind, Function.update_self, asInt_enospc, put_enospc,
        error_bind]
  · have huse := hf.data_inUse hfile hp
    refine .inr ⟨_, ?_, ok.grown_present hf hfile hpos hlen hi
      (holds_overlay (s.disk.data ((inodeAt s.disk f).ptrs i).toNat) bytes) hp
      fun k hk => overlay_of_lt hk⟩
    have hread := ok.get_inUse huse (env.junk [1, wrote])
    have hino : ∀ x, inodeAt (s.write ((inodeAt s.disk f).ptrs i).toNat x).disk f =
        inodeAt s.disk f := fun x => (ok.sameNode_write_data hf hfile hp hf).inodeAt
    rw [ensurePtr_of_ne hp, hino]
    simp only [ok_bind, ok.asInt_data hf hfile hp, hread, s.put_of_lt _ (ok.pos huse) (ok.lt huse)]

/-! ## The loop -/

theorem Grown.refl {s : FsState} (ok : TreeOk s) {f off : Nat} (hf : Live s.disk f)
    (hfile : isDirAt s.disk f = false) (hoff : off ≤ 1019 * 4096) : Grown s s f off [] := by
  have hmiss : missing (inodeAt s.disk f) off 0 = ∅ :=
    Finset.filter_eq_empty_iff.mpr fun j _ hj => absurd hj.2.1 (by simp)
  exact
    { bound := by simpa using hoff
      step := { live := hf, file := hfile, file' := hfile, len := le_rfl
                same := fun _ _ _ => ⟨rfl, fun _ => rfl⟩ }
      ok := ok, inode := rfl, keep := fun _ _ => rfl, filled := by simp [hmiss]
      marked := by simp [hmiss], inUse := by simp [hmiss], frame := fun _ _ _ => rfl
      written := by simp, kept := fun _ _ _ _ => rfl, fit := FirstFit.refl _
      card := by simp [hmiss], numBlocks := rfl }

/-- The loop writes what is left of the buffer, or aborts when the unmarked blocks are fewer than
the missing ones. -/
theorem TreeOk.writeLoop_cases (env : Env) {f : Nat} (buf : List UInt8) :
    ∀ (k wrote offset : Nat) (s : FsState), buf.length - wrote = k → TreeOk s →
      Live s.disk f → isDirAt s.disk f = false → offset + (buf.length - wrote) ≤ 1019 * 4096 →
      (s.unmarked.card < (missing (inodeAt s.disk f) offset (buf.length - wrote)).card ∧
        writeLoop env f buf wrote offset (inodeAt s.disk f) s = .error .assertion) ∨
      ∃ s', writeLoop env f buf wrote offset (inodeAt s.disk f) s = .ok s' ∧
        Grown s s' f offset (buf.drop wrote) := by
  intro k
  induction k using Nat.strong_induction_on with
  | _ k ih =>
    intro wrote offset s hk ok hf hfile hbound
    by_cases hw : wrote < buf.length
    · have hn := normLen_eq buf.length offset hw.le
      have hpos := normLen_pos offset hw
      have hi : offset / 4096 < 1019 := by omega
      rw [writeLoop_step env f _ s hw hi]
      rcases ok.writeBlock_cases hf hfile env hw (i := ⟨offset / 4096, hi⟩) rfl with
        ⟨hempty, hp, hrun⟩ | ⟨t, hrun, hg⟩
      · refine .inl ⟨?_, by rw [hrun, error_bind]⟩
        rw [hempty, Finset.card_empty]
        refine Finset.card_pos.mpr ⟨⟨offset / 4096, hi⟩, mem_missing.mpr ⟨hp, ?_⟩⟩
        show 0 < _ ∧ offset < (offset / 4096 + 1) * 4096 ∧ offset / 4096 * 4096 < _
        omega
      · have hchunk : ((buf.drop wrote).take (normLen buf.length wrote offset)).length =
            normLen buf.length wrote offset := by
          rw [List.length_take, List.length_drop]
          omega
        have hsplit : buf.length - wrote = normLen buf.length wrote offset +
            (buf.length - (wrote + normLen buf.length wrote offset)) := by omega
        rw [hrun, ok_bind]
        rcases ih (buf.length - (wrote + normLen buf.length wrote offset)) (by omega) _
          (offset + normLen buf.length wrote offset) t rfl hg.ok (hg.step.live_iff.mpr hf)
          hg.step.file' (by omega) with ⟨hcard, hrest⟩ | ⟨s', hrest, hg'⟩
        · refine .inl ⟨?_, hrest⟩
          have happ := hg.card_append
            (buf.length - (wrote + normLen buf.length wrote offset))
          have := hg.card
          rw [hchunk] at happ this
          rw [hsplit]
          omega
        · refine .inr ⟨s', hrest, ?_⟩
          have hdrop : buf.drop wrote =
              (buf.drop wrote).take (normLen buf.length wrote offset) ++
                buf.drop (wrote + normLen buf.length wrote offset) := by
            rw [← List.drop_drop, List.take_append_drop]
          rw [hdrop]
          refine hg.append ?_
          rw [hchunk]
          exact hg'
    · refine .inr ⟨s, writeLoop_done env f offset _ s (by omega), ?_⟩
      rw [List.drop_of_length_le (by omega)]
      exact Grown.refl ok hf hfile (by omega)

/-! ## The call -/

/-- `fs_write` gets past its error tests: the path names the file `f`, the offset is inside it and
the data fits. -/
structure Writable (st : FsState) (p : CanonPath) (f off len : Nat) : Prop where
  resolved : resolve st.disk 2 p.comps = .ok f
  file : isDirAt st.disk f = false
  inside : (off : Int) ≤ (inodeAt st.disk f).size.toInt
  fits : (inodeAt st.disk f).size.toInt + len ≤ 1019 * 4096

/-- The same for a file that is found in any way. -/
structure Accepts (st : FsState) (f off len : Nat) : Prop where
  live : Live st.disk f
  file : isDirAt st.disk f = false
  inside : (off : Int) ≤ (inodeAt st.disk f).size.toInt
  fits : (inodeAt st.disk f).size.toInt + len ≤ 1019 * 4096

theorem Writable.live {st : FsState} {p : CanonPath} {f off len : Nat}
    (w : Writable st p f off len) : Live st.disk f := resolve_live .root w.resolved

theorem Writable.accepts {st : FsState} {p : CanonPath} {f off len : Nat}
    (w : Writable st p f off len) : Accepts st f off len := ⟨w.live, w.file, w.inside, w.fits⟩

/-- The state in which the loop starts: the inode is written with its new size. -/
def startWrite (env : Env) (st : FsState) (f off len : Nat) : FsState :=
  st.write f (encodeInode (growInode env (inodeAt st.disk f) len off))

theorem toInt_ofInt32 {n : Int} (h0 : 0 ≤ n) (h : n < 2 ^ 31) : (Int32.ofInt n).toInt = n := by
  have hsize : Int32.size = 2 ^ 32 := rfl
  rw [Int32.toInt_ofInt, Int.bmod_eq_of_le] <;> omega

/-- The size after a write: the end of the range, if that is behind the old end. -/
theorem growInode_size (env : Env) {ino : Inode} {off len : Nat} (h0 : 0 ≤ ino.size.toInt)
    (hin : (off : Int) ≤ ino.size.toInt) (hfit : ino.size.toInt + len ≤ 1019 * 4096) :
    (growInode env ino len off).size.toInt = max ino.size.toInt (off + len) := by
  unfold growInode
  dsimp only
  have h1 : ((off + len : Nat) : Int) % 2 ^ 64 = off + len := by
    rw [Int.emod_eq_of_lt] <;> omega
  have h2 : ino.size.toInt % 2 ^ 64 = ino.size.toInt := by
    rw [Int.emod_eq_of_lt] <;> omega
  rw [h1, h2]
  split_ifs with hend hcross
  · rw [toInt_ofInt32 (by omega) (by omega)]
    omega
  · rw [toInt_ofInt32 (by omega) (by omega)]
    omega
  · omega

theorem growInode_ptrs (env : Env) (ino : Inode) (len off : Nat) :
    (growInode env ino len off).ptrs = ino.ptrs := rfl

theorem growInode_mode (env : Env) (ino : Inode) (len off : Nat) :
    (growInode env ino len off).mode = ino.mode := rfl

theorem missing_growInode (env : Env) (ino : Inode) (len off o l : Nat) :
    missing (growInode env ino len off) o l = missing ino o l := rfl

theorem unmarked_startWrite (env : Env) (st : FsState) (f off len : Nat) :
    (startWrite env st f off len).unmarked = st.unmarked := FsState.unmarked_write _ _

theorem inodeAt_startWrite (env : Env) (st : FsState) (f off len : Nat) :
    inodeAt (startWrite env st f off len).disk f =
      growInode env (inodeAt st.disk f) len off := inodeAt_write_self _ _ _

section Start
variable {env : Env} {st : FsState} {f off len : Nat} (a : Accepts st f off len)
include a

theorem Accepts.treeOk_start (ok : TreeOk st) : TreeOk (startWrite env st f off len) :=
  ok.write_inode a.live (growInode_ptrs env _ _ _) rfl

theorem Accepts.refs_start (ok : TreeOk st) {m : Nat} (hm : Live st.disk m) :
    refs (startWrite env st f off len).disk m = refs st.disk m := by
  have hdir : sIsdir (growInode env (inodeAt st.disk f) len off).mode =
      isDirAt st.disk f := rfl
  rw [startWrite, FsState.write_disk]
  exact ok.refs_write_inode a.live (growInode_ptrs env _ _ _) hdir hm

theorem Accepts.fileStep_start (ok : TreeOk st) : FileStep st (startWrite env st f off len) f where
  live := a.live
  file := a.file
  file' := by
    unfold isDirAt
    rw [inodeAt_startWrite, growInode_mode]
    exact a.file
  len := le_max_left _ _
  same := fun _ hm hmf => ok.sameNode_write_inode a.live hm hmf

end Start

section Written
variable {env : Env} {st st' : FsState} {p : CanonPath} {f off : Nat} {buf : List UInt8}
  (w : Writable st p f off buf.length)
  (h : Grown (startWrite env st f off buf.length) st' f off buf)
include w h

theorem Writable.fileStep (ok : TreeOk st) : FileStep st st' f :=
  (w.accepts.fileStep_start ok).trans h.step

theorem Writable.inUse_iff (ok : TreeOk st) {x : Nat} : InUse st'.disk x ↔ InUse st.disk x ∨
    ∃ i ∈ missing (inodeAt st.disk f) off buf.length, x = ((inodeAt st'.disk f).ptrs i).toNat := by
  have hstart : InUse (startWrite env st f off buf.length).disk x ↔ InUse st.disk x :=
    inUse_of_refs fun m hm => w.accepts.refs_start ok hm
  rw [h.inUse x, hstart, inodeAt_startWrite, missing_growInode]

omit w in
theorem Grown.marked_iff {x : Nat} : Marked st' x ↔ Marked st x ∨
    ∃ i ∈ missing (inodeAt st.disk f) off buf.length, x = ((inodeAt st'.disk f).ptrs i).toNat := by
  rw [h.marked x, inodeAt_startWrite, missing_growInode]
  exact or_congr_left (FsState.marked_write st f x _)

theorem Writable.size_eq (wf : WellFormed st) : (inodeAt st'.disk f).size.toInt =
    max (inodeAt st.disk f).size.toInt (off + buf.length) := by
  have hsize : (inodeAt st'.disk f).size =
      (growInode env (inodeAt st.disk f) buf.length off).size := by
    rw [h.inode, inodeAt_startWrite]
  rw [hsize]
  exact growInode_size env (wf.files f w.live w.file).nonneg w.inside w.fits

omit w in
theorem Grown.ptr_keep_start {i : Fin 1019} (hi : (inodeAt st.disk f).ptrs i ≠ 0) :
    (inodeAt st'.disk f).ptrs i = (inodeAt st.disk f).ptrs i := by
  have hkeep := h.ptr_keep (i := i)
  rw [inodeAt_startWrite, growInode_ptrs] at hkeep
  exact hkeep hi

omit w in
/-- A pointer that was missing leads to a block that was not marked. -/
theorem Grown.unmarked_start {i : Fin 1019}
    (hi : i ∈ missing (inodeAt st.disk f) off buf.length) :
    ¬ Marked st ((inodeAt st'.disk f).ptrs i).toNat := by
  have hfilled := h.filled i
  rw [inodeAt_startWrite, missing_growInode] at hfilled
  exact (hfilled hi).2

/-- Every block up to the new end has a pointer: it had one, or the range meets it. -/
theorem Writable.wellFormed (wf : WellFormed st) : WellFormed st' := by
  have hok := wf.files f w.live w.file
  have hsize := w.size_eq h wf
  have hin := w.inside
  have hfit := w.fits
  have h0 := hok.nonneg
  refine (w.fileStep h wf.toTreeOk).wellFormed wf h.ok ⟨?_, ?_, fun i hi => ?_⟩
  · omega
  · omega
  · by_cases hold : (i.val * 4096 : Int) < (inodeAt st.disk f).size.toInt
    · rw [h.ptr_keep_start (hok.ptrs i hold)]
      exact hok.ptrs i hold
    · refine h.ptr_ne_zero ?_
      unfold Touches
      omega

end Written

/-- `fs_write` from the type test on. -/
def writeRest (env : Env) (buf : List UInt8) (offset : Nat) (st : FsState) (inum : Int)
    (inode : Inode) : Except Fault (Int × FsState) :=
  if sIsdir inode.mode then .ok (-eisdir, st)
  else if (offset : Int) > inode.size.toInt then .ok (-einval, st)
  else if (inode.size.toInt + buf.length) % 2 ^ 64 > 1019 * 4096 then .ok (-enospc, st)
  else do
    let st ← st.put (encodeInode (growInode env inode buf.length offset)) inum
    let st ← writeLoop env inum buf 0 offset (growInode env inode buf.length offset) st
    .ok ((buf.length : Int).bmod (2 ^ 32), st)

theorem fsWrite_eq (env : Env) (path buf : List UInt8) (off : Nat) (st : FsState) :
    fsWrite env path buf off st = withInode env path st (writeRest env buf off st) := rfl

section Rest
variable {st : FsState} (wf : WellFormed st) {f off : Nat} {buf : List UInt8}
  (hbuf : buf.length < 2 ^ 31)
include wf hbuf

/-- The sum in the third test does not wrap around. -/
theorem WellFormed.size_add_mod (hf : Live st.disk f) (hfile : isDirAt st.disk f = false) :
    ((inodeAt st.disk f).size.toInt + buf.length) % 2 ^ 64 =
      (inodeAt st.disk f).size.toInt + buf.length := by
  have hok := wf.files f hf hfile
  have h0 := hok.nonneg
  have hmax := hok.le
  rw [Int.emod_eq_of_lt] <;> omega

/-- The size test: the whole buffer is added to the old size, wherever the range begins. -/
theorem WellFormed.writeRest_enospc (hf : Live st.disk f) (hfile : isDirAt st.disk f = false)
    (hin : (off : Int) ≤ (inodeAt st.disk f).size.toInt)
    (hfit : (inodeAt st.disk f).size.toInt + buf.length > 1019 * 4096) (env : Env) (s : FsState) :
    writeRest env buf off s f (inodeAt st.disk f) = .ok (-enospc, s) := by
  have hmode : ¬ sIsdir (inodeAt st.disk f).mode = true := by
    rw [show sIsdir (inodeAt st.disk f).mode = false from hfile]
    decide
  rw [writeRest, if_neg hmode, if_neg (by omega), wf.size_add_mod hbuf hf hfile, if_pos hfit]

/-- A file that does not take the data ends the call with an error, which depends on the inode
only. -/
theorem WellFormed.writeRest_error (hf : Live st.disk f) (hno : ¬ Accepts st f off buf.length) :
    ∃ r, r < 0 ∧
      ∀ (env : Env) (s : FsState), writeRest env buf off s f (inodeAt st.disk f) = .ok (r, s) := by
  by_cases hmode : sIsdir (inodeAt st.disk f).mode = true
  · exact ⟨-eisdir, by decide, fun env s => by rw [writeRest, if_pos hmode]⟩
  · have hfile : isDirAt st.disk f = false := Bool.eq_false_of_not_eq_true hmode
    by_cases hin : (off : Int) > (inodeAt st.disk f).size.toInt
    · exact ⟨-einval, by decide, fun env s => by rw [writeRest, if_neg hmode, if_pos hin]⟩
    · by_cases hfit : (inodeAt st.disk f).size.toInt + buf.length > 1019 * 4096
      · refine ⟨-enospc, by decide, fun env s => ?_⟩
        exact wf.writeRest_enospc hbuf hf hfile (by omega) hfit env s
      · exact absurd ⟨hf, hfile, by omega, by omega⟩ hno

/-- Past the tests the inode is written with its new size, and the loop runs. -/
theorem Accepts.writeRest_eq (a : Accepts st f off buf.length) (env : Env) :
    writeRest env buf off st f (inodeAt st.disk f) =
      (writeLoop env f buf 0 off (inodeAt (startWrite env st f off buf.length).disk f)
        (startWrite env st f off buf.length) >>= fun st' => .ok ((buf.length : Int), st')) := by
  have hmode : ¬ sIsdir (inodeAt st.disk f).mode = true := by
    rw [show sIsdir (inodeAt st.disk f).mode = false from a.file]
    decide
  have hin := a.inside
  have hfit := a.fits
  have hret : (buf.length : Int).bmod (2 ^ 32) = buf.length := by
    rw [Int.bmod_eq_of_le] <;> omega
  rw [writeRest, if_neg hmode, if_neg (by omega), wf.size_add_mod hbuf a.live a.file,
    if_neg (by omega), wf.toTreeOk.put_live a.live, ok_bind, hret, inodeAt_startWrite]
  rfl

omit hbuf in
/-- The loop of `fs_write` writes the whole buffer, or aborts when the unmarked blocks are fewer
than the missing ones. -/
theorem Accepts.writeLoop_cases (a : Accepts st f off buf.length) (env : Env) :
    (st.unmarked.card < (missing (inodeAt st.disk f) off buf.length).card ∧
      writeLoop env f buf 0 off (inodeAt (startWrite env st f off buf.length).disk f)
        (startWrite env st f off buf.length) = .error .assertion) ∨
    ∃ st', writeLoop env f buf 0 off (inodeAt (startWrite env st f off buf.length).disk f)
        (startWrite env st f off buf.length) = .ok st' ∧
      Grown (startWrite env st f off buf.length) st' f off buf := by
  have ok := wf.toTreeOk
  have h0 := (wf.files f a.live a.file).nonneg
  have hin := a.inside
  have hfit := a.fits
  have hstep : FileStep st (startWrite env st f off buf.length) f := a.fileStep_start ok
  have hloop := TreeOk.writeLoop_cases env (f := f) buf _ 0 off
    (startWrite env st f off buf.length) rfl (a.treeOk_start ok) (hstep.live_iff.mpr a.live)
    hstep.file' (by omega)
  rw [Nat.sub_zero, List.drop_zero, unmarked_startWrite] at hloop
  rw [inodeAt_startWrite, missing_growInode] at hloop
  rw [inodeAt_startWrite]
  exact hloop

/-- A file that takes the data gets the whole buffer, or the call aborts for want of blocks. -/
theorem Accepts.writeRest_cases (a : Accepts st f off buf.length) (env : Env) :
    (st.unmarked.card < (missing (inodeAt st.disk f) off buf.length).card ∧
      writeRest env buf off st f (inodeAt st.disk f) = .error .assertion) ∨
    ∃ st', writeRest env buf off st f (inodeAt st.disk f) = .ok (buf.length, st') ∧
      Grown (startWrite env st f off buf.length) st' f off buf := by
  rw [a.writeRest_eq wf hbuf env]
  rcases a.writeLoop_cases wf env with ⟨hcard, hrun⟩ | ⟨st', hrun, hg⟩
  · exact .inl ⟨hcard, by rw [hrun, error_bind]⟩
  · exact .inr ⟨st', by rw [hrun, ok_bind], hg⟩

end Rest

/-- `fs_write` fails with nothing changed unless it gets past its tests; then it writes the whole
buffer, or aborts when the unmarked blocks are fewer than the missing ones. -/
theorem WellFormed.fsWrite_cases {st : FsState} (wf : WellFormed st) (env : Env) (p : CanonPath)
    (buf : List UInt8) (hbuf : buf.length < 2 ^ 31) (off : Nat) :
    (∃ r, r < 0 ∧ fsWrite env p.bytes buf off st = .ok (r, st) ∧
      ¬ ∃ f, Writable st p f off buf.length) ∨
    ∃ f, Writable st p f off buf.length ∧
      ((st.unmarked.card < (missing (inodeAt st.disk f) off buf.length).card ∧
        fsWrite env p.bytes buf off st = .error .assertion) ∨
      ∃ st', fsWrite env p.bytes buf off st = .ok (buf.length, st') ∧
        Grown (startWrite env st f off buf.length) st' f off buf) := by
  have ok := wf.toTreeOk
  rw [fsWrite_eq]
  rcases ok.withInode_cases env p with ⟨e, hres, he, heq⟩ | ⟨f, hres, hf, heq⟩
  · refine .inl ⟨e, codeOf_error_neg hres, heq _, ?_⟩
    rintro ⟨f, w⟩
    simp [w.resolved] at hres
  · rw [heq]
    by_cases a : Accepts st f off buf.length
    · exact .inr ⟨f, ⟨hres, a.file, a.inside, a.fits⟩, a.writeRest_cases wf hbuf env⟩
    · obtain ⟨r, hr, hrun⟩ := wf.writeRest_error hbuf hf a
      refine .inl ⟨r, hr, hrun env st, ?_⟩
      rintro ⟨f', w'⟩
      obtain rfl := Except.ok.inj (w'.resolved.symm.trans hres)
      exact a w'.accepts

end SystemsProjects.Fs5600
