import SystemsProjects.Weensyos.Setup

/-!
# `process_setup` and the state after `kernel_start`

What `process_setup` leaves behind: the page table of the process in the four lowest free pages, the
pages of its image and its stack page counted. `kernel_start` is `process_setup` for one process
after the other, so the page tables of all processes have the same entries.
-/

namespace SystemsProjects.Weensyos
open SystemsProjects.Lib

/-! ## The page table of a process -/

/-- The tables of a process in pages `t` to `t + 3`: nothing but low memory is mapped, no page of
the kernel with `PTE_U`, and the pages of `[PROC_START_ADDR, PROC_START_ADDR + PROC_SIZE)` are. -/
structure ProcTable (s : Phys) (t : Nat) : Prop extends LowTables s t (t + 1) (t + 2) (t + 3) where
  upper : ∀ q, t ≤ q → q < t + 3 → ∀ i, i ≠ 0 → s.word q i = 0
  kernel : ∀ i : Fin 512, i.val < 256 → s.word (t + 3) i &&& pteU = 0
  user : ∀ i : Fin 512, 256 ≤ i.val →
    s.word (t + 3) i = 0 ∨ s.word (t + 3) i = addrOf i.val ||| (7 : BitVec 32).signExtend 64
  region : ∀ i : Fin 512, 256 ≤ i.val → i.val < 320 →
    s.word (t + 3) i = addrOf i.val ||| (7 : BitVec 32).signExtend 64

/-- Only the four pages matter. -/
theorem ProcTable.congr {s s' : Phys} {t : Nat} (h : ProcTable s t)
    (hsame : ∀ p, t ≤ p → p < t + 4 → s'.word p = s.word p) : ProcTable s' t where
  toLowTables := by
    apply h.toLowTables.congr
    intro p hp
    exact hsame p (by omega) (by omega)
  upper := by
    intro q hq hlt
    rw [hsame q hq (by omega)]
    exact h.upper q hq hlt
  kernel := by
    rw [hsame (t + 3) (by omega) (by omega)]
    exact h.kernel
  user := by
    rw [hsame (t + 3) (by omega) (by omega)]
    exact h.user
  region := by
    rw [hsame (t + 3) (by omega) (by omega)]
    exact h.region

/-- A page of a process is mapped to itself. -/
theorem ProcTable.write {s : Phys} {t : Nat} (h : ProcTable s t) {p : Nat} (hp : p < 512)
    (h256 : 256 ≤ p) :
    ProcTable (written s (t + 3) ⟨p, hp⟩ (addrOf p ||| (7 : BitVec 32).signExtend 64)) t := by
  have honly := OnlyTable.of_written s (t + 3) ⟨p, hp⟩ (addrOf p ||| (7 : BitVec 32).signExtend 64)
  have hself : (written s (t + 3) ⟨p, hp⟩ (addrOf p ||| (7 : BitVec 32).signExtend 64)).word (t + 3)
      ⟨p, hp⟩ = addrOf p ||| (7 : BitVec 32).signExtend 64 := by
    simp only [written, Function.update_self]
  have hother : ∀ i : Fin 512, i ≠ ⟨p, hp⟩ →
      (written s (t + 3) ⟨p, hp⟩ (addrOf p ||| (7 : BitVec 32).signExtend 64)).word (t + 3) i =
        s.word (t + 3) i := by
    intro i hi
    simp only [written, Function.update_self, Function.update_of_ne hi]
  refine ⟨h.toLowTables.write (small_leaf hp permArg_seven), ?_, ?_, ?_, ?_⟩
  · intro q hq hlt
    rw [honly.word q (by omega)]
    exact h.upper q hq hlt
  · intro i hi
    rw [hother i fun he => by rw [he] at hi; exact absurd hi (Nat.not_lt.mpr h256)]
    exact h.kernel i hi
  · intro i hi
    by_cases hip : i = ⟨p, hp⟩
    · subst hip
      exact .inr hself
    · rw [hother i hip]
      exact h.user i hi
  · intro i hi hlt
    by_cases hip : i = ⟨p, hp⟩
    · subst hip
      exact hself
    · rw [hother i hip]
      exact h.region i hi hlt

theorem withTables_zero (s : Phys) (n : Nat) :
    (∀ i, i ≠ 0 → (withTables s n).word n i = 0 ∧ (withTables s n).word (n + 1) i = 0 ∧
      (withTables s n).word (n + 2) i = 0) ∧ ∀ i, (withTables s n).word (n + 3) i = 0 := by
  refine ⟨fun i hi => ?_, fun i => ?_⟩
  · simp [withTables, linked, emptied_word, hi]
  · simp [withTables, linked]

/-- The list of addresses in the loop over the process's pages. -/
theorem region_addresses :
    ((List.range (procSize / pageSize)).map fun j => procStartAddr + j * pageSize) =
      (List.range' 256 64).map (· * pageSize) := by
  rw [List.range'_eq_map_range, List.map_map]
  apply List.map_congr_left
  intro j _
  show 0x100000 + j * 4096 = (256 + j) * 4096
  omega

/-- New tables with the kernel's pages and then those of the process in them. -/
theorem procTable_of_maps {s s₁ s₂ : Phys} {n : Nat}
    (low : LowTables s₂ n (n + 1) (n + 2) (n + 3))
    (hmaps₁ : MapsPages (withTables s n) s₁ (n + 3) 1 256 1)
    (hmaps₂ : MapsPages s₁ s₂ (n + 3) 256 320 7) : ProcTable s₂ n := by
  obtain ⟨hupper, hleaf⟩ := withTables_zero s n
  refine ⟨low, ?_, ?_, ?_, ?_⟩
  · intro q hq hlt i hi
    rw [hmaps₂.word q (by omega), hmaps₁.word q (by omega)]
    obtain ⟨ht, ha, hb⟩ := hupper i hi
    obtain rfl | rfl | rfl : q = n ∨ q = n + 1 ∨ q = n + 2 := by omega
    · exact ht
    · exact ha
    · exact hb
  · intro i hi
    rw [hmaps₂.entry, if_neg (by omega), hmaps₁.entry]
    split_ifs
    · rw [BitVec.and_or_distrib_right, addrOf_and _ (by decide)]
      decide
    · rw [hleaf]
      decide
  · intro i hi
    rw [hmaps₂.entry]
    split_ifs
    · exact .inr rfl
    · rw [hmaps₁.entry, if_neg (by omega), hleaf]
      exact .inl rfl
  · intro i hi hlt
    rw [hmaps₂.entry, if_pos (by omega)]

/-- The lowest table as `process_setup` leaves it: the kernel's pages are mapped to themselves, and
nothing is mapped behind the pages of the first process. -/
structure FreshLeaf (s : Phys) (t : Nat) : Prop where
  kernel : ∀ i : Fin 512, 1 ≤ i.val → i.val < 256 →
    s.word (t + 3) i = addrOf i.val ||| (1 : BitVec 32).signExtend 64
  heap : ∀ i : Fin 512, 320 ≤ i.val → s.word (t + 3) i = 0

theorem FreshLeaf.congr {s s' : Phys} {t : Nat} (h : FreshLeaf s t)
    (hsame : s'.word (t + 3) = s.word (t + 3)) : FreshLeaf s' t where
  kernel := by
    rw [hsame]
    exact h.kernel
  heap := by
    rw [hsame]
    exact h.heap

theorem freshLeaf_of_maps {s s₁ s₂ : Phys} {n : Nat}
    (hmaps₁ : MapsPages (withTables s n) s₁ (n + 3) 1 256 1)
    (hmaps₂ : MapsPages s₁ s₂ (n + 3) 256 320 7) : FreshLeaf s₂ n where
  kernel := by
    intro i h1 hi
    rw [hmaps₂.entry, if_neg (by omega), hmaps₁.entry, if_pos ⟨h1, hi⟩]
  heap := by
    intro i hi
    rw [hmaps₂.entry, if_neg (by omega), hmaps₁.entry, if_neg (by omega)]
    exact (withTables_zero s n).2 i

section SetupTable
variable {k : KernelImage} {s : Phys} {n : Nat}
  (kernel : LowTables s k.ktable (k.ktable + 1) (k.ktable + 2) (k.ktable + 3))
  (identity : Identity s (k.ktable + 3)) (h1 : 1 ≤ n) (h64 : n + 4 ≤ 64)
  (hfree : ∀ p, n ≤ p → p < n + 4 → s.refcount p = 0)
  (htaken : ∀ p, 1 ≤ p → p < n → s.refcount p ≠ 0)
include kernel identity h1 h64 hfree htaken

/-- The first round of the loop over the kernel's pages links the tables. -/
theorem copyKernelMap_first : ∃ s',
    copyKernelMap k.layout 256 (iterAt k.ktable (addrOf 1) (0, k.ktable + 3))
        (iterAt n (addrOf 1) (3, n)) (emptied s n) = .ok (iterAt n (addrOf 256) (0, n + 3), s') ∧
      LowTables s' n (n + 1) (n + 2) (n + 3) ∧ MapsPages (withTables s n) s' (n + 3) 1 256 1 := by
  have hk := k.ktable_bound
  have hempty : ∀ p, n + 4 ≤ p → (emptied s n).word p = s.word p := fun p hp => by
    funext i
    rw [emptied_word, if_neg (by omega)]
  have hpa : (iterAt k.ktable (addrOf 1) (0, k.ktable + 3)).pa (emptied s n) = addrOf 1 :=
    (identity.congr (hempty _ (by omega))).pa_eq k.ktable (by omega) le_rfl
  have low := withTables_lowTables s (n := n) (by omega)
  have hkernel : ∀ p, n + 4 ≤ p → (withTables s n).word p = s.word p :=
    fun p hp => withTables_word s (.inr hp)
  have kernel₁ : LowTables (withTables s n) k.ktable (k.ktable + 1) (k.ktable + 2)
      (k.ktable + 3) := by
    apply kernel.congr
    intro p hp
    exact hkernel p (by omega)
  have honly := OnlyTable.of_written (withTables s n) (n + 3) ⟨1, by omega⟩
    (addrOf 1 ||| (1 : BitVec 32).signExtend 64)
  have kernel₂ := honly.lowTables kernel₁ ⟨by omega, by omega, by omega, by omega⟩
  have identity₂ := (identity.congr (hkernel _ (by omega))).congr
    (honly.word (k.ktable + 3) (by omega))
  have low₂ := low.write (i := ⟨1, by omega⟩) (small_leaf (p := 1) (by omega) permArg_one)
  have htry : (iterAt n (addrOf 1) (3, n)).tryMap k.layout (addrOf 1) 1 (emptied s n) =
      .ok (0, iterAt n (addrOf 1) (0, n + 3),
        written (withTables s n) (n + 3) ⟨1, by omega⟩
          (addrOf 1 ||| (1 : BitVec 32).signExtend 64)) := by
    rw [tryMap_eq (addrOf_mod (by omega)) (addrOf_and_ptePamask (by omega)) permArg_one,
      linkTables_fresh h1 h64 hfree htaken (by decide) (by decide)]
    rfl
  obtain ⟨s', hrun, hlow, hmaps⟩ := copyKernelMap_eq (L := k.layout) h64 hk.1 254 (p := 2) rfl
    (by omega) kernel₂ identity₂ low₂
  refine ⟨s', ?_, hlow, .cons (by omega) (by omega) hmaps⟩
  rw [copyKernelMap, if_pos (by
    show (addrOf 1).toNat < procStartAddr
    decide), hpa, htry]
  simp only [bind, Except.bind]
  rw [kernel₂.next_eq (p := 1) (by omega), low₂.next_eq (p := 1) (by omega)]
  exact hrun

/-- `process_setup` fills the page table. -/
theorem setupTable_eq : ∃ s', setupTable k s = .ok (n, s') ∧ ProcTable s' n ∧ FreshLeaf s' n ∧
    (∀ p, p < n ∨ n + 4 ≤ p → s'.word p = s.word p) ∧ s'.refcount = (withTables s n).refcount := by
  have hk := k.ktable_bound
  have kernel₁ : LowTables (emptied s n) k.ktable (k.ktable + 1) (k.ktable + 2) (k.ktable + 3) := by
    apply kernel.congr
    intro p hp
    funext i
    rw [emptied_word, if_neg (by omega)]
  have hkit : vmiter (emptied s n) k.ktable 4096 = .ok (iterAt k.ktable (addrOf 1)
      (0, k.ktable + 3)) := kernel₁.vmiter_eq (show (addrOf 1).toNat < 0x200000 by decide)
  have hpit : vmiter (emptied s n) n 4096 = .ok (iterAt n (addrOf 1) (3, n)) := by
    have hend : endOf (emptied s n) n (addrOf 1) = (3, n) :=
      Radix.walk_none (by rw [emptied_word, if_pos rfl]; decide)
    rw [← hend]
    exact vmiter_eq (emptied_tree (k := k)).entries (by decide)
  obtain ⟨s₁, hcopy, low₁, hmaps₁⟩ := copyKernelMap_first kernel identity h1 h64 hfree htaken
  obtain ⟨s₂, hregion, low₂, hmaps₂⟩ := mapRegion_eq (L := k.layout) 64 (p := 256) (by omega) low₁
  refine ⟨s₂, ?_, procTable_of_maps low₂ hmaps₁ hmaps₂, freshLeaf_of_maps hmaps₁ hmaps₂, ?_, ?_⟩
  · have hrounds : procStartAddr / pageSize = 256 := by decide
    have hfind : (iterAt n (addrOf 256) (0, n + 3)).find s₁ (BitVec.ofNat 64 procStartAddr) =
        .ok (iterAt n (addrOf 256) (0, n + 3)) := by
      have hsame : BitVec.ofNat 64 procStartAddr = (iterAt n (addrOf 256) (0, n + 3)).va := by
        show BitVec.ofNat 64 procStartAddr = addrOf 256
        decide
      unfold Vmiter.find
      rw [if_neg (not_not.mpr hsame)]
    unfold setupTable
    rw [kallocPagetable_eq h1 h64 hfree htaken]
    simp only [bind, Except.bind, Option.getD_some]
    rw [hkit]
    dsimp only
    rw [hpit]
    dsimp only
    rw [hrounds, hcopy]
    dsimp only
    rw [hfind]
    dsimp only
    rw [region_addresses, hregion]
  · intro p hp
    rw [hmaps₂.word p (by omega), hmaps₁.word p (by omega), withTables_word s hp]
  · rw [hmaps₂.refcount, hmaps₁.refcount]

end SetupTable

/-! ## The image of a process -/

/-- A segment lies in the region of process `pid`, below its stack page. -/
def Segment.InRegion (pid : Nat) (seg : Segment) : Prop :=
  procStartAddr + (pid - 1) * procSize ≤ seg.va ∧
    seg.va + seg.size ≤ procStartAddr + pid * procSize - pageSize

theorem Segment.InRegion.pages {n : Nat} {seg : Segment} (h : seg.InRegion (n + 1)) :
    ∀ p ∈ seg.pages, 256 + 64 * n ≤ p ∧ p < 256 + 64 * n + 63 := by
  intro p hp
  obtain ⟨hlow, hhigh⟩ := h
  simp only [procStartAddr, procSize, pageSize, Nat.add_sub_cancel] at hlow hhigh
  simp only [Segment.pages, List.mem_range'_1, pageSize] at hp
  omega

theorem stackPage_eq (n : Nat) : stackPage (n + 1) = 256 + 64 * n + 63 := by
  simp only [stackPage, procStartAddr, procSize, pageSize]
  omega

/-- The pages `process_setup` counts for process `pid`. -/
def imagePages (image : List Segment) : List Nat := image.flatMap Segment.pages

theorem imagePages_bound {n : Nat} {image : List Segment}
    (h : ∀ seg ∈ image, seg.InRegion (n + 1)) :
    ∀ p ∈ imagePages image, 256 + 64 * n ≤ p ∧ p < 256 + 64 * n + 63 := by
  intro p hp
  obtain ⟨seg, hseg, hp⟩ := List.mem_flatMap.mp hp
  exact (h seg hseg).pages p hp

theorem claim_ok {s s' : Phys} {i : Nat} (h : s.claim i = .ok s') :
    i < 512 ∧ s.refcount i = 0 ∧ s' = s.count i := by
  unfold Phys.claim at h
  split_ifs at h with hi hr
  refine ⟨?_, not_not.mp hr, (Except.ok.inj h).symm⟩
  exact Nat.not_le.mp hi

theorem claim_eq {s : Phys} {i : Nat} (hi : i < 512) (hr : s.refcount i = 0) :
    s.claim i = .ok (s.count i) := by
  have hin : ¬ i ≥ memsizePhysical / pageSize := Nat.not_le.mpr hi
  unfold Phys.claim
  rw [if_neg hin, if_neg (not_not.mpr hr)]

theorem count_refcount (s : Phys) (i p : Nat) :
    (s.count i).refcount p = if p = i then s.refcount i + 1 else s.refcount p := by
  simp only [Phys.count, Function.update_apply]

/-- Nothing but reference counts of the pages `ps` has changed. -/
structure OnlyCounts (s s' : Phys) (ps : List Nat) : Prop where
  word : s'.word = s.word
  refcount : ∀ p, p ∉ ps → s'.refcount p = s.refcount p

theorem claimPages_only (ps : List Nat) {s s' : Phys} (h : claimPages ps s = .ok s') :
    OnlyCounts s s' ps := by
  induction ps generalizing s with
  | nil =>
    obtain rfl := Except.ok.inj h
    exact ⟨rfl, fun _ _ => rfl⟩
  | cons p ps ih =>
    simp only [claimPages, bind, Except.bind] at h
    cases hclaim : s.claim p with
    | error f =>
      rw [hclaim] at h
      exact absurd h (by simp)
    | ok s₁ =>
      rw [hclaim] at h
      obtain ⟨-, -, rfl⟩ := claim_ok hclaim
      have honly := ih h
      refine ⟨honly.word, fun q hq => ?_⟩
      have hqp := List.ne_of_not_mem_cons hq
      rw [honly.refcount q (List.not_mem_of_not_mem_cons hq), count_refcount, if_neg hqp]

theorem claimPages_ok (ps : List Nat) (hnodup : ps.Nodup) {s : Phys}
    (hps : ∀ p ∈ ps, p < 512 ∧ s.refcount p = 0) : ∃ s', claimPages ps s = .ok s' := by
  induction ps generalizing s with
  | nil => exact ⟨s, rfl⟩
  | cons p ps ih =>
    obtain ⟨hmem, hnodup⟩ := List.nodup_cons.mp hnodup
    obtain ⟨hp, hr⟩ := hps p List.mem_cons_self
    obtain ⟨s', hrun⟩ := ih hnodup (s := s.count p) (by
      intro q hq
      obtain ⟨hq512, hqr⟩ := hps q (List.mem_cons_of_mem p hq)
      have hne : q ≠ p := fun he => hmem (he ▸ hq)
      exact ⟨hq512, by rw [count_refcount, if_neg hne, hqr]⟩)
    refine ⟨s', ?_⟩
    simp only [claimPages, claim_eq hp hr, bind, Except.bind]
    exact hrun

/-- Bytes written from address `a` on change no page elsewhere, and no reference count. -/
theorem setBytes_frame (bs : List UInt8) {s : Phys} {a : Nat} :
    (s.setBytes a bs).refcount = s.refcount ∧
      ∀ p, (p + 1) * pageSize ≤ a ∨ a + bs.length ≤ p * pageSize →
        (s.setBytes a bs).word p = s.word p := by
  induction bs generalizing s a with
  | nil => exact ⟨rfl, fun _ _ => rfl⟩
  | cons b bs ih =>
    obtain ⟨hrefcount, hword⟩ := ih (s := s.setByte a b) (a := a + 1)
    refine ⟨hrefcount, fun p hp => ?_⟩
    simp only [List.length_cons, pageSize] at hp
    have hne : p ≠ a / pageSize := by
      simp only [pageSize]
      omega
    rw [Phys.setBytes, hword p (by simp only [pageSize]; omega)]
    simp only [Phys.setByte, Function.update_of_ne hne]

theorem load_frame (image : List Segment) {n : Nat} (h : ∀ seg ∈ image, seg.InRegion (n + 1))
    (s : Phys) : (image.foldl Segment.load s).refcount = s.refcount ∧
      ∀ p, p < 256 → (image.foldl Segment.load s).word p = s.word p := by
  induction image generalizing s with
  | nil => exact ⟨rfl, fun _ _ => rfl⟩
  | cons seg image ih =>
    obtain ⟨hlow, -⟩ := h seg List.mem_cons_self
    simp only [procStartAddr] at hlow
    obtain ⟨hrefcount, hword⟩ := ih (fun q hq => h q (List.mem_cons_of_mem seg hq)) (seg.load s)
    obtain ⟨hr₁, hw₁⟩ := setBytes_frame (s := s) (a := seg.va) (List.replicate seg.size 0)
    obtain ⟨hr₂, hw₂⟩ := setBytes_frame (a := seg.va) seg.data
      (s := s.setBytes seg.va (List.replicate seg.size 0))
    refine ⟨hrefcount.trans (hr₂.trans hr₁), fun p hp => ?_⟩
    have hbelow : (p + 1) * pageSize ≤ seg.va := by
      simp only [pageSize]
      omega
    exact (hword p hp).trans ((hw₂ p (.inl hbelow)).trans (hw₁ p (.inl hbelow)))

/-! ## All processes -/

/-- The page of the page table of process `pid`. -/
def tableOf (pid : Nat) : Nat := 4 * (pid - 1) + 1

/-- The page tables of processes 1 to `n`. -/
structure Running (n : Nat) (st : Kernel) : Prop where
  count : n ≤ 4
  table : ∀ pid, 1 ≤ pid → pid ≤ n →
    st.pagetable pid = tableOf pid ∧ ProcTable st.phys (tableOf pid)

/-- The state in which `n` processes are set up, and the rest of memory is as `kernel_start` needs
it for the next one. -/
structure SetUp (k : KernelImage) (n : Nat) (st : Kernel) : Prop extends Running n st where
  kernel : LowTables st.phys k.ktable (k.ktable + 1) (k.ktable + 2) (k.ktable + 3)
  identity : Identity st.phys (k.ktable + 3)
  taken : ∀ p, 1 ≤ p → p ≤ 4 * n → st.phys.refcount p ≠ 0
  free : ∀ p, 4 * n < p → p < 64 → st.phys.refcount p = 0
  unclaimed : ∀ p, 256 + 64 * n ≤ p → st.phys.refcount p = 0

section Processes
variable {k : KernelImage} {n : Nat} {image : List Segment} {st : Kernel}

/-- The page table of the next process. -/
theorem SetUp.setupTable_next (h : SetUp k n st) :
    ∃ s', setupTable k st.phys = .ok (4 * n + 1, s') ∧
    ProcTable s' (4 * n + 1) ∧ FreshLeaf s' (4 * n + 1) ∧
    (∀ p, p < 4 * n + 1 ∨ 4 * n + 5 ≤ p → s'.word p = st.phys.word p) ∧
    ∀ p, s'.refcount p = if 4 * n < p ∧ p < 4 * n + 5 then st.phys.refcount p + 1
      else st.phys.refcount p := by
  have hn := h.count
  obtain ⟨s', hrun, htable, hfresh, hword, hrefcount⟩ := setupTable_eq (n := 4 * n + 1) h.kernel
    h.identity (by omega) (by omega) (fun p hp hlt => h.free p (by omega) (by omega))
    fun p hp hlt => h.taken p hp (by omega)
  refine ⟨s', hrun, htable, hfresh, hword, fun p => ?_⟩
  have hiff : (4 * n + 1 ≤ p ∧ p < 4 * n + 1 + 4) ↔ (4 * n < p ∧ p < 4 * n + 5) := by omega
  rw [hrefcount, withTables_refcount]
  simp only [hiff]

/-- What the loops over the image and the stack page leave of the tables. -/
theorem SetUp.next (h : SetUp k n st) (hn : n < 4) {s s' : Phys}
    (hframe : ∀ p, p < 4 * n + 1 ∨ 4 * n + 5 ≤ p → s.word p = st.phys.word p)
    (htable : ProcTable s (4 * n + 1))
    (hrefcount : ∀ p, s.refcount p = if 4 * n < p ∧ p < 4 * n + 5 then st.phys.refcount p + 1
      else st.phys.refcount p)
    (hword' : ∀ p, p < 256 → s'.word p = s.word p)
    (hrefcount' : ∀ p, p < 256 + 64 * n ∨ 256 + 64 * (n + 1) ≤ p → s'.refcount p = s.refcount p) :
    SetUp k (n + 1)
      { phys := s', pagetable := Function.update st.pagetable (n + 1) (4 * n + 1) } := by
  have hk := k.ktable_bound
  have hkernel : ∀ p, 64 ≤ p → p < 256 → s'.word p = st.phys.word p := fun p hp hlt => by
    rw [hword' p hlt, hframe p (by omega)]
  refine ⟨⟨by omega, ?_⟩, ?_, ?_, ?_, ?_, ?_⟩
  · intro pid h1 hle
    by_cases hpid : pid = n + 1
    · subst hpid
      exact ⟨Function.update_self _ _ _, htable.congr fun p _ hp => hword' p (by omega)⟩
    · obtain ⟨hpt, hold⟩ := h.table pid h1 (by omega)
      refine ⟨(Function.update_of_ne hpid _ _).trans hpt, hold.congr fun p hlow hp => ?_⟩
      simp only [tableOf] at hlow hp
      dsimp only
      rw [hword' p (by omega), hframe p (by omega)]
  · apply h.kernel.congr
    intro p hp
    exact hkernel p (by omega) (by omega)
  · exact h.identity.congr (hkernel _ (by omega) (by omega))
  · intro p h1 hp
    dsimp only
    rw [hrefcount' p (by omega), hrefcount p]
    split_ifs
    · exact Nat.succ_ne_zero _
    · exact h.taken p h1 (by omega)
  · intro p hp hlt
    dsimp only
    rw [hrefcount' p (by omega), hrefcount p, if_neg (by omega)]
    exact h.free p (by omega) hlt
  · intro p hp
    dsimp only
    rw [hrefcount' p (by omega), hrefcount p, if_neg (by omega)]
    exact h.unclaimed p (by omega)

/-- A step that returned, and the steps after it. -/
theorem bind_ok {ε α β : Type} {x : Except ε α} {f : α → Except ε β} {b : β}
    (h : x >>= f = .ok b) : ∃ a, x = .ok a ∧ f a = .ok b := by
  cases x with
  | error e => exact absurd h (by simp [bind, Except.bind])
  | ok a => exact ⟨a, rfl, h⟩

theorem ok_bind {ε α β : Type} (a : α) (f : α → Except ε β) :
    (Except.ok a >>= f : Except ε β) = f a := rfl

/-- `process_setup` after the page table. -/
theorem processSetup_eq {pid t : Nat} {s : Phys} (htab : setupTable k st.phys = .ok (t, s)) :
    processSetup k pid image st = (do
      let s ← claimPages (imagePages image) s
      let s ← (image.foldl Segment.load s).claim (stackPage pid)
      .ok { phys := s, pagetable := Function.update st.pagetable pid t }) := by
  unfold processSetup
  rw [htab]
  rfl

variable (h : SetUp k n st) (himage : ∀ seg ∈ image, seg.InRegion (n + 1))
include h himage

/-- `process_setup` sets up the next process, if it returns. -/
theorem SetUp.processSetup_setUp {st' : Kernel} (hrun : processSetup k (n + 1) image st = .ok st') :
    SetUp k (n + 1) st' := by
  obtain ⟨s₁, htab, htable, -, hword, hrefcount⟩ := h.setupTable_next
  rw [processSetup_eq htab] at hrun
  obtain ⟨s₂, hclaims, hrun⟩ := bind_ok hrun
  obtain ⟨s₃, hstack, hrun⟩ := bind_ok hrun
  obtain rfl := Except.ok.inj hrun
  obtain ⟨hlt, -, rfl⟩ := claim_ok hstack
  rw [stackPage_eq] at hlt
  have honly := claimPages_only _ hclaims
  obtain ⟨hload, hloadw⟩ := load_frame image himage s₂
  refine h.next (by omega) hword htable hrefcount (fun p hp => ?_) fun p hp => ?_
  · rw [← honly.word]
    exact hloadw p hp
  · have hout : p ∉ imagePages image := fun hmem => by
      have hbound := imagePages_bound himage p hmem
      omega
    rw [count_refcount, stackPage_eq, if_neg (by omega), hload, honly.refcount p hout]

/-- No lowest table is changed after its own `process_setup`. -/
theorem SetUp.processSetup_fresh
    (hfresh : ∀ pid, 1 ≤ pid → pid ≤ n → FreshLeaf st.phys (tableOf pid)) {st' : Kernel}
    (hrun : processSetup k (n + 1) image st = .ok st') (pid : Nat) (h1 : 1 ≤ pid)
    (hpid : pid ≤ n + 1) : FreshLeaf st'.phys (tableOf pid) := by
  obtain ⟨s₁, htab, -, hnew, hword, -⟩ := h.setupTable_next
  rw [processSetup_eq htab] at hrun
  obtain ⟨s₂, hclaims, hrun⟩ := bind_ok hrun
  obtain ⟨s₃, hstack, hrun⟩ := bind_ok hrun
  obtain rfl := Except.ok.inj hrun
  obtain ⟨-, -, rfl⟩ := claim_ok hstack
  have hcount := h.count
  obtain ⟨-, hloadw⟩ := load_frame image himage s₂
  have hlow : ∀ p, p < 256 → (image.foldl Segment.load s₂).word p = s₁.word p := fun p hp => by
    rw [hloadw p hp, (claimPages_only _ hclaims).word]
  by_cases hlast : pid = n + 1
  · subst hlast
    exact hnew.congr (hlow _ (by omega))
  · apply (hfresh pid h1 (by omega)).congr
    have hbound : tableOf pid + 3 < 4 * n + 1 := by
      simp only [tableOf]
      omega
    exact (hlow _ (by omega)).trans (hword _ (.inl hbound))

/-- It returns if the region is in memory and no page of the image is counted twice. -/
theorem SetUp.processSetup_ok (hn : n < 4) (hnodup : (imagePages image).Nodup) :
    ∃ st', processSetup k (n + 1) image st = .ok st' := by
  obtain ⟨s₁, htab, -, -, -, hrefcount⟩ := h.setupTable_next
  have hfree : ∀ p, 256 + 64 * n ≤ p → s₁.refcount p = 0 := fun p hp => by
    rw [hrefcount p, if_neg (by omega)]
    exact h.unclaimed p hp
  obtain ⟨s₂, hclaims⟩ := claimPages_ok (imagePages image) hnodup (s := s₁) fun p hp => by
    have hbound := imagePages_bound himage p hp
    exact ⟨by omega, hfree p hbound.1⟩
  have honly := claimPages_only _ hclaims
  obtain ⟨hload, -⟩ := load_frame image himage s₂
  have hout : 256 + 64 * n + 63 ∉ imagePages image := fun hmem => by
    have hbound := imagePages_bound himage _ hmem
    omega
  have hstack : (image.foldl Segment.load s₂).claim (stackPage (n + 1)) =
      .ok ((image.foldl Segment.load s₂).count (stackPage (n + 1))) := by
    rw [stackPage_eq]
    apply claim_eq (by omega)
    rw [hload, honly.refcount _ hout]
    exact hfree _ (by omega)
  rw [processSetup_eq htab, hclaims, ok_bind, hstack, ok_bind]
  exact ⟨_, rfl⟩

end Processes

/-! ## `kernel_start` -/

/-- The images of processes 1 to `n`, each in its region. -/
def ImagesFit (n : Nat) (images : Nat → List Segment) : Prop :=
  ∀ pid, 1 ≤ pid → pid ≤ n → ∀ seg ∈ images pid, seg.InRegion pid

section KernelStart
variable {k : KernelImage} {images : Nat → List Segment} {st : Kernel}

theorem SetUp.setupFrom_setUp (left : Nat) {n : Nat} (h : SetUp k n st)
    (hfit : ImagesFit (n + left) images) {st' : Kernel}
    (hrun : setupFrom k images left (n + 1) st = .ok st') : SetUp k (n + left) st' := by
  induction left generalizing n st with
  | zero =>
    obtain rfl := Except.ok.inj hrun
    exact h
  | succ left ih =>
    obtain ⟨st₁, hone, hrest⟩ := bind_ok hrun
    have h₁ := h.processSetup_setUp (hfit (n + 1) (by omega) (by omega)) hone
    rw [show n + (left + 1) = n + 1 + left from by omega] at hfit ⊢
    exact ih h₁ hfit hrest

theorem SetUp.setupFrom_fresh (left : Nat) {n : Nat} (h : SetUp k n st)
    (hfresh : ∀ pid, 1 ≤ pid → pid ≤ n → FreshLeaf st.phys (tableOf pid))
    (hfit : ImagesFit (n + left) images) {st' : Kernel}
    (hrun : setupFrom k images left (n + 1) st = .ok st') (pid : Nat) (h1 : 1 ≤ pid)
    (hpid : pid ≤ n + left) : FreshLeaf st'.phys (tableOf pid) := by
  induction left generalizing n st with
  | zero =>
    obtain rfl := Except.ok.inj hrun
    exact hfresh pid h1 hpid
  | succ left ih =>
    obtain ⟨st₁, hone, hrest⟩ := bind_ok hrun
    have himage := hfit (n + 1) (by omega) (by omega)
    rw [show n + (left + 1) = n + 1 + left from by omega] at hfit hpid
    exact ih (h.processSetup_setUp himage hone) (h.processSetup_fresh himage hfresh hone) hfit hrest
      hpid

theorem SetUp.setupFrom_ok (left : Nat) {n : Nat} (h : SetUp k n st) (hn : n + left ≤ 4)
    (hfit : ImagesFit (n + left) images) (hnodup : ∀ pid, (imagePages (images pid)).Nodup) :
    ∃ st', setupFrom k images left (n + 1) st = .ok st' := by
  induction left generalizing n st with
  | zero => exact ⟨st, rfl⟩
  | succ left ih =>
    have hone := hfit (n + 1) (by omega) (by omega)
    obtain ⟨st₁, hrun₁⟩ := h.processSetup_ok hone (by omega) (hnodup (n + 1))
    rw [show n + (left + 1) = n + 1 + left from by omega] at hfit hn
    obtain ⟨st', hrun⟩ := ih (h.processSetup_setUp hone hrun₁) hn hfit
    refine ⟨st', ?_⟩
    rw [setupFrom, hrun₁, ok_bind]
    exact hrun

theorem kernelPerm_present {p : Nat} (h1 : 1 ≤ p) :
    (kernelPerm (p * pageSize)).signExtend 64 &&& pteP ≠ 0 := by
  have hne : p * pageSize ≠ 0 := by
    simp only [pageSize]
    omega
  unfold kernelPerm
  rw [if_neg hne]
  split_ifs <;> decide

/-- The loops over the kernel's own table run to their ends. -/
theorem kernelStart_eq (k : KernelImage) (n : Nat) (images : Nat → List Segment)
    (word : Nat → Fin 512 → Word) : ∃ st, SetUp k 0 st ∧
      kernelStart k n images word = setupFrom k images n 1 st := by
  obtain ⟨s₁, hinit, h₁, hcount₁⟩ := initKernelMemory_eq k { word := word, refcount := fun _ => 0 }
  obtain ⟨s₂, hremap, h₂, honly, hentry⟩ := remapKernel_eq k
    (List.range (memsizePhysical / pageSize)) (fun p hp => List.mem_range.mp hp) h₁
  have hcount : ∀ p, s₂.refcount p = 0 := fun p => by rw [honly.refcount, hcount₁]
  refine ⟨{ phys := s₂, pagetable := fun _ => 0 }, ?_, ?_⟩
  · refine ⟨⟨by omega, fun pid h1 h0 => ?_⟩, h₂.toLowTables, ?_, ?_, ?_, ?_⟩
    · exact absurd h0 (by omega)
    · intro p hp h1
      refine ⟨_, permArg_kernelPerm (p * pageSize), kernelPerm_present h1, ?_⟩
      have hmem : p ∈ List.range (memsizePhysical / pageSize) := List.mem_range.mpr hp
      dsimp only
      rw [hentry p hp, if_pos hmem]
    · intro p h1 h0
      exact absurd h0 (by omega)
    · exact fun p _ _ => hcount p
    · exact fun p _ => hcount p
  · unfold kernelStart
    rw [hinit, ok_bind, hremap, ok_bind]

/-- The state after `kernel_start`. -/
theorem kernelStart_setUp {n : Nat} {word : Nat → Fin 512 → Word} (hfit : ImagesFit n images)
    (hstart : kernelStart k n images word = .ok st) : SetUp k n st := by
  obtain ⟨st₀, h₀, heq⟩ := kernelStart_eq k n images word
  rw [heq] at hstart
  rw [show n = 0 + n from (Nat.zero_add n).symm] at hfit
  have hset := h₀.setupFrom_setUp n hfit hstart
  rw [Nat.zero_add] at hset
  exact hset

/-- The lowest tables after `kernel_start`. -/
theorem kernelStart_fresh {n : Nat} {word : Nat → Fin 512 → Word} (hfit : ImagesFit n images)
    (hstart : kernelStart k n images word = .ok st) (pid : Nat) (h1 : 1 ≤ pid) (hpid : pid ≤ n) :
    FreshLeaf st.phys (tableOf pid) := by
  obtain ⟨st₀, h₀, heq⟩ := kernelStart_eq k n images word
  rw [heq] at hstart
  rw [show n = 0 + n from (Nat.zero_add n).symm] at hfit hpid
  exact h₀.setupFrom_fresh n (fun q hq h0 => absurd h0 (by omega)) hfit hstart pid h1 hpid

/-- Up to four processes can be started. -/
theorem kernelStart_ok (k : KernelImage) {n : Nat} (word : Nat → Fin 512 → Word) (hn : n ≤ 4)
    (hfit : ImagesFit n images) (hnodup : ∀ pid, (imagePages (images pid)).Nodup) :
    ∃ st, kernelStart k n images word = .ok st := by
  obtain ⟨st₀, h₀, heq⟩ := kernelStart_eq k n images word
  rw [heq]
  rw [show n = 0 + n from (Nat.zero_add n).symm] at hfit
  exact h₀.setupFrom_ok n (by omega) hfit hnodup

end KernelStart

end SystemsProjects.Weensyos
