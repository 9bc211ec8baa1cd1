import SystemsProjects.Weensyos.Start
import SystemsProjects.Lib.Steps

/-!
# Runs of the processes

After `kernel_start` the processes store to the memory their page tables let them write and call
`sys_page_alloc`. Every process table keeps its shape in every run, so what a process reaches is
known: its memory is at `PROC_START_ADDR` and up, and the pages of
`[PROC_START_ADDR, PROC_START_ADDR + PROC_SIZE)` are in every table.
-/

namespace SystemsProjects.Weensyos
open SystemsProjects.Lib

/-- What a process does: a call of `sys_page_alloc`, or a store in user mode. -/
inductive Event where
  | pageAlloc (pid : Nat) (addr : Word)
  | store (pid : Nat) (va : Word) (b : UInt8)

/-- The steps of processes 1 to `n`. A call of `sys_page_alloc` steps when it returns, with 0 or
-1. -/
inductive Step (k : KernelImage) (n : Nat) (st : Kernel) : Event → Kernel → Prop where
  | pageAlloc {pid : Nat} {addr : Word} {r : Int} {st' : Kernel} (h1 : 1 ≤ pid) (hn : pid ≤ n)
      (hcall : syscallPageAlloc k pid addr st = .ok (r, st')) :
      Step k n st (.pageAlloc pid addr) st'
  | store {pid : Nat} {va pa perm : Word} {b : UInt8} (h1 : 1 ≤ pid) (hn : pid ≤ n)
      (hread : translate st.phys (st.pagetable pid) va = .ok (pa, perm))
      (hperm : perm &&& ptePWU = ptePWU) :
      Step k n st (.store pid va b) { st with phys := st.phys.setByte pa.toNat b }

/-! ## What a process reaches -/

namespace ProcTable
variable {s : Phys} {t : Nat} {va : Word} (h : ProcTable s t)
include h

omit h in
theorem descend_absent {p l : Nat} (hentry : s.word p (pageindex va (l + 1)) = 0) :
    Vmiter.descend s (l + 1) (iterAt t va (l + 1, p)) = iterAt t va (l + 1, p) := by
  have hload : s.load (iterAt t va (l + 1, p)).pep = 0 := hentry
  rw [Vmiter.descend, hload, if_neg (by decide)]

/-- The walk of an address ends at an entry that is clear, or in the table of level 0. -/
theorem descend_cases (va : Word) : ∃ l q, Vmiter.descend s 3 (iterAt t va (3, t)) =
    iterAt t va (l, q) ∧ (s.word q (pageindex va l) = 0 ∨
      (l = 0 ∧ q = t + 3) ∧ pageindex va 3 = 0 ∧ pageindex va 2 = 0 ∧ pageindex va 1 = 0) := by
  obtain ⟨ha, hb, hc⟩ := h.bound
  by_cases h3 : pageindex va 3 = 0
  · have htop : s.word t (pageindex va 3) = tableEntry (t + 1) := by rw [h3]; exact h.top
    rw [descend_tableEntry ha htop]
    by_cases h2 : pageindex va 2 = 0
    · have hmid : s.word (t + 1) (pageindex va 2) = tableEntry (t + 2) := by rw [h2]; exact h.mid
      rw [descend_tableEntry hb hmid]
      by_cases h1 : pageindex va 1 = 0
      · have hlow : s.word (t + 2) (pageindex va 1) = tableEntry (t + 3) := by
          rw [h1]
          exact h.low
        rw [descend_tableEntry hc hlow]
        exact ⟨0, t + 3, rfl, .inr ⟨⟨rfl, rfl⟩, h3, h2, h1⟩⟩
      · have hzero := h.upper (t + 2) (by omega) (by omega) _ h1
        exact ⟨1, t + 2, descend_absent hzero, .inl hzero⟩
    · have hzero := h.upper (t + 1) (by omega) (by omega) _ h2
      exact ⟨2, t + 1, descend_absent hzero, .inl hzero⟩
  · have hzero := h.upper t le_rfl (by omega) _ h3
    exact ⟨3, t, descend_absent hzero, .inl hzero⟩

theorem vmiter_cases (hva : vaIsCanonical va = true) : ∃ l q,
    vmiter s t va = .ok (iterAt t va (l, q)) ∧
      (s.word q (pageindex va l) = 0 ∨ (l = 0 ∧ q = t + 3) ∧ va.toNat < 0x200000) := by
  obtain ⟨l, q, hdesc, hend⟩ := h.descend_cases va
  refine ⟨l, q, ?_, hend.imp_right fun hlow => ⟨hlow.1, ?_⟩⟩
  · have hsmall : s.word q (pageindex va l) &&& ptePamask < 0x100000000 := by
      rcases hend with hzero | ⟨⟨rfl, rfl⟩, -⟩
      · rw [hzero]
        decide
      · exact h.small _
    unfold vmiter Vmiter.realFind
    rw [if_pos (.inl rfl), if_pos hva]
    show Vmiter.down s (iterAt t va (3, t)) = _
    unfold Vmiter.down
    rw [show (iterAt t va (3, t)).level = 3 from rfl, hdesc]
    exact if_neg (BitVec.not_le.mpr hsmall)
  · have hpage := page_of_indices hva
    have h0 := (pageindex va 0).isLt
    obtain ⟨-, h3, h2, h1⟩ := hlow
    rw [h3, h2, h1, if_neg (by decide)] at hpage
    simp only [Fin.val_zero] at hpage
    omega

end ProcTable

/-- An entry without `PTE_U` does not give it. -/
theorem perm_and_pteU {s : Phys} {it : Vmiter} (h : s.load it.pep &&& pteU = 0) :
    it.perm s &&& pteU = 0 := by
  unfold Vmiter.perm
  dsimp only
  rw [BitVec.and_assoc, BitVec.and_comm _ pteU, ← BitVec.and_assoc,
    BitVec.and_assoc (s.load it.pep), BitVec.and_comm _ pteU, ← BitVec.and_assoc, h]
  simp

/-- The physical address of a page mapped to itself. -/
theorem pa_page {s : Phys} {t c p : Nat} {va : Word} (hp : p < 512)
    (hentry : s.word c (pageindex va 0) = addrOf p ||| (7 : BitVec 32).signExtend 64) :
    ((iterAt t va (0, c)).pa s).toNat / pageSize = p := by
  have haddr := toNat_addrOf (p := p) (by omega)
  obtain ⟨hmask, -, hpresent⟩ :=
    leafEntry_bits (addrOf_and_ptePamask (p := p) (by omega)) permArg_seven
  have hload : s.load (iterAt t va (0, c)).pep = addrOf p ||| (7 : BitVec 32).signExtend 64 :=
    hentry
  have hoff : (va &&& pageoffmask 0).toNat < 4096 := by
    rw [BitVec.toNat_and]
    exact Nat.lt_of_le_of_lt Nat.and_le_right (by decide)
  have hpa : (iterAt t va (0, c)).pa s = addrOf p + (va &&& pageoffmask 0) := by
    unfold Vmiter.pa
    rw [hload, hpresent, if_pos (by decide), hmask]
    rfl
  rw [hpa, BitVec.toNat_add, haddr, pageSize]
  omega

/-- What a process reaches in user mode is at `PROC_START_ADDR` and up. -/
theorem ProcTable.user_page {s : Phys} {t : Nat} (h : ProcTable s t) {va pa perm : Word}
    (hread : translate s t va = .ok (pa, perm)) (hperm : perm &&& pteU ≠ 0) :
    256 ≤ pa.toNat / pageSize := by
  cases hva : vaIsCanonical va with
  | false =>
    rw [translate_noncanonical hva] at hread
    obtain ⟨-, rfl⟩ := Prod.mk.inj (Except.ok.inj hread)
    exact absurd (by decide) hperm
  | true =>
    obtain ⟨l, q, hit, hend⟩ := h.vmiter_cases hva
    simp only [translate, hit, bind, Except.bind] at hread
    obtain ⟨rfl, rfl⟩ := Prod.mk.inj (Except.ok.inj hread)
    have habsent : s.word q (pageindex va l) = 0 → False := by
      intro hzero
      have hload : s.load (iterAt t va (l, q)).pep &&& pteP = 0 := by
        show s.word q (pageindex va l) &&& pteP = 0
        rw [hzero]
        decide
      rw [(reading_absent (s := s) _ hload).2] at hperm
      exact hperm (by decide)
    rcases hend with hzero | ⟨⟨rfl, rfl⟩, -⟩
    · exact (habsent hzero).elim
    · by_cases hlow : (pageindex va 0).val < 256
      · have hload : s.load (iterAt t va (0, t + 3)).pep &&& pteU = 0 := h.kernel _ hlow
        exact absurd (perm_and_pteU hload) hperm
      · rcases h.user (pageindex va 0) (by omega) with hzero | hentry
        · exact (habsent hzero).elim
        · rw [pa_page (pageindex va 0).isLt hentry]
          omega

/-! ## `sys_page_alloc` -/

/-- The test at the start of `syscall_page_alloc`. -/
def Rejected (addr : Word) : Prop :=
  addr.toNat < procStartAddr ∨ addr.toNat > memsizePhysical ∨ addr.toNat % pageSize ≠ 0

/-- An address that is not rejected, below the end of memory. -/
theorem page_of_not_rejected {addr : Word} (hin : ¬ Rejected addr)
    (hend : addr.toNat ≠ memsizePhysical) :
    addr.toNat / pageSize < 512 ∧ 256 ≤ addr.toNat / pageSize ∧
      addr = addrOf (addr.toNat / pageSize) := by
  simp only [Rejected, procStartAddr, memsizePhysical, pageSize] at hin hend ⊢
  have hp : addr.toNat / 4096 < 512 := by omega
  refine ⟨hp, by omega, ?_⟩
  apply BitVec.eq_of_toNat_eq
  rw [toNat_addrOf (by omega)]
  omega

/-- The state after page `p` was allocated in the table at `t`. -/
def allocated (st : Kernel) (t p : Nat) (hp : p < 512) : Kernel :=
  { st with
    phys := ((written st.phys (t + 3) ⟨p, hp⟩
      (addrOf p ||| (7 : BitVec 32).signExtend 64)).count p).fill
      p 0 }

section PageAlloc
variable {k : KernelImage} {n pid : Nat} {addr : Word} {st : Kernel}

theorem syscallPageAlloc_rejected (hreject : Rejected addr) :
    syscallPageAlloc k pid addr st = .ok (-1, st) := by
  unfold syscallPageAlloc
  exact if_pos hreject

/-- `physpages` has no entry for the address after memory. -/
theorem syscallPageAlloc_end (hin : ¬ Rejected addr) (hend : addr.toNat = memsizePhysical) :
    syscallPageAlloc k pid addr st = .error .outOfBounds := by
  have hout : addr.toNat / pageSize ≥ memsizePhysical / pageSize := by rw [hend]
  unfold syscallPageAlloc
  exact (if_neg hin).trans (if_pos hout)

theorem syscallPageAlloc_used (hin : ¬ Rejected addr) (hend : addr.toNat ≠ memsizePhysical)
    (hused : st.phys.refcount (addr.toNat / pageSize) ≠ 0) :
    syscallPageAlloc k pid addr st = .error .assertion := by
  have hp : ¬ addr.toNat / pageSize ≥ memsizePhysical / pageSize :=
    Nat.not_le.mpr (page_of_not_rejected hin hend).1
  unfold syscallPageAlloc
  exact (if_neg hin).trans ((if_neg hp).trans (if_pos hused))

variable (h : Running n st) (h1 : 1 ≤ pid) (hn : pid ≤ n)
include h h1 hn

/-- A free page is mapped, counted and cleared. -/
theorem Running.syscallPageAlloc_free (hin : ¬ Rejected addr) (hend : addr.toNat ≠ memsizePhysical)
    (hfree : st.phys.refcount (addr.toNat / pageSize) = 0) :
    syscallPageAlloc k pid addr st = .ok (0, allocated st (tableOf pid) (addr.toNat / pageSize)
      (page_of_not_rejected hin hend).1) := by
  obtain ⟨hp, -, haddr⟩ := page_of_not_rejected hin hend
  obtain ⟨htable, hproc⟩ := h.table pid h1 hn
  have hout : ¬ addr.toNat / pageSize ≥ memsizePhysical / pageSize := Nat.not_le.mpr hp
  have hmap : mapAt k.layout st.phys (tableOf pid) addr addr 7 = .ok (0, iterAt (tableOf pid) addr
      (0, tableOf pid + 3), written st.phys (tableOf pid + 3) ⟨addr.toNat / pageSize, hp⟩
        (addrOf (addr.toNat / pageSize) ||| (7 : BitVec 32).signExtend 64)) := by
    have hpage := hproc.toLowTables.mapAt_eq k.layout hp permArg_seven
    rw [← haddr] at hpage
    rw [← haddr]
    exact hpage
  unfold syscallPageAlloc
  refine (if_neg hin).trans ((if_neg hout).trans ((if_neg (not_not.mpr hfree)).trans ?_))
  rw [htable, hmap, ok_bind]
  exact if_neg (not_not.mpr rfl)

omit h1 hn in
/-- Tables are in pages that no process reaches. -/
theorem Running.congr {st' : Kernel} (hpt : st'.pagetable = st.pagetable)
    (hword : ∀ p, p < 256 → st'.phys.word p = st.phys.word p) : Running n st' := by
  have hcount := h.count
  refine ⟨hcount, fun q hq1 hqn => ?_⟩
  obtain ⟨htable, hproc⟩ := h.table q hq1 hqn
  rw [hpt]
  refine ⟨htable, hproc.congr fun p _ hp => hword p ?_⟩
  simp only [tableOf] at hp
  omega

theorem Running.allocated {p : Nat} (hp : p < 512) (h256 : 256 ≤ p) :
    Running n (allocated st (tableOf pid) p hp) := by
  have hcount := h.count
  have hmid : Running n { st with
      phys := written st.phys (tableOf pid + 3) ⟨p, hp⟩
        (addrOf p ||| (7 : BitVec 32).signExtend 64) } := by
    refine ⟨hcount, fun q hq1 hqn => ?_⟩
    obtain ⟨htable, hproc⟩ := h.table q hq1 hqn
    refine ⟨htable, ?_⟩
    by_cases hqp : q = pid
    · subst hqp
      exact hproc.write hp h256
    · apply hproc.congr
      intro r hr hr4
      apply (OnlyTable.of_written st.phys _ _ _).word
      simp only [tableOf] at hr hr4 ⊢
      omega
  refine hmid.congr (by rfl) fun q hq => ?_
  have hne : q ≠ p := by omega
  simp only [Weensyos.allocated, Phys.fill, Phys.count, Function.update_of_ne hne]

/-- The page just allocated. -/
theorem Running.allocated_safe {p : Nat} (hp : p < 512) (h256 : 256 ≤ p) :
    translate (Weensyos.allocated st (tableOf pid) p hp).phys
        ((Weensyos.allocated st (tableOf pid) p hp).pagetable pid) (addrOf p) =
        .ok (addrOf p, ptePWU) ∧
      (∀ i, (Weensyos.allocated st (tableOf pid) p hp).phys.word p i = 0) ∧
      1 ≤ (Weensyos.allocated st (tableOf pid) p hp).phys.refcount p := by
  have hcount := h.count
  obtain ⟨htable, hproc⟩ := (h.allocated h1 hn hp h256).table pid h1 hn
  have hne : tableOf pid + 3 ≠ p := by
    simp only [tableOf]
    omega
  refine ⟨?_, fun i => ?_, ?_⟩
  · rw [htable]
    apply hproc.translate_eq hp permArg_seven (by decide)
    simp only [Weensyos.allocated, Phys.fill, Phys.count, Function.update_of_ne hne, written,
      Function.update_self]
  · simp only [Weensyos.allocated, Phys.fill, Function.update_self]
  · simp only [Weensyos.allocated, Phys.fill, Phys.count, Function.update_self]
    omega

end PageAlloc

/-- A step keeps the process tables. -/
theorem Running.step {k : KernelImage} {n : Nat} {st st' : Kernel} {e : Event} (h : Running n st)
    (hstep : Step k n st e st') : Running n st' := by
  cases hstep with
  | @pageAlloc pid addr r _ h1 hn hcall =>
    by_cases hin : Rejected addr
    · rw [syscallPageAlloc_rejected hin] at hcall
      obtain ⟨-, rfl⟩ := Prod.mk.inj (Except.ok.inj hcall)
      exact h
    by_cases hend : addr.toNat = memsizePhysical
    · rw [syscallPageAlloc_end hin hend] at hcall
      exact absurd hcall (by simp)
    by_cases hfree : st.phys.refcount (addr.toNat / pageSize) = 0
    · rw [h.syscallPageAlloc_free h1 hn hin hend hfree] at hcall
      obtain ⟨-, rfl⟩ := Prod.mk.inj (Except.ok.inj hcall)
      exact h.allocated h1 hn _ (page_of_not_rejected hin hend).2.1
    · rw [syscallPageAlloc_used hin hend hfree] at hcall
      exact absurd hcall (by simp)
  | @store pid va pa perm b h1 hn hread hperm =>
    obtain ⟨htable, hproc⟩ := h.table pid h1 hn
    rw [htable] at hread
    have huser : perm &&& pteU ≠ 0 := by
      intro hzero
      have hbits : perm &&& pteU = pteU := by
        rw [show pteU = ptePWU &&& pteU from by decide, ← BitVec.and_assoc, hperm]
      rw [hbits] at hzero
      exact absurd hzero (by decide)
    have hpage := hproc.user_page hread huser
    refine h.congr (by rfl) fun p hp => ?_
    have hne : p ≠ pa.toNat / pageSize := by omega
    simp only [Phys.setByte, Function.update_of_ne hne]

/-- The process tables in every reachable state. -/
theorem running_of_run {k : KernelImage} {n : Nat} {images : Nat → List Segment}
    {word : Nat → Fin 512 → Word} {st₀ st : Kernel} {es : List Event} (hfit : ImagesFit n images)
    (hstart : kernelStart k n images word = .ok st₀) (hrun : Steps (Step k n) st₀ es st) :
    Running n st :=
  hrun.invariant (fun _ _ _ h hstep => h.step hstep) (kernelStart_setUp hfit hstart).toRunning

/-- A page in every process table. -/
theorem Running.translate_region {n pid p : Nat} {st : Kernel} (h : Running n st) (h1 : 1 ≤ pid)
    (hn : pid ≤ n) (h256 : 256 ≤ p) (h320 : p < 320) :
    translate st.phys (st.pagetable pid) (addrOf p) = .ok (addrOf p, ptePWU) := by
  obtain ⟨htable, hproc⟩ := h.table pid h1 hn
  rw [htable]
  exact hproc.translate_eq (by omega) permArg_seven (by decide)
    (hproc.region ⟨p, by omega⟩ h256 h320)

/-! ## Isolation of processes -/

/-- The page at address `va` is mapped with `PTE_P`, `PTE_W` and `PTE_U`. -/
def MapsPWU (st : Kernel) (pid : Nat) (va : Word) : Prop :=
  ∃ pa perm, translate st.phys (st.pagetable pid) va = .ok (pa, perm) ∧ perm &&& ptePWU = ptePWU

/-- Physical page `p` is mapped with `PTE_U` somewhere in the table of process `pid`. -/
def UserPage (st : Kernel) (pid p : Nat) : Prop :=
  ∃ va pa perm, translate st.phys (st.pagetable pid) va = .ok (pa, perm) ∧ perm &&& pteU ≠ 0 ∧
    pa.toNat / pageSize = p

/-- Processes 1 to `n` have their own pages, and no page at `PROC_START_ADDR` or up with another. -/
structure Isolated (n : Nat) (images : Nat → List Segment) (st : Kernel) : Prop where
  own : ∀ pid, 1 ≤ pid → pid ≤ n → ∀ p, p ∈ imagePages (images pid) ∨ p = stackPage pid →
    MapsPWU st pid (addrOf p)
  apart : ∀ pid pid', 1 ≤ pid → pid ≤ n → 1 ≤ pid' → pid' ≤ n → pid ≠ pid' →
    ∀ p, procStartAddr / pageSize ≤ p → ¬ (UserPage st pid p ∧ UserPage st pid' p)

/-- `process_setup` maps the region of process 1 in the table of every process. -/
theorem Running.not_isolated {n : Nat} {images : Nat → List Segment} {st : Kernel}
    (h : Running n st) (hn : 2 ≤ n) : ¬ Isolated n images st := by
  intro hiso
  have hshared : ∀ pid, 1 ≤ pid → pid ≤ 2 → UserPage st pid 256 := by
    intro pid h1 h2
    refine ⟨addrOf 256, addrOf 256, ptePWU, ?_, by decide, by decide⟩
    exact h.translate_region h1 (by omega) le_rfl (by omega)
  exact hiso.apart 1 2 le_rfl (by omega) (by omega) hn (by omega) 256 (by decide)
    ⟨hshared 1 le_rfl (by omega), hshared 2 (by omega) le_rfl⟩

/-- The only process has its own pages. -/
theorem Running.isolated_one {n : Nat} {images : Nat → List Segment} {st : Kernel}
    (h : Running n st) (hfit : ImagesFit n images) (hn : n ≤ 1) : Isolated n images st := by
  refine ⟨fun pid h1 hle p hp => ?_, fun pid pid' h1 hle h1' hle' hne => ?_⟩
  · obtain rfl : pid = 0 + 1 := by omega
    have hbound : 256 ≤ p ∧ p < 320 := by
      rcases hp with hp | rfl
      · have hpages := imagePages_bound (hfit (0 + 1) h1 hle) p hp
        omega
      · rw [stackPage_eq]
        omega
    exact ⟨addrOf p, ptePWU, h.translate_region h1 hle hbound.1 hbound.2, by decide⟩
  · exact absurd (by omega) hne

/-- The states of a run are isolated exactly when there is no second process. -/
theorem isolated_iff {k : KernelImage} {n : Nat} {images : Nat → List Segment}
    {word : Nat → Fin 512 → Word} {st₀ st : Kernel} {es : List Event} (hfit : ImagesFit n images)
    (hstart : kernelStart k n images word = .ok st₀) (hrun : Steps (Step k n) st₀ es st) :
    Isolated n images st ↔ n ≤ 1 := by
  have h := running_of_run hfit hstart hrun
  constructor
  · intro hiso
    by_contra hn
    exact h.not_isolated (by omega) hiso
  · exact h.isolated_one hfit

/-- A kernel of 32 pages. -/
def sampleKernel : KernelImage where
  kernelEnd := 0x60000
  ktable := 0x50
  start := by decide
  tables := by decide
  stack := by decide

/-- Two instructions at the start of the region of process `pid`, and two pages of memory. -/
def sampleImage (pid : Nat) : List Segment :=
  [{ va := procStartAddr + (pid - 1) * procSize, size := 0x2000, data := [0xEB, 0xFE],
     fits := by decide }]

theorem sampleImage_fit (n : Nat) : ImagesFit n sampleImage := by
  intro pid h1 _ seg hseg
  obtain rfl := List.mem_singleton.mp hseg
  simp only [Segment.InRegion, procStartAddr, procSize, pageSize]
  omega

theorem sampleImage_nodup (pid : Nat) : (imagePages (sampleImage pid)).Nodup := by
  simp only [imagePages, sampleImage, List.flatMap_cons, List.flatMap_nil, List.append_nil]
  exact List.nodup_range'

/-- One process allocates the page at `0x150000`. -/
theorem sample_pageAlloc : ∃ st st',
    kernelStart sampleKernel 1 sampleImage (fun _ _ => 0) = .ok st ∧ Running 1 st ∧
      syscallPageAlloc sampleKernel 1 0x150000 st = .ok (0, st') ∧ Running 1 st' ∧
      translate st'.phys (st'.pagetable 1) 0x150000 = .ok (0x150000, ptePWU) ∧
      st'.phys.refcount ((0x150000 : Word).toNat / pageSize) ≠ 0 := by
  obtain ⟨st, hstart⟩ := kernelStart_ok sampleKernel (fun _ _ => 0) (by decide) (sampleImage_fit 1)
    sampleImage_nodup
  have hset := kernelStart_setUp (sampleImage_fit 1) hstart
  have hrun : Running 1 st := hset.toRunning
  have hin : ¬ Rejected 0x150000 := by
    unfold Rejected
    decide
  have hlt : (0x150000 : Word).toNat ≠ memsizePhysical := by decide
  have hfree : st.phys.refcount ((0x150000 : Word).toNat / pageSize) = 0 :=
    hset.unclaimed 0x150 (by decide)
  obtain ⟨hp, h256, haddr⟩ := page_of_not_rejected hin hlt
  obtain ⟨hread, -, hcount⟩ := hrun.allocated_safe le_rfl le_rfl hp h256
  rw [← haddr] at hread
  exact ⟨st, _, hstart, hrun, hrun.syscallPageAlloc_free le_rfl le_rfl hin hlt hfree,
    hrun.allocated le_rfl le_rfl hp h256, hread, Nat.ne_of_gt hcount⟩

/-- One process is isolated, also when it has stored to a page that it allocated. -/
theorem isolated_single : ∃ st₀ st,
    kernelStart sampleKernel 1 sampleImage (fun _ _ => 0) = .ok st₀ ∧
      Steps (Step sampleKernel 1) st₀ [.pageAlloc 1 0x150000, .store 1 0x150000 0x90] st ∧
      Isolated 1 sampleImage st := by
  obtain ⟨st, st', hstart, -, hcall, -, hread, -⟩ := sample_pageAlloc
  have hrun := Steps.cons (Step.pageAlloc (n := 1) le_rfl le_rfl hcall)
    (.single (.store le_rfl le_rfl (b := 0x90) hread (by decide)))
  exact ⟨st, _, hstart, hrun, (isolated_iff (sampleImage_fit 1) hstart hrun).mpr le_rfl⟩

/-- With two processes, process 2 reaches the code of process 1. -/
theorem isolated_two_fails :
    ∃ st, kernelStart sampleKernel 2 sampleImage (fun _ _ => 0) = .ok st ∧
      MapsPWU st 2 0x100000 ∧ ¬ Isolated 2 sampleImage st := by
  obtain ⟨st, hstart⟩ := kernelStart_ok sampleKernel (fun _ _ => 0) (by decide) (sampleImage_fit 2)
    sampleImage_nodup
  have h := (kernelStart_setUp (sampleImage_fit 2) hstart).toRunning
  have hva : (0x100000 : Word) = addrOf 256 := by decide
  refine ⟨st, hstart, ⟨addrOf 256, ptePWU, ?_, by decide⟩, h.not_isolated le_rfl⟩
  rw [hva]
  exact h.translate_region (by decide) le_rfl le_rfl (by decide)

/-! ## What `sys_page_alloc` promises -/

/-- The call returns: 0 with a zeroed page mapped at `addr` and counted, or -1 with nothing
changed. -/
def AllocSafe (k : KernelImage) (pid : Nat) (addr : Word) (st : Kernel) : Prop :=
  ∃ r st', syscallPageAlloc k pid addr st = .ok (r, st') ∧
    ((r = 0 ∧ (∃ perm, translate st'.phys (st'.pagetable pid) addr = .ok (addr, perm) ∧
        perm &&& ptePWU = ptePWU) ∧
      (∀ i, st'.phys.word (addr.toNat / pageSize) i = 0) ∧
      1 ≤ st'.phys.refcount (addr.toNat / pageSize)) ∨
    (r = -1 ∧ st' = st))

section AllocSafe
variable {k : KernelImage} {n pid : Nat} {addr : Word} {st : Kernel} (h : Running n st)
  (h1 : 1 ≤ pid) (hn : pid ≤ n)
include h h1 hn

/-- The call fails on the address after memory, and on a page that is in use. -/
theorem Running.allocSafe_iff : AllocSafe k pid addr st ↔
    Rejected addr ∨
      (addr.toNat ≠ memsizePhysical ∧ st.phys.refcount (addr.toNat / pageSize) = 0) := by
  by_cases hin : Rejected addr
  · exact ⟨fun _ => .inl hin, fun _ => ⟨-1, st, syscallPageAlloc_rejected hin, .inr ⟨rfl, rfl⟩⟩⟩
  by_cases hend : addr.toNat = memsizePhysical
  · refine ⟨fun hsafe => ?_, fun hor => (hor.elim hin fun hok => hok.1 hend).elim⟩
    obtain ⟨r, st', hcall, -⟩ := hsafe
    rw [syscallPageAlloc_end hin hend] at hcall
    exact absurd hcall (by simp)
  by_cases hfree : st.phys.refcount (addr.toNat / pageSize) = 0
  · obtain ⟨hp, h256, haddr⟩ := page_of_not_rejected hin hend
    obtain ⟨hread, hclear⟩ := h.allocated_safe h1 hn hp h256
    rw [← haddr] at hread
    refine ⟨fun _ => .inr ⟨hend, hfree⟩, fun _ =>
      ⟨0, _, h.syscallPageAlloc_free h1 hn hin hend hfree,
      .inl ⟨rfl, ⟨ptePWU, hread, by decide⟩, hclear⟩⟩⟩
  · refine ⟨fun hsafe => ?_, fun hor => (hor.elim hin fun hok => hfree hok.2).elim⟩
    obtain ⟨r, st', hcall, -⟩ := hsafe
    rw [syscallPageAlloc_used hin hend hfree] at hcall
    exact absurd hcall (by simp)

end AllocSafe

/-- In every reachable state `sys_page_alloc` is safe for exactly the addresses it rejects and those
of free pages of memory. -/
theorem syscallPageAlloc_safe_iff {k : KernelImage} {n : Nat} {images : Nat → List Segment}
    {word : Nat → Fin 512 → Word} {st₀ st : Kernel} {es : List Event} {pid : Nat} {addr : Word}
    (hfit : ImagesFit n images) (hstart : kernelStart k n images word = .ok st₀)
    (hrun : Steps (Step k n) st₀ es st) (h1 : 1 ≤ pid) (hn : pid ≤ n) :
    AllocSafe k pid addr st ↔ Rejected addr ∨
      (addr.toNat ≠ memsizePhysical ∧ st.phys.refcount (addr.toNat / pageSize) = 0) :=
  (running_of_run hfit hstart hrun).allocSafe_iff h1 hn

/-- Process 1 allocates the page at `0x150000`. -/
theorem syscallPageAlloc_safe_once :
    ∃ st, kernelStart sampleKernel 1 sampleImage (fun _ _ => 0) = .ok st ∧
      AllocSafe sampleKernel 1 0x150000 st := by
  obtain ⟨st, hstart⟩ := kernelStart_ok sampleKernel (fun _ _ => 0) (by decide) (sampleImage_fit 1)
    sampleImage_nodup
  have hfree := (kernelStart_setUp (sampleImage_fit 1) hstart).unclaimed 0x150 (by decide)
  exact ⟨st, hstart, (syscallPageAlloc_safe_iff (sampleImage_fit 1) hstart (.nil st) le_rfl
    le_rfl).mpr (.inr ⟨by decide, hfree⟩)⟩

/-- The address after memory indexes `physpages` out of bounds, and the second call for the same
page fails the assertion. -/
theorem syscallPageAlloc_faults :
    ∃ st st', kernelStart sampleKernel 1 sampleImage (fun _ _ => 0) = .ok st ∧
      syscallPageAlloc sampleKernel 1 0x200000 st = .error .outOfBounds ∧
      ¬ AllocSafe sampleKernel 1 0x200000 st ∧
      syscallPageAlloc sampleKernel 1 0x150000 st = .ok (0, st') ∧
      syscallPageAlloc sampleKernel 1 0x150000 st' = .error .assertion ∧
      ¬ AllocSafe sampleKernel 1 0x150000 st' := by
  obtain ⟨st, st', hstart, hrun, hcall, hrun', -, hused⟩ := sample_pageAlloc
  have hin : ¬ Rejected 0x150000 := by
    unfold Rejected
    decide
  have hlt : (0x150000 : Word).toNat ≠ memsizePhysical := by decide
  have hlast : ¬ Rejected 0x200000 := by
    unfold Rejected
    decide
  have hend : (0x200000 : Word).toNat = memsizePhysical := by decide
  refine ⟨st, st', hstart, syscallPageAlloc_end hlast hend, ?_, hcall,
    syscallPageAlloc_used hin hlt hused, ?_⟩
  · rw [hrun.allocSafe_iff le_rfl le_rfl]
    exact fun hor => hor.elim hlast fun hok => hok.1 hend
  · rw [hrun'.allocSafe_iff le_rfl le_rfl]
    exact fun hor => hor.elim hin fun hok => hused hok.2

end SystemsProjects.Weensyos
