import SystemsProjects.Weensyos.Machine

/-!
# Which process reaches which page

What the four tables of a process map: the kernel's pages and its own to themselves, and nothing
else. A page behind the region of process 1 is in the table of the process that has allocated it and
in no other, and the pages of the kernel stay as they are.
-/

namespace SystemsProjects.Weensyos
open SystemsProjects.Lib

/-! ## Reading at any byte -/

theorem pageindex_zero {va : Word} (hp : va.toNat / pageSize < 512) :
    pageindex va 0 = ⟨va.toNat / pageSize, hp⟩ := by
  apply Fin.ext
  rw [pageindex_val]
  exact Nat.mod_eq_of_lt hp

/-- In a page that is mapped to itself every address is. -/
theorem pa_self {s : Phys} {root c : Nat} {va : Word} (hva : va.toNat < 0x200000) {perm : BitVec 32}
    (hperm : PermArg perm) (hpresent : perm.signExtend 64 &&& pteP ≠ 0)
    (hentry : s.word c (pageindex va 0) = addrOf (va.toNat / pageSize) ||| perm.signExtend 64) :
    (iterAt root va (0, c)).pa s = va := by
  have hp : va.toNat / pageSize < 512 := by
    simp only [pageSize]
    omega
  have haddr := toNat_addrOf (p := va.toNat / pageSize) (by omega)
  obtain ⟨hmask, -, hbit⟩ := leafEntry_bits
    (addrOf_and_ptePamask (p := va.toNat / pageSize) (by omega)) hperm
  have hload : s.load (iterAt root va (0, c)).pep = addrOf (va.toNat / pageSize) |||
      perm.signExtend 64 := hentry
  have hoff : (va &&& pageoffmask 0).toNat = va.toNat % 4096 := by
    rw [BitVec.toNat_and, show (pageoffmask 0).toNat = 2 ^ 12 - 1 from by decide,
      Nat.and_two_pow_sub_one_eq_mod]
  have hpa : (iterAt root va (0, c)).pa s = addrOf (va.toNat / pageSize) +
      (va &&& pageoffmask 0) := by
    unfold Vmiter.pa
    rw [hload, hbit, if_pos hpresent, hmask]
    rfl
  apply BitVec.eq_of_toNat_eq
  rw [hpa, BitVec.toNat_add, haddr, hoff, pageSize]
  omega

/-- What a process reaches in user mode is mapped to itself. -/
theorem ProcTable.user_reading {s : Phys} {t : Nat} (h : ProcTable s t) {va pa perm : Word}
    (hread : translate s t va = .ok (pa, perm)) (hperm : perm &&& pteU ≠ 0) :
    pa = va ∧ ∃ hp : va.toNat / pageSize < 512, 256 ≤ va.toNat / pageSize ∧
      s.word (t + 3) ⟨va.toNat / pageSize, hp⟩ =
        addrOf (va.toNat / pageSize) ||| (7 : BitVec 32).signExtend 64 := by
  have hlow := h.user_page hread hperm
  cases hcanon : vaIsCanonical va with
  | false =>
    rw [translate_noncanonical hcanon] at hread
    obtain ⟨-, rfl⟩ := Prod.mk.inj (Except.ok.inj hread)
    exact absurd (by decide) hperm
  | true =>
    obtain ⟨l, q, hit, hend⟩ := h.vmiter_cases hcanon
    simp only [translate, hit, bind, Except.bind] at hread
    obtain ⟨rfl, rfl⟩ := Prod.mk.inj (Except.ok.inj hread)
    have habsent : s.word q (pageindex va l) ≠ 0 := by
      intro hzero
      have hload : s.load (iterAt t va (l, q)).pep &&& pteP = 0 := by
        show s.word q (pageindex va l) &&& pteP = 0
        rw [hzero]
        decide
      rw [(reading_absent (s := s) _ hload).2] at hperm
      exact hperm (by decide)
    obtain ⟨⟨rfl, rfl⟩, hva⟩ := hend.resolve_left habsent
    have hp : va.toNat / pageSize < 512 := by
      simp only [pageSize]
      omega
    rw [pageindex_zero hp] at habsent
    by_cases h256 : va.toNat / pageSize < 256
    · have hload : s.load (iterAt t va (0, t + 3)).pep &&& pteU = 0 := by
        show s.word (t + 3) (pageindex va 0) &&& pteU = 0
        rw [pageindex_zero hp]
        exact h.kernel _ h256
      exact absurd (perm_and_pteU hload) hperm
    · have hentry := (h.user ⟨_, hp⟩ (Nat.not_lt.mp h256)).resolve_left habsent
      refine ⟨pa_self hva permArg_seven (by decide) ?_, hp, Nat.not_lt.mp h256, hentry⟩
      rw [pageindex_zero hp]
      exact hentry

/-- The pages of a process, by its lowest table. -/
theorem Running.userPage_iff {n pid : Nat} {st : Kernel} (h : Running n st) (h1 : 1 ≤ pid)
    (hn : pid ≤ n) (p : Nat) : UserPage st pid p ↔
      ∃ hp : p < 512, 256 ≤ p ∧ st.phys.word (tableOf pid + 3) ⟨p, hp⟩ ≠ 0 := by
  obtain ⟨htable, hproc⟩ := h.table pid h1 hn
  constructor
  · rintro ⟨va, pa, perm, hread, hperm, rfl⟩
    rw [htable] at hread
    obtain ⟨rfl, hp, h256, hentry⟩ := hproc.user_reading hread hperm
    refine ⟨hp, h256, fun hzero => ?_⟩
    have hbit : (0 : Word) &&& pteP = (addrOf (pa.toNat / pageSize) |||
        (7 : BitVec 32).signExtend 64) &&& pteP := by rw [← hentry, hzero]
    rw [BitVec.and_or_distrib_right, addrOf_and _ (by decide)] at hbit
    exact absurd hbit (by decide)
  · rintro ⟨hp, h256, hentry⟩
    have hleaf := (hproc.user ⟨p, hp⟩ h256).resolve_left hentry
    refine ⟨addrOf p, addrOf p, ptePWU, ?_, by decide, ?_⟩
    · rw [htable]
      exact hproc.translate_eq hp permArg_seven (by decide) hleaf
    · rw [toNat_addrOf (by omega), pageSize, Nat.mul_div_cancel _ (by decide)]

/-! ## One step -/

section Allocated
variable (st : Kernel) {t p q : Nat} (hp : p < 512)

theorem allocated_page : (allocated st t p hp).phys.word p = fun _ => 0 :=
  Function.update_self _ _ _

theorem allocated_leaf (h : t + 3 ≠ p) : (allocated st t p hp).phys.word (t + 3) =
    Function.update (st.phys.word (t + 3)) ⟨p, hp⟩
      (addrOf p ||| (7 : BitVec 32).signExtend 64) := by
  simp only [allocated, Phys.fill, Phys.count, written, Function.update_of_ne h,
    Function.update_self]

theorem allocated_other (hqp : q ≠ p) (hqt : q ≠ t + 3) :
    (allocated st t p hp).phys.word q = st.phys.word q := by
  simp only [allocated, Phys.fill, Phys.count, written, Function.update_of_ne hqp,
    Function.update_of_ne hqt]

theorem allocated_refcount (q : Nat) : (allocated st t p hp).phys.refcount q =
    if q = p then st.phys.refcount p + 1 else st.phys.refcount q := by
  simp only [allocated, Phys.fill, Phys.count, written, Function.update_apply]

end Allocated

/-- A store in user mode changes a byte of a page that the process reaches. -/
def stored (st : Kernel) (va : Word) (b : UInt8) : Kernel :=
  { st with phys := st.phys.setByte va.toNat b }

theorem stored_other (st : Kernel) {va : Word} {b : UInt8} {q : Nat} (h : q ≠ va.toNat / pageSize) :
    (stored st va b).phys.word q = st.phys.word q := by
  simp only [stored, Phys.setByte, Function.update_of_ne h]

/-- All that a step does. -/
theorem Running.step_cases {k : KernelImage} {n : Nat} {st st' : Kernel} {e : Event}
    (h : Running n st) (hstep : Step k n st e st') :
    (∃ pid addr, e = .pageAlloc pid addr ∧ (1 ≤ pid ∧ pid ≤ n) ∧ Rejected addr ∧ st' = st) ∨
    (∃ pid addr, e = .pageAlloc pid addr ∧ (1 ≤ pid ∧ pid ≤ n) ∧ ¬ Rejected addr ∧
      ∃ hp : addr.toNat / pageSize < 512, 256 ≤ addr.toNat / pageSize ∧
        st.phys.refcount (addr.toNat / pageSize) = 0 ∧
        st' = Weensyos.allocated st (tableOf pid) (addr.toNat / pageSize) hp) ∨
    (∃ pid va b, e = .store pid va b ∧ (1 ≤ pid ∧ pid ≤ n) ∧
      UserPage st pid (va.toNat / pageSize) ∧ st' = stored st va b) := by
  cases hstep with
  | @pageAlloc pid addr r _ h1 hn hcall =>
    by_cases hin : Rejected addr
    · rw [syscallPageAlloc_rejected hin] at hcall
      obtain ⟨-, rfl⟩ := Prod.mk.inj (Except.ok.inj hcall)
      exact .inl ⟨pid, addr, rfl, ⟨h1, hn⟩, hin, rfl⟩
    by_cases hend : addr.toNat = memsizePhysical
    · rw [syscallPageAlloc_end hin hend] at hcall
      cases hcall
    by_cases hfree : st.phys.refcount (addr.toNat / pageSize) = 0
    · rw [h.syscallPageAlloc_free h1 hn hin hend hfree] at hcall
      obtain ⟨-, rfl⟩ := Prod.mk.inj (Except.ok.inj hcall)
      obtain ⟨hp, h256, -⟩ := page_of_not_rejected hin hend
      exact .inr (.inl ⟨pid, addr, rfl, ⟨h1, hn⟩, hin, hp, h256, hfree, rfl⟩)
    · rw [syscallPageAlloc_used hin hend hfree] at hcall
      cases hcall
  | @store pid va pa perm b h1 hn hread hperm =>
    obtain ⟨htable, hproc⟩ := h.table pid h1 hn
    have huser : perm &&& pteU ≠ 0 := by
      intro hzero
      rw [show pteU = ptePWU &&& pteU from by decide, ← BitVec.and_assoc, hperm] at hzero
      exact absurd hzero (by decide)
    have hread' := hread
    rw [htable] at hread'
    obtain ⟨rfl, -⟩ := hproc.user_reading hread' huser
    exact .inr (.inr ⟨pid, pa, b, rfl, ⟨h1, hn⟩, ⟨pa, pa, perm, hread, huser, rfl⟩, rfl⟩)

/-! ## The pages behind the region of process 1 -/

/-- The tables of the kernel and of `n` processes in every state of a run: all of them map the
kernel's pages to themselves, and a page from 320 on is in one of them at most, and counted then. -/
structure Tables (k : KernelImage) (n : Nat) (st : Kernel) : Prop extends Running n st where
  kernel : LowTables st.phys k.ktable (k.ktable + 1) (k.ktable + 2) (k.ktable + 3)
  identity : Identity st.phys (k.ktable + 3)
  mapped : ∀ pid, 1 ≤ pid → pid ≤ n → ∀ i : Fin 512, 1 ≤ i.val → i.val < 256 →
    st.phys.word (tableOf pid + 3) i = addrOf i.val ||| (1 : BitVec 32).signExtend 64
  counted : ∀ pid, 1 ≤ pid → pid ≤ n → ∀ i : Fin 512, 320 ≤ i.val →
    st.phys.word (tableOf pid + 3) i ≠ 0 → st.phys.refcount i.val ≠ 0
  owner : ∀ pid pid', 1 ≤ pid → pid ≤ n → 1 ≤ pid' → pid' ≤ n → ∀ i : Fin 512, 320 ≤ i.val →
    st.phys.word (tableOf pid + 3) i ≠ 0 → st.phys.word (tableOf pid' + 3) i ≠ 0 → pid = pid'

section Tables
variable {k : KernelImage} {n : Nat} {st st' : Kernel}

theorem tables_of_start {images : Nat → List Segment} {word : Nat → Fin 512 → Word}
    (hfit : ImagesFit n images) (hstart : kernelStart k n images word = .ok st) :
    Tables k n st := by
  have hset := kernelStart_setUp hfit hstart
  have hfresh := kernelStart_fresh hfit hstart
  refine ⟨hset.toRunning, hset.kernel, hset.identity, ?_, ?_, ?_⟩
  · intro pid h1 hn
    exact (hfresh pid h1 hn).kernel
  · intro pid h1 hn i hi hentry
    exact absurd ((hfresh pid h1 hn).heap i hi) hentry
  · intro pid pid' h1 hn _ _ i hi hentry _
    exact absurd ((hfresh pid h1 hn).heap i hi) hentry

theorem tableOf_ne {pid pid' : Nat} (h1 : 1 ≤ pid) (h1' : 1 ≤ pid') (hne : pid ≠ pid') :
    tableOf pid + 3 ≠ tableOf pid' + 3 := by
  simp only [tableOf]
  omega

/-- The lowest tables are in low memory, below the kernel. -/
theorem Running.leaf_lt (h : Running n st) {pid : Nat} (hn : pid ≤ n) : tableOf pid + 3 < 64 := by
  have hcount := h.count
  simp only [tableOf]
  omega

/-- A page from 256 on is no table. -/
theorem Tables.stored (h : Tables k n st) {va : Word} (b : UInt8)
    (h256 : 256 ≤ va.toNat / pageSize) :
    Tables k n (stored st va b) := by
  have hk := k.ktable_bound
  have hword : ∀ q, q < 256 → (Weensyos.stored st va b).phys.word q = st.phys.word q :=
    fun q hq => stored_other st (by omega)
  have hleaf : ∀ pid, pid ≤ n →
      (Weensyos.stored st va b).phys.word (tableOf pid + 3) = st.phys.word (tableOf pid + 3) :=
    fun pid hn => hword _ (lt_trans (h.leaf_lt hn) (by decide))
  refine ⟨h.congr (by rfl) hword, ?_, ?_, ?_, ?_, ?_⟩
  · apply h.kernel.congr
    intro q hq
    exact hword q (by omega)
  · exact h.identity.congr (hword _ (by omega))
  · intro pid h1 hn
    rw [hleaf pid hn]
    exact h.mapped pid h1 hn
  · intro pid h1 hn
    rw [hleaf pid hn]
    exact h.counted pid h1 hn
  · intro pid pid' h1 hn h1' hn'
    rw [hleaf pid hn, hleaf pid' hn']
    exact h.owner pid pid' h1 hn h1' hn'

/-- The page that `sys_page_alloc` maps was in no table. -/
theorem Tables.allocated (h : Tables k n st) {pid p : Nat} (h1 : 1 ≤ pid) (hn : pid ≤ n)
    (hp : p < 512) (h256 : 256 ≤ p) (hfree : st.phys.refcount p = 0) :
    Tables k n (allocated st (tableOf pid) p hp) := by
  have hk := k.ktable_bound
  have hlt : ∀ q, q ≤ n → tableOf q + 3 < 64 := fun q hq => h.leaf_lt hq
  have hpid := hlt pid hn
  have hother : ∀ q, 64 ≤ q → q < 256 →
      (Weensyos.allocated st (tableOf pid) p hp).phys.word q = st.phys.word q :=
    fun q hq hq' => allocated_other st hp (by omega) (by omega)
  have hleaf : ∀ q, 1 ≤ q → q ≤ n → ∀ i : Fin 512,
      (Weensyos.allocated st (tableOf pid) p hp).phys.word (tableOf q + 3) i =
        if q = pid ∧ i = ⟨p, hp⟩ then addrOf p ||| (7 : BitVec 32).signExtend 64
        else st.phys.word (tableOf q + 3) i := by
    intro q hq1 hqn i
    have hqlt := hlt q hqn
    by_cases hq : q = pid
    · subst hq
      rw [allocated_leaf st hp (by omega), Function.update_apply]
      simp only [true_and]
    · rw [allocated_other st hp (by omega) (tableOf_ne hq1 h1 hq), if_neg fun hand => hq hand.1]
  have hnew : ∀ q, 1 ≤ q → q ≤ n → ∀ i : Fin 512, 320 ≤ i.val → i.val = p →
      st.phys.word (tableOf q + 3) i = 0 := by
    intro q hq1 hqn i hi hip
    by_contra hentry
    exact h.counted q hq1 hqn i hi hentry (by rw [hip, hfree])
  refine ⟨h.toRunning.allocated h1 hn hp h256, ?_, ?_, ?_, ?_, ?_⟩
  · apply h.kernel.congr
    intro q hq
    exact hother q (by omega) (by omega)
  · exact h.identity.congr (hother _ (by omega) (by omega))
  · intro q hq1 hqn i hi1 hi
    have hip : ¬ (q = pid ∧ i = ⟨p, hp⟩) := fun hand => by
      have := congrArg Fin.val hand.2
      dsimp only at this
      omega
    rw [hleaf q hq1 hqn, if_neg hip]
    exact h.mapped q hq1 hqn i hi1 hi
  · intro q hq1 hqn i hi hentry
    rw [hleaf q hq1 hqn] at hentry
    rw [allocated_refcount]
    split_ifs with hip
    · exact Nat.succ_ne_zero _
    · rw [if_neg fun hand => hip (congrArg Fin.val hand.2)] at hentry
      exact h.counted q hq1 hqn i hi hentry
  · intro q q' hq1 hqn hq1' hqn' i hi hentry hentry'
    rw [hleaf q hq1 hqn] at hentry
    rw [hleaf q' hq1' hqn'] at hentry'
    by_cases hip : i.val = p
    · have hold : st.phys.word (tableOf q + 3) i = 0 := hnew q hq1 hqn i hi hip
      have hold' : st.phys.word (tableOf q' + 3) i = 0 := hnew q' hq1' hqn' i hi hip
      rw [hold] at hentry
      rw [hold'] at hentry'
      have hand := (ite_ne_right_iff.mp hentry).1
      have hand' := (ite_ne_right_iff.mp hentry').1
      exact hand.1.trans hand'.1.symm
    · have hi' : i ≠ ⟨p, hp⟩ := fun he => hip (congrArg Fin.val he)
      rw [if_neg fun hand => hi' hand.2] at hentry hentry'
      exact h.owner q q' hq1 hqn hq1' hqn' i hi hentry hentry'

theorem Tables.user_ge (h : Tables k n st) {pid p : Nat} (h1 : 1 ≤ pid) (hn : pid ≤ n)
    (hpage : UserPage st pid p) : 256 ≤ p := by
  obtain ⟨-, h256, -⟩ := (h.userPage_iff h1 hn p).mp hpage
  exact h256

theorem Tables.step {e : Event} (h : Tables k n st) (hstep : Step k n st e st') :
    Tables k n st' := by
  rcases h.step_cases hstep with ⟨pid, addr, -, -, -, rfl⟩ |
    ⟨pid, addr, -, ⟨h1, hn⟩, -, hp, h256, hfree, rfl⟩ | ⟨pid, va, b, -, ⟨h1, hn⟩, hpage, rfl⟩
  · exact h
  · exact h.allocated h1 hn hp h256 hfree
  · exact h.stored b (h.user_ge h1 hn hpage)

/-- `check_pagetable` accepts the table of every process. -/
theorem Tables.checkPagetable_ok {b : Board} (h : Tables b.toKernelImage n st) {pid : Nat}
    (h1 : 1 ≤ pid) (hn : pid ≤ n) : checkPagetable b st.phys (st.pagetable pid) = .ok () := by
  have hk := b.ktable_bound
  obtain ⟨htable, hproc⟩ := h.table pid h1 hn
  have hleaf := h.leaf_lt hn
  have hcode := b.code
  have hstack := b.stack
  simp only [kernelStartAddr, kernelStackTop, pageSize] at hcode hstack
  have hkernel : (addrOf b.ktable).toNat = b.ktable * 4096 := toNat_addrOf (by omega)
  have htab : (addrOf (tableOf pid)).toNat = tableOf pid * 4096 := toNat_addrOf (by omega)
  -- what is mapped for the kernel is mapped to itself
  have hlow : ∀ va : Word, 4096 ≤ va.toNat → va.toNat < 0x100000 →
      (iterAt (tableOf pid) va (0, tableOf pid + 3)).pa st.phys = va := by
    intro va hva hlt
    have hp : va.toNat / pageSize < 512 := by
      simp only [pageSize]
      omega
    refine pa_self (by omega) permArg_one (by decide) ?_
    rw [pageindex_zero hp]
    exact h.mapped pid h1 hn ⟨_, hp⟩ (by simp only [pageSize]; omega)
      (by simp only [pageSize]; omega)
  have hself : (iterAt b.ktable (addrOf (tableOf pid)) (0, b.ktable + 3)).pa st.phys =
      addrOf (tableOf pid) :=
    h.identity.pa_eq b.ktable (by omega) (by simp only [tableOf]; omega)
  unfold checkPagetable
  rw [htable, hproc.vmiter_eq (show b.entry.toNat < 0x200000 by omega)]
  simp only [bind, Except.bind, hlow b.entry (by omega) (by omega), ne_eq, not_true_eq_false,
    if_false]
  rw [h.kernel.vmiter_eq (show (addrOf (tableOf pid)).toNat < 0x200000 by omega)]
  simp only [pure, Except.pure, hself, not_true_eq_false, if_false]
  rw [hproc.vmiter_eq (show (addrOf b.ktable).toNat < 0x200000 by omega)]
  simp only [hlow (addrOf b.ktable) (by omega) (by omega), not_true_eq_false, if_false]

end Tables

end SystemsProjects.Weensyos
