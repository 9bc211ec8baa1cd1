import SystemsProjects.Weensyos.LowMap

/-!
# What `kernel_start` sets up

The loops of `kernel_start` and `process_setup` run to their ends. The kernel's table maps memory to
itself, and the page tables of the processes are in the first free pages, four for each. Every
process has the pages `[PROC_START_ADDR, PROC_START_ADDR + PROC_SIZE)` with all permissions,
whatever its number.
-/

namespace SystemsProjects.Weensyos
open SystemsProjects.Lib

/-- Nothing but words of table `c` has changed. -/
structure OnlyTable (s s' : Phys) (c : Nat) : Prop where
  word : ∀ p, p ≠ c → s'.word p = s.word p
  refcount : s'.refcount = s.refcount

namespace OnlyTable
variable {s s' s'' : Phys} {c : Nat}

theorem refl (s : Phys) (c : Nat) : OnlyTable s s c := ⟨fun _ _ => rfl, rfl⟩

theorem trans (h : OnlyTable s s' c) (h' : OnlyTable s' s'' c) : OnlyTable s s'' c where
  word := fun p hp => (h'.word p hp).trans (h.word p hp)
  refcount := h'.refcount.trans h.refcount

theorem of_written (s : Phys) (c : Nat) (i : Fin 512) (e : Word) :
    OnlyTable s (written s c i e) c where
  word := fun p hp => by simp only [written, Function.update_of_ne hp]
  refcount := rfl

/-- Tables elsewhere stay. -/
theorem lowTables (h : OnlyTable s s' c) {t a b d : Nat} (low : LowTables s t a b d)
    (hne : c ≠ t ∧ c ≠ a ∧ c ≠ b ∧ c ≠ d) : LowTables s' t a b d := by
  apply low.congr
  intro p hp
  apply h.word
  rcases hp with rfl | rfl | rfl | rfl
  · exact hne.1.symm
  · exact hne.2.1.symm
  · exact hne.2.2.1.symm
  · exact hne.2.2.2.symm

end OnlyTable

theorem permArg_seven : PermArg 7 := .inr ⟨by decide, by decide⟩

theorem permArg_one : PermArg 1 := .inr ⟨by decide, by decide⟩

theorem permArg_kernelPerm (addr : Nat) : PermArg (kernelPerm addr) := by
  unfold kernelPerm
  split_ifs
  · exact .inl rfl
  · exact .inr ⟨by decide, by decide⟩
  · exact permArg_seven

/-- The entries written below are below 4 GiB. -/
theorem small_leaf {p : Nat} (hp : p < 512) {perm : BitVec 32} (hperm : PermArg perm) :
    (addrOf p ||| perm.signExtend 64) &&& ptePamask < 0x100000000 := by
  have haddr := toNat_addrOf (p := p) (by omega)
  rw [(leafEntry_bits (addrOf_and_ptePamask (by omega)) hperm).1, BitVec.lt_def, haddr]
  show p * 4096 < 0x100000000
  omega

/-! ## The kernel's table -/

section KernelTable
variable {t : Nat}

/-- The kernel's table also has a table for `[2 MiB, 4 MiB)`, which is empty. -/
structure KernelTables (s : Phys) (t : Nat) : Prop
    extends LowTables s t (t + 1) (t + 2) (t + 3) where
  second : s.word (t + 2) 1 = tableEntry (t + 4)
  fourth : s.word (t + 4) 0 = 0

theorem KernelTables.write {s : Phys} (h : KernelTables s t) {i : Fin 512} {e : Word}
    (he : e &&& ptePamask < 0x100000000) : KernelTables (written s (t + 3) i e) t where
  toLowTables := h.toLowTables.write he
  second := by
    rw [(OnlyTable.of_written s (t + 3) i e).word (t + 2) (by omega)]
    exact h.second
  fourth := by
    rw [(OnlyTable.of_written s (t + 3) i e).word (t + 4) (by omega)]
    exact h.fourth

/-- The last step of the loop goes to the end of memory. -/
theorem KernelTables.find_end {s : Phys} (h : KernelTables s t) (ht : t + 4 < 2 ^ 20) :
    (iterAt t (addrOf 511) (0, t + 3)).find s (addrOf 512) =
      .ok (iterAt t (addrOf 512) (0, t + 4)) := by
  obtain ⟨ha, hb, -⟩ := h.bound
  have hdesc : Vmiter.descend s 3 (iterAt t (addrOf 512) (3, t)) =
      iterAt t (addrOf 512) (0, t + 4) := by
    have htop : s.word t (pageindex (addrOf 512) 3) = tableEntry (t + 1) := h.top
    have hmid : s.word (t + 1) (pageindex (addrOf 512) 2) = tableEntry (t + 2) := h.mid
    have hlow : s.word (t + 2) (pageindex (addrOf 512) 1) = tableEntry (t + 4) := h.second
    rw [descend_tableEntry ha htop, descend_tableEntry hb hmid, descend_tableEntry ht hlow,
      Vmiter.descend]
  have hload : s.load (iterAt t (addrOf 512) (0, t + 4)).pep = 0 := by
    show s.word (t + 4) (pageindex (addrOf 512) 0) = 0
    exact h.fourth
  have hne : addrOf 512 ≠ (iterAt t (addrOf 511) (0, t + 3)).va := by
    show addrOf 512 ≠ addrOf 511
    decide
  have hout : ((iterAt t (addrOf 511) (0, t + 3)).va ^^^ addrOf 512) &&&
      ~~~pageoffmask ((iterAt t (addrOf 511) (0, t + 3)).level + 1) ≠ 0 := by
    show (addrOf 511 ^^^ addrOf 512) &&& ~~~pageoffmask 1 ≠ 0
    decide
  unfold Vmiter.find
  rw [if_pos hne]
  unfold Vmiter.realFind
  rw [if_pos (.inr hout), if_pos (by decide)]
  show Vmiter.down s (iterAt t (addrOf 512) (3, t)) = _
  unfold Vmiter.down
  rw [show (iterAt t (addrOf 512) (3, t)).level = 3 from rfl, hdesc]
  dsimp only
  rw [hload, if_neg (by decide)]

theorem mapKernel_eq (L : Layout) (ht : t + 4 < 2 ^ 20) (r : Nat) {p : Nat} (hrp : r + p = 512)
    {s : Phys} (h : KernelTables s t) (it : Vmiter) (hva : it.va = addrOf p)
    (hit : p < 512 → it = iterAt t (addrOf p) (0, t + 3)) :
    ∃ s', mapKernel L (r + 1) it s = .ok s' ∧ KernelTables s' t ∧ OnlyTable s s' (t + 3) := by
  induction r generalizing p s it with
  | zero =>
    obtain rfl : p = 512 := by omega
    refine ⟨s, ?_, h, .refl s _⟩
    rw [mapKernel, hva, if_neg (by decide)]
  | succ r ih =>
    have hp : p < 512 := by omega
    obtain rfl := hit hp
    have haddr := toNat_addrOf (p := p) (by omega)
    obtain ⟨s₁, hbody, h₁, honly⟩ : ∃ s₁, mapKernelPage L (iterAt t (addrOf p) (0, t + 3)) s =
        .ok (iterAt t (addrOf p) (0, t + 3), s₁) ∧ KernelTables s₁ t ∧ OnlyTable s s₁ (t + 3) := by
      unfold mapKernelPage
      split_ifs with hne
      · refine ⟨_, ?_, h.write (small_leaf hp permArg_seven), .of_written s _ ⟨p, hp⟩ _⟩
        rw [Vmiter.map, show (iterAt t (addrOf p) (0, t + 3)).va = addrOf p from rfl,
          LowTables.tryMap_page L hp permArg_seven]
        rfl
      · exact ⟨s, rfl, h, .refl s _⟩
    have hnext : (iterAt t (addrOf p) (0, t + 3)).va + 4096 = addrOf (p + 1) :=
      addrOf_add (by omega)
    obtain ⟨it', hfind, hva', hit'⟩ : ∃ it', (iterAt t (addrOf p) (0, t + 3)).find s₁
        (addrOf (p + 1)) = .ok it' ∧ it'.va = addrOf (p + 1) ∧
        (p + 1 < 512 → it' = iterAt t (addrOf (p + 1)) (0, t + 3)) := by
      by_cases hlast : p + 1 < 512
      · have haddr' := toNat_addrOf (p := p + 1) (by omega)
        exact ⟨_, h₁.find_eq (by omega) (by omega), rfl, fun _ => rfl⟩
      · obtain rfl : p = 511 := by omega
        exact ⟨_, h₁.find_end ht, rfl, fun hlt => absurd hlt (lt_irrefl 512)⟩
    obtain ⟨s', hrun, h', honly'⟩ := ih (by omega) h₁ it' hva' hit'
    refine ⟨s', ?_, h', honly.trans honly'⟩
    rw [mapKernel, if_pos (by
      show (addrOf p).toNat < memsizePhysical
      rw [haddr, memsizePhysical]
      omega), hbody]
    simp only [bind, Except.bind, hnext, hfind]
    exact hrun

/-- The loop of `kernel_start` maps each page to itself. -/
theorem remapKernel_eq (k : KernelImage) (ps : List Nat) (hps : ∀ p ∈ ps, p < 512) {s : Phys}
    (h : KernelTables s k.ktable) :
    ∃ s', remapKernel k ps s = .ok s' ∧ KernelTables s' k.ktable ∧
      OnlyTable s s' (k.ktable + 3) ∧
      ∀ p (hp : p < 512), s'.word (k.ktable + 3) ⟨p, hp⟩ =
        if p ∈ ps then addrOf p ||| (kernelPerm (p * pageSize)).signExtend 64
        else s.word (k.ktable + 3) ⟨p, hp⟩ := by
  induction ps generalizing s with
  | nil => exact ⟨s, rfl, h, .refl s _, fun p hp => by simp⟩
  | cons p ps ih =>
    have hp := hps p List.mem_cons_self
    have hperm := permArg_kernelPerm (p * pageSize)
    have hmap := h.mapAt_eq k.layout hp hperm
    have honly := OnlyTable.of_written s (k.ktable + 3) ⟨p, hp⟩
      (addrOf p ||| (kernelPerm (p * pageSize)).signExtend 64)
    obtain ⟨s', hrun, h', honly', hword⟩ :=
      ih (fun q hq => hps q (List.mem_cons_of_mem p hq)) (h.write (small_leaf hp hperm))
    refine ⟨s', ?_, h', honly.trans honly', ?_⟩
    · rw [remapKernel, ofNat_mul_pageSize, hmap]
      exact hrun
    · intro q hq
      rw [hword q hq]
      by_cases hqps : q ∈ ps
      · rw [if_pos hqps, if_pos (List.mem_cons_of_mem p hqps)]
      · rw [if_neg hqps]
        by_cases hqp : q = p
        · subst hqp
          rw [if_pos List.mem_cons_self]
          simp only [written, Function.update_self]
        · rw [if_neg (by simp [hqp, hqps])]
          have hne : (⟨q, hq⟩ : Fin 512) ≠ ⟨p, hp⟩ := fun he => hqp (Fin.mk.inj he)
          simp only [written, Function.update_self, Function.update_of_ne hne]

theorem initTables_kernelTables (ht : t + 4 < 2 ^ 20) (s : Phys) :
    KernelTables (initTables t s) t := by
  have hwords : (initTables t s).word t 0 = tableEntry (t + 1) ∧
      (initTables t s).word (t + 1) 0 = tableEntry (t + 2) ∧
      (initTables t s).word (t + 2) 0 = tableEntry (t + 3) ∧
      (initTables t s).word (t + 2) 1 = tableEntry (t + 4) ∧
      (∀ i, (initTables t s).word (t + 3) i = 0) ∧ (initTables t s).word (t + 4) 0 = 0 := by
    simp [initTables, Phys.setEntry, Phys.fill]
  obtain ⟨htop, hmid, hlow, hsecond, hleaf, hfourth⟩ := hwords
  exact
    { top := htop, mid := hmid, low := hlow, second := hsecond, fourth := hfourth
      bound := ⟨by omega, by omega, by omega⟩
      apart := ⟨by omega, by omega, by omega⟩
      small := fun i => by rw [hleaf i]; decide }

/-- The tables of the kernel lie in its own pages. -/
theorem KernelImage.ktable_bound (k : KernelImage) : 64 ≤ k.ktable ∧ k.ktable + 5 ≤ 127 := by
  have hstart := k.start
  have htables := k.tables
  have hstack := k.stack
  simp only [kernelStartAddr, kernelStackTop, pageSize] at hstart htables hstack
  omega

theorem initKernelMemory_eq (k : KernelImage) (s : Phys) :
    ∃ s', initKernelMemory k s = .ok s' ∧ KernelTables s' k.ktable ∧ s'.refcount = s.refcount := by
  have hk := k.ktable_bound
  have h := initTables_kernelTables (t := k.ktable) (by omega) s
  have hit := h.vmiter_eq (show (0 : Word).toNat < 0x200000 by decide)
  obtain ⟨s', hrun, h', honly⟩ := mapKernel_eq k.layout (by omega) 512 (p := 0) rfl h
    (iterAt k.ktable 0 (0, k.ktable + 3)) rfl fun _ => rfl
  refine ⟨s', ?_, h', honly.refcount⟩
  have hrounds : memsizePhysical / pageSize = 512 := by decide
  unfold initKernelMemory
  dsimp only
  rw [hit, hrounds]
  simp only [bind, Except.bind]
  exact hrun

end KernelTable

/-! ## The tables of a process -/

section NewTables
variable {k : KernelImage} {s : Phys} {n : Nat}

/-- The pages below the kernel can be given out, but for the null page. -/
theorem allocatable_low (h1 : 1 ≤ n) (h64 : n < 64) : k.layout.allocatable n = true := by
  have hnull : ¬ n * pageSize < pageSize := by simp only [pageSize]; omega
  have hio : ¬ n * pageSize ≥ 0xA0000 := by simp only [pageSize]; omega
  have hlow : n * pageSize < kernelStartAddr := by simp only [pageSize, kernelStartAddr]; omega
  have hstack : n * pageSize < kernelStackTop - pageSize := by
    simp only [pageSize, kernelStackTop]
    omega
  have hmem : n * pageSize < memsizePhysical := by simp only [pageSize, memsizePhysical]; omega
  show allocatablePhysicalAddress k.kernelEnd (n * pageSize) = true
  simp only [allocatablePhysicalAddress, reservedPhysicalAddress, hnull, hio, hlow, hstack, hmem,
    decide_true, decide_false, Bool.false_and, Bool.or_false, Bool.not_false, Bool.true_or,
    Bool.and_true]

/-- With all pages below `n` taken, `kalloc` gives out page `n`. -/
theorem kalloc_next (h1 : 1 ≤ n) (h64 : n < 64) (hn : s.refcount n = 0)
    (htaken : ∀ p, 1 ≤ p → p < n → s.refcount p ≠ 0) :
    s.free k.layout n = true ∧
      kalloc k.layout pageSize s = (some n, (s.count n).fill n 0xCCCCCCCCCCCCCCCC) := by
  have hfree : s.free k.layout n = true := by
    simp only [Phys.free, allocatable_low h1 h64, hn, Bool.true_and, beq_self_eq_true]
  have hfind : (List.range k.layout.npages).find? (s.free k.layout) = some n := by
    rw [List.find?_range_eq_some]
    refine ⟨hfree, List.mem_range.mpr ?_, fun p hp => ?_⟩
    · show n < 512
      omega
    · rcases Nat.eq_zero_or_pos p with rfl | hpos
      · simp only [Phys.free, k.layout.nonnull, Bool.false_and, Bool.not_false]
      · have hcount := htaken p hpos hp
        simp [Phys.free, hcount]
  refine ⟨hfree, ?_⟩
  unfold kalloc
  rw [if_neg (lt_irrefl _), hfind]

theorem linked_refcount (s : Phys) (n q : Nat) (i : Fin 512) (p : Nat) :
    (linked s n q i).refcount p = if p = n then s.refcount n + 1 else s.refcount p := by
  simp only [linked, Function.update_apply]

theorem linked_word_of_ne (s : Phys) {n q p : Nat} (i : Fin 512) (hpn : p ≠ n) (hpq : p ≠ q) :
    (linked s n q i).word p = s.word p := by
  simp only [linked, Function.update_of_ne hpq, Function.update_of_ne hpn]

/-- One round of the loop of `try_map` in a table that is still empty. -/
theorem linkTables_next {root q m : Nat} {va : Word} {perm : BitVec 32}
    (tree : PageTree k.layout s root) (hend : endOf s root va = (m + 1, q))
    (hzero : ∀ i, s.word q i = 0) (h1 : 1 ≤ n) (h64 : n < 64) (hn : s.refcount n = 0)
    (htaken : ∀ p, 1 ≤ p → p < n → s.refcount p ≠ 0) (hperm : perm ≠ 0) :
    (iterAt root va (m + 1, q)).linkTables k.layout perm s = (iterAt root va (m, n)).linkTables
        k.layout perm (linked s n q (pageindex va (m + 1))) ∧
      PageTree k.layout (linked s n q (pageindex va (m + 1))) root ∧
      endOf (linked s n q (pageindex va (m + 1))) root va = (m, n) ∧
      ∀ i, (linked s n q (pageindex va (m + 1))).word n i = 0 := by
  obtain ⟨hfree, halloc⟩ := kalloc_next (k := k) h1 h64 hn htaken
  have habsent : s.word q (pageindex va (m + 1)) &&& pteP = 0 := by
    rw [hzero]
    decide
  exact ⟨tree.linkTables_step hend (by omega) hfree habsent hperm halloc,
    tree.linked_tree hend (by omega) hfree, tree.linked_end hend (by omega) hfree,
    fun i => tree.linked_word hend hfree _ i⟩

/-- Memory after `kalloc_pagetable` has given out page `n`. -/
def emptied (s : Phys) (n : Nat) : Phys := ((s.count n).fill n 0xCCCCCCCCCCCCCCCC).fill n 0

theorem emptied_word (s : Phys) (n p : Nat) (i : Fin 512) :
    (emptied s n).word p i = if p = n then 0 else s.word p i := by
  simp only [emptied, Phys.fill, Phys.count, Function.update_apply]
  split_ifs <;> rfl

theorem emptied_refcount (s : Phys) (n p : Nat) :
    (emptied s n).refcount p = if p = n then s.refcount n + 1 else s.refcount p := by
  simp only [emptied, Phys.fill, Phys.count, Function.update_apply]

/-- Memory with the four tables that map low memory in pages `n` to `n + 3`. -/
def withTables (s : Phys) (n : Nat) : Phys :=
  linked (linked (linked (emptied s n) (n + 1) n 0) (n + 2) (n + 1) 0) (n + 3) (n + 2) 0

theorem withTables_refcount (s : Phys) (n p : Nat) : (withTables s n).refcount p =
    if n ≤ p ∧ p < n + 4 then s.refcount p + 1 else s.refcount p := by
  simp only [withTables, linked_refcount, emptied_refcount]
  split_ifs <;> first | omega | (subst_vars; rfl)

theorem withTables_word (s : Phys) {n p : Nat} (hp : p < n ∨ n + 4 ≤ p) :
    (withTables s n).word p = s.word p := by
  funext i
  unfold withTables
  rw [linked_word_of_ne _ _ (by omega) (by omega), linked_word_of_ne _ _ (by omega) (by omega),
    linked_word_of_ne _ _ (by omega) (by omega), emptied_word, if_neg (by omega)]

theorem withTables_lowTables (s : Phys) {n : Nat} (hn : n < 64) :
    LowTables (withTables s n) n (n + 1) (n + 2) (n + 3) := by
  have hwords : (withTables s n).word n 0 = tableEntry (n + 1) ∧
      (withTables s n).word (n + 1) 0 = tableEntry (n + 2) ∧
      (withTables s n).word (n + 2) 0 = tableEntry (n + 3) ∧
      ∀ i, (withTables s n).word (n + 3) i = 0 := by
    simp [withTables, linked]
  obtain ⟨htop, hmid, hlow, hleaf⟩ := hwords
  exact
    { top := htop, mid := hmid, low := hlow
      bound := ⟨by omega, by omega, by omega⟩
      apart := ⟨by omega, by omega, by omega⟩
      small := fun i => by rw [hleaf i]; decide }

section Fresh
variable (h1 : 1 ≤ n) (h64 : n + 4 ≤ 64) (hfree : ∀ p, n ≤ p → p < n + 4 → s.refcount p = 0)
  (htaken : ∀ p, 1 ≤ p → p < n → s.refcount p ≠ 0)
include h1 h64 hfree htaken

theorem kallocPagetable_eq : kallocPagetable k.layout s = (some n, emptied s n) := by
  unfold kallocPagetable
  rw [(kalloc_next h1 (by omega) (hfree n le_rfl (by omega)) htaken).2]
  rfl

omit h1 h64 hfree htaken in
theorem emptied_tree : PageTree k.layout (emptied s n) n := by
  have hzero : ∀ i, (emptied s n).word n i = 0 := fun i => by rw [emptied_word, if_pos rfl]
  have hleaf : ∀ i, child ((emptied s n).word n i) = none := fun i => by
    rw [hzero i]
    decide
  refine ⟨Radix.distinct_leaf hleaf, ?_, Radix.allEntries_leaf hleaf fun l i => ?_⟩
  · intro p hp
    rw [Radix.nodes_leaf hleaf] at hp
    rw [Set.mem_singleton_iff.mp hp, Phys.free, emptied_refcount, if_pos rfl]
    simp
  · rw [hzero i]
    exact entryOk_zero l

/-- The first `try_map` links three tables. -/
theorem linkTables_fresh {perm : BitVec 32} (hperm : perm ≠ 0) {va : Word}
    (hva : va.toNat < 0x200000) :
    (iterAt n va (3, n)).linkTables k.layout perm (emptied s n) =
      .ok (true, iterAt n va (0, n + 3), withTables s n) := by
  have hzero : ∀ i, (emptied s n).word n i = 0 := fun i => by rw [emptied_word, if_pos rfl]
  have hend : endOf (emptied s n) n va = (2 + 1, n) :=
    Radix.walk_none (by rw [hzero]; decide)
  obtain ⟨hstep, tree₁, hend₁, hzero₁⟩ := linkTables_next (n := n + 1) emptied_tree hend hzero
    (by omega) (by omega)
    (by rw [emptied_refcount, if_neg (by omega)]; exact hfree _ (by omega) (by omega))
    (fun p hp1 hp => by
      rw [emptied_refcount]
      split_ifs with hpn
      · exact Nat.succ_ne_zero _
      · exact htaken p hp1 (by omega)) hperm
  obtain ⟨hstep₁, tree₂, hend₂, hzero₂⟩ := linkTables_next (n := n + 2) tree₁ hend₁ hzero₁
    (by omega) (by omega)
    (by
      rw [linked_refcount, if_neg (by omega), emptied_refcount, if_neg (by omega)]
      exact hfree _ (by omega) (by omega))
    (fun p hp1 hp => by
      rw [linked_refcount, emptied_refcount, emptied_refcount]
      split_ifs with h₁ h₂ h₃
      · exact Nat.succ_ne_zero _
      · exact Nat.succ_ne_zero _
      · exact Nat.succ_ne_zero _
      · exact htaken p hp1 (by omega)) hperm
  obtain ⟨hstep₂, -, -, -⟩ := linkTables_next (n := n + 3) tree₂ hend₂ hzero₂
    (by omega) (by omega)
    (by
      rw [linked_refcount, if_neg (by omega), linked_refcount, if_neg (by omega), emptied_refcount,
        if_neg (by omega)]
      exact hfree _ (by omega) (by omega))
    (fun p hp1 hp => by
      simp only [linked_refcount, emptied_refcount]
      split_ifs
      all_goals first | exact Nat.succ_ne_zero _ | exact htaken p hp1 (by omega)) hperm
  have hdone : ∀ s', (iterAt n va (0, n + 3)).linkTables k.layout perm s' =
      .ok (true, iterAt n va (0, n + 3), s') := by
    intro s'
    unfold Vmiter.linkTables
    rw [dif_neg fun h0 => absurd h0.1 (lt_irrefl 0)]
  rw [hstep, hstep₁, hstep₂, hdone, pageindex_of_lt hva (by omega) (by omega),
    pageindex_of_lt hva (by omega) (by omega), pageindex_of_lt hva (by omega) (by omega)]
  rfl

end Fresh

end NewTables

/-! ## The mappings of a process -/

/-- Entries `p` to `q - 1` of table `c` map pages to themselves, and nothing else has changed. -/
structure MapsPages (s s' : Phys) (c p q : Nat) (perm : BitVec 32) : Prop
    extends OnlyTable s s' c where
  entry : ∀ i : Fin 512, s'.word c i =
    if p ≤ i.val ∧ i.val < q then addrOf i.val ||| perm.signExtend 64 else s.word c i

theorem MapsPages.nil (s : Phys) (c p : Nat) (perm : BitVec 32) : MapsPages s s c p p perm where
  toOnlyTable := .refl s c
  entry := fun i => by rw [if_neg (by omega)]

theorem MapsPages.cons {s s' : Phys} {c p q : Nat} {perm : BitVec 32} (hp : p < 512) (hpq : p < q)
    (h : MapsPages (written s c ⟨p, hp⟩ (addrOf p ||| perm.signExtend 64)) s' c (p + 1) q perm) :
    MapsPages s s' c p q perm where
  toOnlyTable := (OnlyTable.of_written s c ⟨p, hp⟩ _).trans h.toOnlyTable
  entry := by
    intro i
    rw [h.entry i]
    by_cases hip : i = ⟨p, hp⟩
    · subst hip
      dsimp only
      rw [if_neg (by omega), if_pos (by omega)]
      simp only [written, Function.update_self]
    · have hne : i.val ≠ p := fun he => hip (Fin.ext he)
      have hsame : (p + 1 ≤ i.val ∧ i.val < q) ↔ (p ≤ i.val ∧ i.val < q) := by omega
      simp only [hsame, written, Function.update_self, Function.update_of_ne hip]

/-- Table `c` maps every page but the null page to itself. -/
def Identity (s : Phys) (c : Nat) : Prop :=
  ∀ p (hp : p < 512), 1 ≤ p → ∃ perm, PermArg perm ∧ perm.signExtend 64 &&& pteP ≠ 0 ∧
    s.word c ⟨p, hp⟩ = addrOf p ||| perm.signExtend 64

theorem Identity.congr {s s' : Phys} {c : Nat} (h : Identity s c) (hc : s'.word c = s.word c) :
    Identity s' c := by
  intro p hp h1
  rw [hc]
  exact h p hp h1

theorem Identity.pa_eq {s : Phys} {c : Nat} (h : Identity s c) (t : Nat) {p : Nat} (hp : p < 512)
    (h1 : 1 ≤ p) : (iterAt t (addrOf p) (0, c)).pa s = addrOf p := by
  obtain ⟨perm, hperm, hpresent, hentry⟩ := h p hp h1
  exact (reading_page t hp hperm hentry).2 hpresent

section Process
variable {L : Layout} {s : Phys} {t n : Nat}

/-- The loop over the kernel's pages, from page `p` on, with the tables linked. -/
theorem copyKernelMap_eq (hn : n + 4 ≤ 64) (ht : 64 ≤ t) (r : Nat) {p : Nat} (hrp : r + p = 256)
    (h1 : 1 ≤ p) (kernel : LowTables s t (t + 1) (t + 2) (t + 3)) (identity : Identity s (t + 3))
    (low : LowTables s n (n + 1) (n + 2) (n + 3)) :
    ∃ s', copyKernelMap L (r + 1) (iterAt t (addrOf p) (0, t + 3))
      (iterAt n (addrOf p) (0, n + 3)) s =
        .ok (iterAt n (addrOf 256) (0, n + 3), s') ∧
      LowTables s' n (n + 1) (n + 2) (n + 3) ∧ MapsPages s s' (n + 3) p 256 1 := by
  induction r generalizing p s with
  | zero =>
    obtain rfl : p = 256 := by omega
    refine ⟨s, ?_, low, .nil s _ _ _⟩
    rw [copyKernelMap, if_neg (by
      show ¬ (addrOf 256).toNat < procStartAddr
      decide)]
  | succ r ih =>
    have hp : p < 512 := by omega
    have haddr := toNat_addrOf (p := p) (by omega)
    have honly :=
      OnlyTable.of_written s (n + 3) ⟨p, hp⟩ (addrOf p ||| (1 : BitVec 32).signExtend 64)
    have kernel' := honly.lowTables kernel ⟨by omega, by omega, by omega, by omega⟩
    have identity' := identity.congr (honly.word (t + 3) (by omega))
    have low' := low.write (i := ⟨p, hp⟩) (small_leaf hp permArg_one)
    obtain ⟨s', hrun, hlow, hmaps⟩ := ih (p := p + 1) (by omega) (by omega) kernel' identity' low'
    refine ⟨s', ?_, hlow, .cons hp (by omega) hmaps⟩
    rw [copyKernelMap, if_pos (by
      show (addrOf p).toNat < procStartAddr
      rw [haddr, procStartAddr]
      omega), identity.pa_eq t hp h1, LowTables.tryMap_page L hp permArg_one]
    simp only [bind, Except.bind]
    rw [kernel'.next_eq (p := p) (by omega), low'.next_eq (p := p) (by omega)]
    exact hrun

/-- The loop over `m` pages of the process, from page `p` on. -/
theorem mapRegion_eq (m : Nat) {p : Nat} (hp : p + m < 512)
    (low : LowTables s n (n + 1) (n + 2) (n + 3)) :
    ∃ s', mapRegion L ((List.range' p m).map (· * pageSize)) (iterAt n (addrOf p) (0, n + 3)) s =
        .ok s' ∧
      LowTables s' n (n + 1) (n + 2) (n + 3) ∧ MapsPages s s' (n + 3) p (p + m) 7 := by
  induction m generalizing p s with
  | zero =>
    refine ⟨s, ?_, low, .nil s _ _ _⟩
    rw [List.range'_zero, List.map_nil, mapRegion]
  | succ m ih =>
    have hp' : p < 512 := by omega
    have haddr := toNat_addrOf (p := p) (by omega)
    have haddr' := toNat_addrOf (p := p + 1) (by omega)
    have hnext : (iterAt n (addrOf p) (0, n + 3)).va + 4096 = addrOf (p + 1) :=
      addrOf_add (by omega)
    have low' := low.write (i := ⟨p, hp'⟩) (small_leaf hp' permArg_seven)
    obtain ⟨s', hrun, hlow, hmaps⟩ := ih (p := p + 1) (by omega) low'
    rw [show p + 1 + m = p + (m + 1) from by omega] at hmaps
    refine ⟨s', ?_, hlow, .cons hp' (by omega) hmaps⟩
    rw [List.range'_succ, List.map_cons, mapRegion, ofNat_mul_pageSize,
      LowTables.tryMap_page L hp' permArg_seven]
    simp only [bind, Except.bind, hnext]
    rw [low'.find_eq (by omega) (by omega)]
    exact hrun

end Process

end SystemsProjects.Weensyos
