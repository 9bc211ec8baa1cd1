import SystemsProjects.Weensyos.Scheduling

/-!
# A machine for every process

What a process has to itself: its registers, whether it can run, and the pages from 320 on that it
reaches. The kernel multiplexes the machine: in every run, what a process has to itself goes through
a run of a machine of its own, with the actions of this process only. Timer interrupts and the other
processes do not show in it. The region of process 1 is all that two processes share.
-/

namespace SystemsProjects.Weensyos
open SystemsProjects.Lib

/-- The machine a process has to itself. -/
@[ext] structure Virtual where
  regs : Regs
  state : ProcState
  page : Nat → Option (Fin 512 → Word)

open scoped Classical in
/-- The pages from 320 on that process `pid` reaches, with what is in them. -/
noncomputable def Kernel.heap (st : Kernel) (pid p : Nat) : Option (Fin 512 → Word) :=
  if 320 ≤ p ∧ UserPage st pid p then some (st.phys.word p) else none

/-- The registers of process `pid`, on the processor or in its descriptor. -/
def Machine.regsOf (m : Machine) (pid : Nat) : Regs :=
  if m.current = pid then m.cpu else (m.ptable pid).regs.toRegs

noncomputable def Machine.virtual (m : Machine) (pid : Nat) : Virtual where
  regs := m.regsOf pid
  state := (m.ptable pid).state
  page := m.kernel.heap pid

/-- The byte at address `va` of a page set to `x`. -/
def setPageByte (page : Fin 512 → Word) (va : Word) (x : UInt8) : Fin 512 → Word :=
  Function.update page (Fin.ofNat 512 (va.toNat % pageSize / 8))
    (setByteOf (page (Fin.ofNat 512 (va.toNat % pageSize / 8))) (va.toNat % 8) x)

/-- The steps of the machine of process `pid`. What is stored in the region of process 1 is not part
of it. -/
inductive VirtualStep (b : Board) (pid : Nat) : Virtual → Action → Virtual → Prop
  | compute {v : Virtual} {regs : Regs} (hrun : v.state = .runnable) :
      VirtualStep b pid v (.compute regs) { v with regs := regs }
  | storeShared {v : Virtual} {va : Word} {x : UInt8} (hrun : v.state = .runnable)
      (h256 : 256 ≤ va.toNat / pageSize) (h320 : va.toNat / pageSize < 320) :
      VirtualStep b pid v (.store va x) v
  | store {v : Virtual} {va : Word} {x : UInt8} {page : Fin 512 → Word}
      (hrun : v.state = .runnable) (hpage : v.page (va.toNat / pageSize) = some page) :
      VirtualStep b pid v (.store va x) { v with
        page := Function.update v.page (va.toNat / pageSize) (some (setPageByte page va x)) }
  | timer {v : Virtual} {errcode : Word} (hrun : v.state = .runnable) :
      VirtualStep b pid v (.exception b.timer errcode) v
  | fault {v : Virtual} {errcode : Word} (hrun : v.state = .runnable) (hu : errcode &&& pteU ≠ 0) :
      VirtualStep b pid v (.exception intPF errcode) { v with state := .faulted }
  | getpid {v : Virtual} {stale : Regstate} {scratch : Regs} (hrun : v.state = .runnable)
      (hrax : v.regs.rax = 1) : VirtualStep b pid v (.syscall 1 stale scratch)
        { v with regs := sysReturn b v.regs scratch (BitVec.ofNat 64 pid) }
  | yield {v : Virtual} {stale : Regstate} {scratch : Regs} (hrun : v.state = .runnable)
      (hrax : v.regs.rax = 2) : VirtualStep b pid v (.syscall 2 stale scratch)
        { v with regs := { (sysEntry b v.regs stale).toRegs with rax := 0 } }
  | rejected {v : Virtual} {stale : Regstate} {scratch : Regs} (hrun : v.state = .runnable)
      (hrax : v.regs.rax = 4) (hin : Rejected v.regs.rdi) :
      VirtualStep b pid v (.syscall 4 stale scratch)
        { v with regs := sysReturn b v.regs scratch (-1) }
  | allocated {v : Virtual} {stale : Regstate} {scratch : Regs} (hrun : v.state = .runnable)
      (hrax : v.regs.rax = 4) (hin : ¬ Rejected v.regs.rdi) :
      VirtualStep b pid v (.syscall 4 stale scratch)
        { v with
          regs := sysReturn b v.regs scratch 0
          page := if 320 ≤ v.regs.rdi.toNat / pageSize
            then Function.update v.page (v.regs.rdi.toNat / pageSize) (some fun _ => 0)
            else v.page }

/-! ## Pages -/

section Pages
variable {k : KernelImage} {n : Nat} {st : Kernel} {pid : Nat}

theorem Tables.stored_userPage (h : Tables k n st) (h1 : 1 ≤ pid) (hn : pid ≤ n) {va : Word}
    (x : UInt8) (h256 : 256 ≤ va.toNat / pageSize) (p : Nat) :
    UserPage (Weensyos.stored st va x) pid p ↔ UserPage st pid p := by
  have hleaf := h.leaf_lt hn
  rw [(h.stored x h256).userPage_iff h1 hn, h.userPage_iff h1 hn, stored_other st (by omega)]

theorem Tables.allocated_userPage (h : Tables k n st) (h1 : 1 ≤ pid) (hn : pid ≤ n) {q : Nat}
    (hq1 : 1 ≤ q) (hqn : q ≤ n) {p : Nat} (hp : p < 512) (h256 : 256 ≤ p)
    (hfree : st.phys.refcount p = 0) (r : Nat) :
    UserPage (Weensyos.allocated st (tableOf q) p hp) pid r ↔
      UserPage st pid r ∨ pid = q ∧ r = p := by
  have hleaf := h.leaf_lt hn
  rw [(h.allocated hq1 hqn hp h256 hfree).userPage_iff h1 hn, h.userPage_iff h1 hn]
  by_cases hpid : pid = q
  · subst hpid
    rw [allocated_leaf st hp (by omega)]
    by_cases hr : r = p
    · subst hr
      have hentry : addrOf r ||| (7 : BitVec 32).signExtend 64 ≠ 0 := by
        intro hzero
        have hbit : (addrOf r ||| (7 : BitVec 32).signExtend 64) &&& pteP = 0 &&& pteP := by
          rw [hzero]
        rw [BitVec.and_or_distrib_right, addrOf_and _ (by decide)] at hbit
        exact absurd hbit (by decide)
      simp only [Function.update_self, hentry, ne_eq, not_false_eq_true, and_true, or_true,
        iff_true]
      exact ⟨hp, h256⟩
    · have hother : ∀ hr' : r < 512, (⟨r, hr'⟩ : Fin 512) ≠ ⟨p, hp⟩ :=
        fun hr' he => hr (congrArg Fin.val he)
      simp only [Function.update_of_ne (hother _), hr, and_false, or_false]
  · rw [allocated_other st hp (by omega) (tableOf_ne h1 hq1 hpid)]
    simp only [hpid, false_and, or_false]

/-- Two processes do not reach the same page from 320 on. -/
theorem Tables.userPage_unique (h : Tables k n st) (h1 : 1 ≤ pid) (hn : pid ≤ n) {q p : Nat}
    (hq1 : 1 ≤ q) (hqn : q ≤ n) (h320 : 320 ≤ p) (hpage : UserPage st pid p)
    (hpage' : UserPage st q p) : pid = q := by
  obtain ⟨hp, -, hentry⟩ := (h.userPage_iff h1 hn p).mp hpage
  obtain ⟨_, -, hentry'⟩ := (h.userPage_iff hq1 hqn p).mp hpage'
  exact h.owner pid q h1 hn hq1 hqn ⟨p, hp⟩ h320 hentry hentry'

/-- A store of another process does not show. -/
theorem Tables.heap_stored_other (h : Tables k n st) (h1 : 1 ≤ pid) (hn : pid ≤ n) {q : Nat}
    (hq1 : 1 ≤ q) (hqn : q ≤ n) (hne : pid ≠ q) {va : Word} (x : UInt8)
    (hpage : UserPage st q (va.toNat / pageSize)) :
    (Weensyos.stored st va x).heap pid = st.heap pid := by
  funext p
  unfold Kernel.heap
  rw [h.stored_userPage h1 hn x (h.user_ge hq1 hqn hpage)]
  split_ifs with hmine
  · have hp : p ≠ va.toNat / pageSize := by
      rintro rfl
      exact hne (h.userPage_unique h1 hn hq1 hqn hmine.1 hmine.2 hpage)
    rw [stored_other st hp]
  · rfl

/-- A store of the process itself. -/
theorem Tables.heap_stored_self (h : Tables k n st) (h1 : 1 ≤ pid) (hn : pid ≤ n) {va : Word}
    (x : UInt8) (hpage : UserPage st pid (va.toNat / pageSize)) :
    (Weensyos.stored st va x).heap pid = if 320 ≤ va.toNat / pageSize
      then Function.update (st.heap pid) (va.toNat / pageSize)
        (some (setPageByte (st.phys.word (va.toNat / pageSize)) va x))
      else st.heap pid := by
  funext p
  by_cases hp : p = va.toNat / pageSize
  · subst hp
    unfold Kernel.heap
    rw [h.stored_userPage h1 hn x (h.user_ge h1 hn hpage)]
    by_cases h320 : 320 ≤ va.toNat / pageSize
    · rw [if_pos ⟨h320, hpage⟩, if_pos h320, Function.update_self]
      simp only [Weensyos.stored, Phys.setByte, Function.update_self]
      rfl
    · rw [if_neg fun hmine => h320 hmine.1, if_neg h320, if_neg fun hmine => h320 hmine.1]
  · have hword := stored_other st (b := x) hp
    have hsame : (Weensyos.stored st va x).heap pid p = st.heap pid p := by
      unfold Kernel.heap
      rw [h.stored_userPage h1 hn x (h.user_ge h1 hn hpage), hword]
    rw [hsame]
    split_ifs
    · rw [Function.update_of_ne hp]
    · rfl

/-- A page another process allocates does not show. -/
theorem Tables.heap_allocated_other (h : Tables k n st) (h1 : 1 ≤ pid) (hn : pid ≤ n) {q : Nat}
    (hq1 : 1 ≤ q) (hqn : q ≤ n) (hne : pid ≠ q) {p : Nat} (hp : p < 512) (h256 : 256 ≤ p)
    (hfree : st.phys.refcount p = 0) :
    (Weensyos.allocated st (tableOf q) p hp).heap pid = st.heap pid := by
  have hleaf := h.leaf_lt hqn
  funext r
  have hpages : UserPage (Weensyos.allocated st (tableOf q) p hp) pid r ↔ UserPage st pid r := by
    rw [h.allocated_userPage h1 hn hq1 hqn hp h256 hfree]
    simp only [hne, false_and, or_false]
  unfold Kernel.heap
  rw [hpages]
  split_ifs with hmine
  · obtain ⟨hr, hr256, hentry⟩ := (h.userPage_iff h1 hn r).mp hmine.2
    have hrp : r ≠ p := by
      rintro rfl
      exact h.counted pid h1 hn ⟨r, hr⟩ hmine.1 hentry hfree
    rw [allocated_other st hp hrp (by omega)]
  · rfl

/-- A page the process itself allocates is new and clear. -/
theorem Tables.heap_allocated_self (h : Tables k n st) (h1 : 1 ≤ pid) (hn : pid ≤ n) {p : Nat}
    (hp : p < 512) (h256 : 256 ≤ p) (hfree : st.phys.refcount p = 0) :
    (Weensyos.allocated st (tableOf pid) p hp).heap pid =
      if 320 ≤ p then Function.update (st.heap pid) p (some fun _ => 0) else st.heap pid := by
  have hleaf := h.leaf_lt hn
  funext r
  have hpages := h.allocated_userPage h1 hn h1 hn hp h256 hfree r
  by_cases hr : r = p
  · subst hr
    unfold Kernel.heap
    rw [hpages]
    by_cases h320 : 320 ≤ r
    · rw [if_pos ⟨h320, .inr ⟨rfl, rfl⟩⟩, if_pos h320, Function.update_self, allocated_page]
    · rw [if_neg fun hmine => h320 hmine.1, if_neg h320, if_neg fun hmine => h320 hmine.1]
  · have hsame : (Weensyos.allocated st (tableOf pid) p hp).heap pid r = st.heap pid r := by
      simp only [hr, and_false, or_false] at hpages
      unfold Kernel.heap
      rw [hpages]
      split_ifs with hmine
      · obtain ⟨-, hr256, -⟩ := (h.userPage_iff h1 hn r).mp hmine.2
        rw [allocated_other st hp hr (by omega)]
      · rfl
    rw [hsame]
    split_ifs
    · rw [Function.update_of_ne hr]
    · rfl

end Pages

/-! ## One step -/

section Step
variable {b : Board} {n : Nat} {m m' : Machine} {pid : Nat}

theorem regsOf_current : m.regsOf m.current = m.cpu := if_pos rfl

theorem regsOf_other (h : m.current ≠ pid) : m.regsOf pid = (m.ptable pid).regs.toRegs := if_neg h

/-- Inside the kernel the registers of every process are in its descriptor. -/
theorem regsOf_resumed (m : Machine) (q pid : Nat) :
    (m.resumed q).regsOf pid = (m.ptable pid).regs.toRegs := by
  by_cases hq : q = pid
  · subst hq
    exact if_pos rfl
  · exact if_neg hq

theorem VirtualStep.congr {v w w' : Virtual} {a : Action} (h : VirtualStep b pid v a w)
    (hw : w' = w) : VirtualStep b pid v a w' := hw ▸ h

/-- A step of the current process is a step of its own machine. -/
theorem Effect.virtual_self {a : Action} (heff : Effect b m a m') (h : Sound b n m) :
    VirtualStep b m.current (m.virtual m.current) a (m'.virtual m.current) := by
  obtain ⟨h1, hn⟩ := h.bound
  have hregs : (m.virtual m.current).regs = m.cpu := regsOf_current
  have hrun : (m.virtual m.current).state = .runnable := h.running
  cases heff with
  | compute regs =>
    refine (VirtualStep.compute hrun).congr (Virtual.ext ?_ rfl rfl)
    exact regsOf_current
  | @store va x hpage =>
    have hheap := h.tables.heap_stored_self h1 hn x hpage
    by_cases h320 : 320 ≤ va.toNat / pageSize
    · rw [if_pos h320] at hheap
      have hmine : (m.virtual m.current).page (va.toNat / pageSize) =
          some (m.kernel.phys.word (va.toNat / pageSize)) := if_pos ⟨h320, hpage⟩
      exact (VirtualStep.store hrun hmine).congr (Virtual.ext rfl rfl hheap)
    · rw [if_neg h320] at hheap
      have h256 := h.tables.user_ge h1 hn hpage
      exact (VirtualStep.storeShared hrun h256 (Nat.not_le.mp h320)).congr
        (Virtual.ext rfl rfl hheap)
  | @timer errcode q hq =>
    refine (VirtualStep.timer hrun).congr (Virtual.ext ?_ (m.save_state _ _) rfl)
    have hself := m.save_self { m.cpu with intno := b.timer, errcode := errcode }
    refine (regsOf_resumed _ q _).trans ?_
    show ((m.save { m.cpu with intno := b.timer, errcode := errcode }).ptable
      m.current).regs.toRegs = _
    rw [hself]
    exact hregs.symm
  | @fault errcode q hu hq =>
    refine (VirtualStep.fault hrun hu).congr (Virtual.ext ?_ ?_ rfl)
    · refine (regsOf_resumed _ q _).trans ?_
      rw [faulted_self]
      exact hregs.symm
    · show ((m.faulted errcode).ptable m.current).state = _
      rw [faulted_self]
  | getpid hrax =>
    refine (VirtualStep.getpid hrun (by rw [hregs, hrax])).congr
      (Virtual.ext ?_ (m.save_state _ _) rfl)
    dsimp only
    rw [hregs]
    exact regsOf_current
  | @yield stale scratch q hrax hq =>
    refine (VirtualStep.yield hrun (by rw [hregs, hrax])).congr
      (Virtual.ext ?_ (yielded_state stale _) rfl)
    dsimp only
    rw [hregs]
    refine (regsOf_resumed _ q _).trans ?_
    rw [yielded_self]
  | rejected hrax hin =>
    refine (VirtualStep.rejected hrun (by rw [hregs, hrax]) (by rw [hregs]; exact hin)).congr
      (Virtual.ext ?_ (m.save_state _ _) rfl)
    dsimp only
    rw [hregs]
    exact regsOf_current
  | allocated hrax hin hp h256 hfree =>
    refine (VirtualStep.allocated hrun (by rw [hregs, hrax]) (by rw [hregs]; exact hin)).congr
      (Virtual.ext ?_ (m.save_state _ _) ?_)
    · dsimp only
      rw [hregs]
      exact regsOf_current
    · dsimp only
      rw [hregs]
      exact h.tables.heap_allocated_self h1 hn hp h256 hfree

/-- The other processes do not notice a step. -/
theorem Effect.virtual_other {a : Action} (heff : Effect b m a m') (h : Sound b n m) (h1 : 1 ≤ pid)
    (hn : pid ≤ n) (hne : pid ≠ m.current) : m'.virtual pid = m.virtual pid := by
  obtain ⟨hc1, hcn⟩ := h.bound
  have hregs := regsOf_other hne.symm
  -- a descriptor that stays, whatever process is resumed
  have hresumed : ∀ (mid : Machine) (q : Nat), mid.ptable pid = m.ptable pid →
      mid.kernel = m.kernel → (mid.resumed q).virtual pid = m.virtual pid := by
    intro mid q hproc hkernel
    refine Virtual.ext ?_ (congrArg Proc.state hproc) (congrArg (Kernel.heap · pid) hkernel)
    refine (regsOf_resumed mid q pid).trans ?_
    rw [hproc]
    exact hregs.symm
  have hsaved : ∀ (regs : Regstate) (kernel : Kernel) (cpu : Regs),
      kernel.heap pid = m.kernel.heap pid →
      ({ m.save regs with kernel := kernel, cpu := cpu } : Machine).virtual pid =
        m.virtual pid := by
    intro regs kernel cpu hheap
    refine Virtual.ext ?_ (m.save_state regs pid) hheap
    refine (if_neg hne.symm).trans ?_
    show ((m.save regs).ptable pid).regs.toRegs = _
    rw [m.save_other regs hne]
    exact hregs.symm
  cases heff with
  | compute regs =>
    refine Virtual.ext ?_ rfl rfl
    exact (if_neg hne.symm).trans hregs.symm
  | store hpage =>
    refine Virtual.ext ?_ rfl (h.tables.heap_stored_other h1 hn hc1 hcn hne _ hpage)
    exact (if_neg hne.symm).trans hregs.symm
  | timer hq => exact hresumed _ _ (m.save_other _ hne) rfl
  | fault hu hq => exact hresumed _ _ (faulted_other _ hne) rfl
  | yield hrax hq => exact hresumed _ _ (yielded_other _ hne) rfl
  | getpid hrax => exact hsaved _ _ _ rfl
  | rejected hrax hin => exact hsaved _ _ _ rfl
  | allocated hrax hin hp h256 hfree =>
    exact hsaved _ _ _ (h.tables.heap_allocated_other h1 hn hc1 hcn hne hp h256 hfree)

end Step

/-! ## Runs -/

section Runs
variable {b : Board} {n : Nat} {images : Nat → List Segment} {entry : Nat → Word}
  {word : Nat → Fin 512 → Word} {m₀ m m' : Machine} {es₀ es : List (Nat × Action)} {pid : Nat}

/-- The actions of process `pid`. -/
def actionOf (pid : Nat) (e : Nat × Action) : Option Action := if e.1 = pid then some e.2 else none

/-- Every process sees a run of a machine of its own, made of its own actions. -/
theorem virtual_run (hfit : ImagesFit n images) (hn : 1 ≤ n)
    (hboot : boot b n images entry word = .ok (.user m₀)) (hrun₀ : Steps (MachineStep b) m₀ es₀ m)
    (hrun : Steps (MachineStep b) m es m') (h1 : 1 ≤ pid) (hpid : pid ≤ n) :
    Steps (VirtualStep b pid) (m.virtual pid) (es.filterMap (actionOf pid)) (m'.virtual pid) := by
  have hsound := (boot_sound hfit hn hboot).run hrun₀
  refine Steps.project (P := Sound b n) (fun m => m.virtual pid) (actionOf pid)
    (fun _ _ _ h hstep => h.step hstep) ?_ ?_ hrun hsound
  · intro s e t a h hstep hmine
    obtain ⟨hcur, heff⟩ := h.effect hstep
    unfold actionOf at hmine
    split_ifs at hmine with hpid
    obtain rfl := Option.some.inj hmine
    rw [← hpid, hcur]
    exact heff.virtual_self h
  · intro s e t h hstep hmine
    obtain ⟨hcur, heff⟩ := h.effect hstep
    unfold actionOf at hmine
    split_ifs at hmine with hother
    exact heff.virtual_other h h1 hpid fun he => hother (hcur.trans he.symm)

/-- What two processes share. -/
theorem userPage_both_iff (hfit : ImagesFit n images) (hn : 1 ≤ n)
    (hboot : boot b n images entry word = .ok (.user m₀)) (hrun : Steps (MachineStep b) m₀ es m)
    {q : Nat} (h1 : 1 ≤ pid) (hpid : pid ≤ n) (hq1 : 1 ≤ q) (hqn : q ≤ n) (hne : pid ≠ q)
    (p : Nat) :
    UserPage m.kernel pid p ∧ UserPage m.kernel q p ↔ 256 ≤ p ∧ p < 320 := by
  have h := ((boot_sound hfit hn hboot).run hrun).tables
  constructor
  · rintro ⟨hpage, hpage'⟩
    refine ⟨h.user_ge h1 hpid hpage, ?_⟩
    by_contra hge
    exact hne (h.userPage_unique h1 hpid hq1 hqn (Nat.not_lt.mp hge) hpage hpage')
  · rintro ⟨h256, h320⟩
    have hregion : ∀ i, 1 ≤ i → i ≤ n → UserPage m.kernel i p := by
      intro i hi1 hin
      refine ⟨addrOf p, addrOf p, ptePWU, h.translate_region hi1 hin h256 h320, by decide, ?_⟩
      rw [toNat_addrOf (by omega), pageSize, Nat.mul_div_cancel _ (by decide)]
    exact ⟨hregion pid h1 hpid, hregion q hq1 hqn⟩

end Runs

/-! ## Two processes -/

/-- The first of two processes stores into the shared region. -/
theorem sample_store : ∃ m₀ m',
    boot sampleBoard 2 sampleImage (fun _ => 0x100000) (fun _ _ => 0) = .ok (.user m₀) ∧
      Steps (MachineStep sampleBoard) m₀ [(1, .store (addrOf 256) 0x90)] m' := by
  obtain ⟨kernel, hboot⟩ := sampleBoard_boot (n := 2) (by decide) (by decide)
  have hsound := boot_sound (sampleImage_fit 2) (by decide) hboot
  have hread := hsound.tables.translate_region hsound.bound.1 hsound.bound.2 (p := 256) le_rfl
    (by decide)
  exact ⟨_, _, hboot, .single (.store hread (by decide))⟩

/-- Process 2 sees nothing of it. -/
theorem virtual_run_waiting : ∃ m₀ m' : Machine,
    Steps (MachineStep sampleBoard) m₀ [(1, .store (addrOf 256) 0x90)] m' ∧
      Steps (VirtualStep sampleBoard 2) (m₀.virtual 2) [] (m'.virtual 2) := by
  obtain ⟨m₀, m', hboot, hrun⟩ := sample_store
  exact ⟨m₀, m', hrun, virtual_run (sampleImage_fit 2) (by decide) hboot (.nil _) hrun (by decide)
    le_rfl⟩

theorem userPage_both_iff_code : ∃ m₀ : Machine,
    boot sampleBoard 2 sampleImage (fun _ => 0x100000) (fun _ _ => 0) = .ok (.user m₀) ∧
      UserPage m₀.kernel 1 256 ∧ UserPage m₀.kernel 2 256 := by
  obtain ⟨m₀, m', hboot, hrun⟩ := sample_store
  exact ⟨m₀, hboot, (userPage_both_iff (sampleImage_fit 2) (by decide) hboot (.nil _) le_rfl
    (by decide) (by decide) le_rfl (by decide) 256).mpr (by decide)⟩

end SystemsProjects.Weensyos
