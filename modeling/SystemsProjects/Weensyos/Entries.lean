import SystemsProjects.Weensyos.Pages

/-!
# Kernel entries in every run

After any run the current process can run, and the page table of every process passes
`check_pagetable`. So the assertions of `run` and of the way back never fail, and a kernel entry
does what the code reads; `Effect` lists it.
-/

namespace SystemsProjects.Weensyos
open SystemsProjects.Lib

/-! ## The invariant -/

/-- Inside the kernel: the tables and the descriptors are in order. -/
structure Ready (b : Board) (n : Nat) (m : Machine) : Prop where
  tables : Tables b.toKernelImage n m.kernel
  pid : ∀ i, (m.ptable i).pid = i
  states : ∀ i, (m.ptable i).state = .runnable → 1 ≤ i ∧ i ≤ n
  bound : 1 ≤ m.current ∧ m.current ≤ n

/-- In user mode the current process is one that can run. -/
structure Sound (b : Board) (n : Nat) (m : Machine) : Prop extends Ready b n m where
  running : (m.ptable m.current).state = .runnable

/-- `exception_return` to process `p`. -/
def Machine.resumed (m : Machine) (p : Nat) : Machine :=
  { m with current := p, cpu := (m.ptable p).regs.toRegs }

/-- `schedule` chose `q`: every other process that can run is closer ahead of `q`. -/
structure Chosen (b : Board) (m : Machine) (q : Nat) : Prop where
  runnable : (m.ptable q).state = .runnable
  ahead : ∀ j, (m.ptable j).state = .runnable → q = j ∨
    RoundRobin.ahead b.nproc q j < RoundRobin.ahead b.nproc m.current j

section Setters
variable (m : Machine) (p : Proc) (regs : Regstate)

theorem Machine.setProc_self : (m.setProc p).ptable m.current = p := Function.update_self _ _ _

theorem Machine.setProc_other {i : Nat} (h : i ≠ m.current) : (m.setProc p).ptable i = m.ptable i :=
  Function.update_of_ne h _ _

theorem Machine.save_self :
    (m.save regs).ptable m.current = { m.ptable m.current with regs := regs } := m.setProc_self _

theorem Machine.save_other {i : Nat} (h : i ≠ m.current) : (m.save regs).ptable i = m.ptable i :=
  m.setProc_other _ h

theorem Machine.save_state (i : Nat) : ((m.save regs).ptable i).state = (m.ptable i).state := by
  by_cases hi : i = m.current
  · rw [hi, m.save_self]
  · rw [m.save_other regs hi]

@[simp] theorem Machine.setProc_kernel : (m.setProc p).kernel = m.kernel := rfl

@[simp] theorem Machine.setProc_current : (m.setProc p).current = m.current := rfl

end Setters

section Run
variable {b : Board} {n : Nat} {m : Machine}

theorem Ready.setProc (h : Ready b n m) {p : Proc} (hpid : p.pid = m.current) :
    Ready b n (m.setProc p) where
  tables := h.tables
  pid := by
    intro i
    by_cases hi : i = m.current
    · subst hi
      rw [m.setProc_self, hpid]
    · rw [m.setProc_other p hi]
      exact h.pid i
  states := by
    intro i hrun
    by_cases hi : i = m.current
    · subst hi
      exact h.bound
    · rw [m.setProc_other p hi] at hrun
      exact h.states i hrun
  bound := h.bound

theorem Ready.save (h : Ready b n m) (regs : Regstate) : Ready b n (m.save regs) :=
  h.setProc (h.pid m.current)

theorem Sound.save (h : Sound b n m) (regs : Regstate) : Sound b n (m.save regs) where
  toReady := h.toReady.save regs
  running := (m.save_state regs m.current).trans h.running

/-- A process that can run is run. -/
theorem Ready.run_eq (h : Ready b n m) {p : Nat} (hp : (m.ptable p).state = .runnable) :
    run b p m = .ok (.user (m.resumed p)) := by
  obtain ⟨h1, hn⟩ := h.states p hp
  have hcheck := h.tables.checkPagetable_ok h1 hn
  unfold run
  simp only [hp, ne_eq, not_true_eq_false, if_false, hcheck, bind, Except.bind, pure, Except.pure]
  rfl

theorem Ready.resumed (h : Ready b n m) {p : Nat} (hp : (m.ptable p).state = .runnable) :
    Sound b n (m.resumed p) where
  tables := h.tables
  pid := h.pid
  states := h.states
  bound := h.states p hp
  running := hp

/-- `schedule` runs the next process that can run. -/
theorem Ready.schedule_eq (h : Ready b n m) {p : Nat} (hp : (m.ptable p).state = .runnable) :
    ∃ q, schedule b m = .ok (.user (m.resumed q)) ∧ Chosen b m q := by
  have hroom := b.room
  have hcount := h.tables.count
  have hcur := h.bound
  have hi : m.current < b.nproc := by omega
  have hnext : ∀ j, (m.ptable j).state = .runnable → ∃ q,
      RoundRobin.next m.runnable b.nproc b.nproc m.current = some q ∧
        (q = j ∨ RoundRobin.ahead b.nproc q j < RoundRobin.ahead b.nproc m.current j) := by
    intro j hj
    have hbound := h.states j hj
    have hlt : j < b.nproc := by omega
    exact RoundRobin.next_ahead hi hlt (decide_eq_true hj) (RoundRobin.ahead_le hlt)
  obtain ⟨q, hq, -⟩ := hnext p hp
  have hrun : (m.ptable q).state = .runnable :=
    of_decide_eq_true (RoundRobin.next_passes (by omega) hq).1
  refine ⟨q, ?_, hrun, fun j hj => ?_⟩
  · unfold schedule
    rw [h.pid, hq]
    exact h.run_eq hrun
  · obtain ⟨q', hq', hclose⟩ := hnext j hj
    rw [hq] at hq'
    obtain rfl := Option.some.inj hq'
    exact hclose

/-- `schedule` spins when no process can run. -/
theorem Ready.schedule_spins (h : Ready b n m) (hnone : ∀ i, (m.ptable i).state ≠ .runnable) :
    schedule b m = .ok .spins := by
  have hroom := b.room
  have hcount := h.tables.count
  have hcur := h.bound
  have hfail : ∀ j, j < b.nproc → m.runnable j = false := fun j _ => decide_eq_false (hnone j)
  have hnext : RoundRobin.next m.runnable b.nproc b.nproc m.current = none :=
    (RoundRobin.next_eq_none_iff (by omega) le_rfl).mpr hfail
  unfold schedule
  rw [h.pid, hnext]
  rfl

end Run

/-! ## Exceptions -/

/-- A timer interrupt, up to `schedule`. -/
def Machine.ticked (b : Board) (m : Machine) (errcode : Word) : Machine :=
  { m.save { m.cpu with intno := b.timer, errcode := errcode } with ticks := m.ticks + 1 }

/-- A page fault in user mode, up to `schedule`. -/
def Machine.faulted (m : Machine) (errcode : Word) : Machine :=
  let m := m.save { m.cpu with intno := intPF, errcode := errcode }
  m.setProc { m.ptable m.current with state := .faulted }

/-- `sys_yield`, up to `schedule`. -/
def Machine.yielded (b : Board) (m : Machine) (stale : Regstate) : Machine :=
  let cpu := m.cpu
  let m := m.save (sysEntry b cpu stale)
  let p := m.ptable m.current
  m.setProc { p with regs := { p.regs with rax := 0 } }

section Descriptors
variable {b : Board} {m : Machine} {i : Nat}

theorem ticked_state (errcode : Word) (i : Nat) :
    ((m.ticked b errcode).ptable i).state = (m.ptable i).state := m.save_state _ i

theorem faulted_self (errcode : Word) : (m.faulted errcode).ptable m.current =
    { m.ptable m.current with
      state := .faulted, regs := { m.cpu with intno := intPF, errcode := errcode } } := by
  have hsave := m.save_self { m.cpu with intno := intPF, errcode := errcode }
  refine ((m.save { m.cpu with intno := intPF, errcode := errcode }).setProc_self _).trans ?_
  show { (m.save { m.cpu with intno := intPF, errcode := errcode }).ptable m.current with
    state := ProcState.faulted } = _
  rw [hsave]

theorem faulted_other (errcode : Word) (hi : i ≠ m.current) :
    (m.faulted errcode).ptable i = m.ptable i :=
  ((m.save { m.cpu with intno := intPF, errcode := errcode }).setProc_other _ hi).trans
    (m.save_other _ hi)

theorem yielded_self (stale : Regstate) : (m.yielded b stale).ptable m.current =
    { m.ptable m.current with regs := { sysEntry b m.cpu stale with rax := 0 } } := by
  have hsave := m.save_self (sysEntry b m.cpu stale)
  refine ((m.save (sysEntry b m.cpu stale)).setProc_self _).trans ?_
  show { (m.save (sysEntry b m.cpu stale)).ptable m.current with
    regs := { ((m.save (sysEntry b m.cpu stale)).ptable m.current).regs with rax := 0 } } = _
  rw [hsave]

theorem yielded_other (stale : Regstate) (hi : i ≠ m.current) :
    (m.yielded b stale).ptable i = m.ptable i :=
  ((m.save (sysEntry b m.cpu stale)).setProc_other _ hi).trans (m.save_other _ hi)

theorem yielded_state (stale : Regstate) (i : Nat) :
    ((m.yielded b stale).ptable i).state = (m.ptable i).state := by
  by_cases hi : i = m.current
  · rw [hi, yielded_self]
  · rw [yielded_other stale hi]

end Descriptors

section Entries
variable {b : Board} {n : Nat} {m : Machine} (h : Sound b n m)
include h

theorem Sound.ticked (errcode : Word) : Sound b n (m.ticked b errcode) := by
  have hsave := h.save { m.cpu with intno := b.timer, errcode := errcode }
  exact ⟨⟨hsave.tables, hsave.pid, hsave.states, hsave.bound⟩, hsave.running⟩

theorem Sound.faulted (errcode : Word) : Ready b n (m.faulted errcode) := by
  have hsave := h.toReady.save { m.cpu with intno := intPF, errcode := errcode }
  exact hsave.setProc (hsave.pid _)

theorem Sound.yielded (stale : Regstate) : Sound b n (m.yielded b stale) := by
  have hsave := h.save (sysEntry b m.cpu stale)
  refine ⟨hsave.toReady.setProc (hsave.pid _), ?_⟩
  show ((m.yielded b stale).ptable m.current).state = _
  rw [yielded_state]
  exact h.running

theorem Sound.exception_timer (errcode : Word) :
    ∃ q, exception b b.timer errcode m = .ok (.user ((m.ticked b errcode).resumed q)) ∧
      Chosen b (m.ticked b errcode) q := by
  have hticked := h.ticked errcode
  obtain ⟨q, hq, hchosen⟩ := hticked.toReady.schedule_eq hticked.running
  refine ⟨q, ?_, hchosen⟩
  rw [← hq]
  exact if_pos rfl

omit h in
theorem exception_fault {errcode : Word} (hu : errcode &&& pteU ≠ 0) :
    exception b intPF errcode m = schedule b (m.faulted errcode) := by
  have hstate : ¬ ((m.faulted errcode).ptable (m.faulted errcode).current).state = .runnable := by
    show ¬ ((m.faulted errcode).ptable m.current).state = .runnable
    rw [faulted_self]
    exact fun hrun => by cases hrun
  unfold exception
  rw [if_neg b.distinct.symm, if_pos rfl, if_neg hu]
  exact if_neg hstate

theorem Sound.exception_fault_cases {errcode : Word} (hu : errcode &&& pteU ≠ 0) :
    (∃ q, exception b intPF errcode m = .ok (.user ((m.faulted errcode).resumed q)) ∧
      Chosen b (m.faulted errcode) q) ∨
    exception b intPF errcode m = .ok .spins ∧
      ∀ i, i ≠ m.current → (m.ptable i).state ≠ .runnable := by
  have hready := h.faulted errcode
  rw [exception_fault hu]
  by_cases hsome : ∃ i, ((m.faulted errcode).ptable i).state = .runnable
  · obtain ⟨i, hi⟩ := hsome
    exact .inl (hready.schedule_eq hi)
  · push Not at hsome
    refine .inr ⟨hready.schedule_spins hsome, fun i hi => ?_⟩
    rw [← faulted_other errcode hi]
    exact hsome i

omit h in
theorem exception_panics {intno : BitVec 32} {errcode : Word} (ht : intno ≠ b.timer)
    (hpf : intno = intPF → errcode &&& pteU = 0) : exception b intno errcode m = .ok .panics := by
  unfold exception
  rw [if_neg ht]
  split_ifs with hintno hu
  · rfl
  · exact absurd (hpf hintno) hu
  · rfl

/-! ## System calls -/

/-- The way back after `syscall` has returned. -/
theorem Sound.sysResume_eq (cpu scratch : Regs) (v : Word) :
    sysResume b cpu scratch v m = .ok (.user { m with cpu := sysReturn b cpu scratch v }) := by
  unfold sysResume
  rw [if_neg (not_not.mpr h.running)]
  rfl

theorem Sound.syscall_getpid {stale : Regstate} {scratch : Regs} (hrax : m.cpu.rax = 1) :
    syscall b stale scratch m = .ok (.user { m.save (sysEntry b m.cpu stale) with
      cpu := sysReturn b m.cpu scratch (BitVec.ofNat 64 m.current) }) := by
  have hsave := h.save (sysEntry b m.cpu stale)
  have hpid : ((m.save (sysEntry b m.cpu stale)).ptable
      (m.save (sysEntry b m.cpu stale)).current).pid = m.current := hsave.pid _
  unfold syscall
  simp only [hrax, show (1 : Word).toNat = 1 from rfl, hpid]
  exact hsave.sysResume_eq _ _ _

theorem Sound.syscall_yield {stale : Regstate} {scratch : Regs} (hrax : m.cpu.rax = 2) :
    ∃ q, syscall b stale scratch m = .ok (.user ((m.yielded b stale).resumed q)) ∧
      Chosen b (m.yielded b stale) q := by
  have hyield := h.yielded stale
  obtain ⟨q, hq, hchosen⟩ := hyield.toReady.schedule_eq hyield.running
  refine ⟨q, ?_, hchosen⟩
  rw [← hq]
  unfold syscall
  simp only [hrax, show (2 : Word).toNat = 2 from rfl]
  rfl

/-- `sys_page_alloc`, by what `syscall_page_alloc` returns. -/
theorem Sound.syscall_pageAlloc {stale : Regstate} {scratch : Regs} (hrax : m.cpu.rax = 4) :
    syscall b stale scratch m =
      (syscallPageAlloc b.toKernelImage m.current m.cpu.rdi m.kernel).bind fun out =>
        .ok (.user { m.save (sysEntry b m.cpu stale) with
          kernel := out.2, cpu := sysReturn b m.cpu scratch (BitVec.ofInt 64 out.1) }) := by
  have hsave := h.save (sysEntry b m.cpu stale)
  have hpid : ((m.save (sysEntry b m.cpu stale)).ptable
      (m.save (sysEntry b m.cpu stale)).current).pid = m.current := hsave.pid _
  have hkernel : (m.save (sysEntry b m.cpu stale)).kernel = m.kernel := rfl
  unfold syscall
  simp only [hrax, show (4 : Word).toNat = 4 from rfl, hpid, hkernel]
  cases syscallPageAlloc b.toKernelImage m.current m.cpu.rdi m.kernel with
  | error f => rfl
  | ok out =>
    simp only [bind, Except.bind, sysResume]
    exact if_neg (not_not.mpr hsave.running)

omit h in
theorem syscall_panics {stale : Regstate} {scratch : Regs} (h1 : m.cpu.rax ≠ 1)
    (h2 : m.cpu.rax ≠ 2) (h4 : m.cpu.rax ≠ 4) : syscall b stale scratch m = .ok .panics := by
  have hne : ∀ k : Nat, k < 8 → m.cpu.rax ≠ BitVec.ofNat 64 k → m.cpu.rax.toNat ≠ k := by
    intro k hk hrax he
    apply hrax
    apply BitVec.eq_of_toNat_eq
    rw [he, BitVec.toNat_ofNat, Nat.mod_eq_of_lt (by omega)]
  have n1 := hne 1 (by decide) h1
  have n2 := hne 2 (by decide) h2
  have n4 := hne 4 (by decide) h4
  unfold syscall
  dsimp only
  split
  · exact absurd ‹_› n1
  · exact absurd ‹_› n2
  · exact absurd ‹_› n4
  · rfl

end Entries

/-! ## One step -/

/-- All that a step of the current process does. -/
inductive Effect (b : Board) (m : Machine) : Action → Machine → Prop
  | compute (regs : Regs) : Effect b m (.compute regs) { m with cpu := regs }
  | store {va : Word} {x : UInt8} (hpage : UserPage m.kernel m.current (va.toNat / pageSize)) :
      Effect b m (.store va x) { m with kernel := stored m.kernel va x }
  | timer {errcode : Word} {q : Nat} (hq : Chosen b (m.ticked b errcode) q) :
      Effect b m (.exception b.timer errcode) ((m.ticked b errcode).resumed q)
  | fault {errcode : Word} {q : Nat} (hu : errcode &&& pteU ≠ 0)
      (hq : Chosen b (m.faulted errcode) q) :
      Effect b m (.exception intPF errcode) ((m.faulted errcode).resumed q)
  | getpid {stale : Regstate} {scratch : Regs} (hrax : m.cpu.rax = 1) :
      Effect b m (.syscall 1 stale scratch) { m.save (sysEntry b m.cpu stale) with
        cpu := sysReturn b m.cpu scratch (BitVec.ofNat 64 m.current) }
  | yield {stale : Regstate} {scratch : Regs} {q : Nat} (hrax : m.cpu.rax = 2)
      (hq : Chosen b (m.yielded b stale) q) :
      Effect b m (.syscall 2 stale scratch) ((m.yielded b stale).resumed q)
  | rejected {stale : Regstate} {scratch : Regs} (hrax : m.cpu.rax = 4)
      (hin : Rejected m.cpu.rdi) :
      Effect b m (.syscall 4 stale scratch) { m.save (sysEntry b m.cpu stale) with
        cpu := sysReturn b m.cpu scratch (-1) }
  | allocated {stale : Regstate} {scratch : Regs} (hrax : m.cpu.rax = 4)
      (hin : ¬ Rejected m.cpu.rdi) (hp : m.cpu.rdi.toNat / pageSize < 512)
      (h256 : 256 ≤ m.cpu.rdi.toNat / pageSize)
      (hfree : m.kernel.phys.refcount (m.cpu.rdi.toNat / pageSize) = 0) :
      Effect b m (.syscall 4 stale scratch) { m.save (sysEntry b m.cpu stale) with
        kernel := allocated m.kernel (tableOf m.current) (m.cpu.rdi.toNat / pageSize) hp
        cpu := sysReturn b m.cpu scratch 0 }

section Step
variable {b : Board} {n : Nat} {m m' : Machine}

theorem Sound.exception_effect (h : Sound b n m) {intno : BitVec 32} {errcode : Word}
    (hret : exception b intno errcode m = .ok (.user m')) :
    Effect b m (.exception intno errcode) m' := by
  by_cases ht : intno = b.timer
  · subst ht
    obtain ⟨q, heq, hq⟩ := h.exception_timer errcode
    rw [heq] at hret
    obtain rfl := Next.user.inj (Except.ok.inj hret)
    exact .timer hq
  by_cases hu : intno = intPF ∧ errcode &&& pteU ≠ 0
  · obtain ⟨rfl, hu⟩ := hu
    rcases h.exception_fault_cases hu with ⟨q, heq, hq⟩ | ⟨heq, -⟩
    · rw [heq] at hret
      obtain rfl := Next.user.inj (Except.ok.inj hret)
      exact .fault hu hq
    · rw [heq] at hret
      cases hret
  · rw [exception_panics ht fun hpf => not_not.mp fun hne => hu ⟨hpf, hne⟩] at hret
    cases hret

theorem Sound.syscall_effect (h : Sound b n m) {stale : Regstate} {scratch : Regs}
    (hret : syscall b stale scratch m = .ok (.user m')) :
    Effect b m (.syscall m.cpu.rax stale scratch) m' := by
  by_cases h1 : m.cpu.rax = 1
  · rw [h.syscall_getpid h1] at hret
    obtain rfl := Next.user.inj (Except.ok.inj hret)
    rw [h1]
    exact .getpid h1
  by_cases h2 : m.cpu.rax = 2
  · obtain ⟨q, heq, hq⟩ := @Sound.syscall_yield b n m h stale scratch h2
    rw [heq] at hret
    obtain rfl := Next.user.inj (Except.ok.inj hret)
    rw [h2]
    exact .yield h2 hq
  by_cases h4 : m.cpu.rax = 4
  · rw [h.syscall_pageAlloc h4] at hret
    rw [h4]
    obtain ⟨hb1, hbn⟩ := h.bound
    by_cases hin : Rejected m.cpu.rdi
    · rw [syscallPageAlloc_rejected hin] at hret
      obtain rfl := Next.user.inj (Except.ok.inj hret)
      exact .rejected h4 hin
    by_cases hend : m.cpu.rdi.toNat = memsizePhysical
    · rw [syscallPageAlloc_end hin hend] at hret
      cases hret
    by_cases hfree : m.kernel.phys.refcount (m.cpu.rdi.toNat / pageSize) = 0
    · rw [h.tables.syscallPageAlloc_free hb1 hbn hin hend hfree] at hret
      obtain rfl := Next.user.inj (Except.ok.inj hret)
      obtain ⟨hp, h256, -⟩ := page_of_not_rejected hin hend
      exact .allocated h4 hin hp h256 hfree
    · rw [syscallPageAlloc_used hin hend hfree] at hret
      cases hret
  · rw [syscall_panics h1 h2 h4] at hret
    cases hret

theorem Sound.effect {e : Nat × Action} (h : Sound b n m) (hstep : MachineStep b m e m') :
    e.1 = m.current ∧ Effect b m e.2 m' := by
  cases hstep with
  | compute => exact ⟨rfl, .compute _⟩
  | @store va pa perm x hread hperm =>
    obtain ⟨h1, hn⟩ := h.bound
    have hmove : Step b.toKernelImage n m.kernel (.store m.current va x)
        { m.kernel with phys := m.kernel.phys.setByte pa.toNat x } := .store h1 hn hread hperm
    rcases h.tables.step_cases hmove with ⟨_, _, he, _⟩ | ⟨_, _, he, _⟩ |
        ⟨pid, va', x', he, -, hpage, heq⟩
    · cases he
    · cases he
    · obtain ⟨rfl, rfl, rfl⟩ := Event.store.inj he
      refine ⟨rfl, ?_⟩
      rw [heq]
      exact .store hpage
  | exception hret => exact ⟨rfl, h.exception_effect hret⟩
  | syscall hret => exact ⟨rfl, h.syscall_effect hret⟩

/-- Memory after a kernel entry. -/
theorem Effect.kernel_cases {a : Action} (heff : Effect b m a m') (h : Sound b n m) :
    m'.kernel = m.kernel ∨ (∃ va x, a = .store va x) ∨
      ∃ e, Step b.toKernelImage n m.kernel e m'.kernel := by
  obtain ⟨h1, hn⟩ := h.bound
  cases heff with
  | store hpage => exact .inr (.inl ⟨_, _, rfl⟩)
  | allocated hrax hin hp h256 hfree =>
    have hend : m.cpu.rdi.toNat ≠ memsizePhysical := by
      simp only [pageSize] at hp
      simp only [memsizePhysical]
      omega
    exact .inr (.inr ⟨_, .pageAlloc h1 hn (h.tables.syscallPageAlloc_free h1 hn hin hend hfree)⟩)
  | _ => exact .inl rfl

/-- A step of the machine is a step of the memory of all processes, or leaves it. -/
theorem Sound.kernel_step {e : Nat × Action} (h : Sound b n m) (hstep : MachineStep b m e m') :
    m'.kernel = m.kernel ∨ ∃ e', Step b.toKernelImage n m.kernel e' m'.kernel := by
  obtain ⟨h1, hn⟩ := h.bound
  have heff := (h.effect hstep).2
  cases hstep with
  | compute => exact .inl rfl
  | store hread hperm => exact .inr ⟨_, .store h1 hn hread hperm⟩
  | exception hret =>
    rcases heff.kernel_cases h with heq | ⟨_, _, he⟩ | hmove
    · exact .inl heq
    · cases he
    · exact .inr hmove
  | syscall hret =>
    rcases heff.kernel_cases h with heq | ⟨_, _, he⟩ | hmove
    · exact .inl heq
    · cases he
    · exact .inr hmove

theorem Sound.step {e : Nat × Action} (h : Sound b n m) (hstep : MachineStep b m e m') :
    Sound b n m' := by
  have htables : Tables b.toKernelImage n m'.kernel := by
    rcases h.kernel_step hstep with heq | ⟨_, hmove⟩
    · rw [heq]
      exact h.tables
    · exact h.tables.step hmove
  obtain ⟨i, a⟩ := e
  obtain ⟨-, heff⟩ := h.effect hstep
  change Effect b m a m' at heff
  cases heff with
  | compute => exact ⟨⟨htables, h.pid, h.states, h.bound⟩, h.running⟩
  | store => exact ⟨⟨htables, h.pid, h.states, h.bound⟩, h.running⟩
  | @timer errcode q hq => exact (h.ticked errcode).toReady.resumed hq.runnable
  | @fault errcode q _ hq => exact (h.faulted errcode).resumed hq.runnable
  | @yield stale _ q _ hq => exact (h.yielded stale).toReady.resumed hq.runnable
  | @getpid stale =>
    have hsave := h.save (sysEntry b m.cpu stale)
    exact ⟨⟨htables, hsave.pid, hsave.states, hsave.bound⟩, hsave.running⟩
  | @rejected stale =>
    have hsave := h.save (sysEntry b m.cpu stale)
    exact ⟨⟨htables, hsave.pid, hsave.states, hsave.bound⟩, hsave.running⟩
  | @allocated stale =>
    have hsave := h.save (sysEntry b m.cpu stale)
    exact ⟨⟨htables, hsave.pid, hsave.states, hsave.bound⟩, hsave.running⟩

end Step

/-! ## From `kernel_start` on -/

section Runs
variable {b : Board} {n : Nat} {images : Nat → List Segment} {entry : Nat → Word}
  {word : Nat → Fin 512 → Word} {m₀ m m' : Machine} {es : List (Nat × Action)}

theorem startProc_pid (i : Nat) : (startProc b n entry i).pid = i := by
  unfold startProc
  split_ifs <;> rfl

theorem startProc_runnable (i : Nat) :
    (startProc b n entry i).state = .runnable ↔ 1 ≤ i ∧ i ≤ n := by
  unfold startProc
  split_ifs with hi <;> simp [hi]

/-- The machine that `kernel_start` makes. -/
def started (b : Board) (n : Nat) (entry : Nat → Word) (kernel : Kernel) : Machine :=
  { kernel := kernel, ptable := startProc b n entry, current := 1, ticks := 1
    cpu := (startProc b n entry 1).regs.toRegs }

theorem started_sound {kernel : Kernel} (h : Tables b.toKernelImage n kernel) (hn : 1 ≤ n) :
    Sound b n (started b n entry kernel) where
  tables := h
  pid := startProc_pid
  states := fun i => (startProc_runnable i).mp
  bound := ⟨le_rfl, hn⟩
  running := (startProc_runnable 1).mpr ⟨le_rfl, hn⟩

/-- `kernel_start` ends in process 1, if the programs could be loaded. -/
theorem boot_eq {kernel : Kernel} (hfit : ImagesFit n images)
    (hstart : kernelStart b.toKernelImage n images word = .ok kernel) (hn : 1 ≤ n) :
    boot b n images entry word = .ok (.user (started b n entry kernel)) := by
  have hsound : Sound b n (started b n entry kernel) :=
    started_sound (tables_of_start hfit hstart) hn
  have hcheck := hsound.tables.checkPagetable_ok le_rfl hn
  have hrun : (startProc b n entry 1).state = .runnable := hsound.running
  have hkernel : (started b n entry kernel).kernel = kernel := rfl
  rw [hkernel] at hcheck
  unfold boot
  simp only [hstart, bind, Except.bind, run, hrun, ne_eq, not_true_eq_false, if_false, hcheck, pure,
    Except.pure]
  rfl

theorem boot_sound (hfit : ImagesFit n images) (hn : 1 ≤ n)
    (hboot : boot b n images entry word = .ok (.user m)) : Sound b n m := by
  cases hstart : kernelStart b.toKernelImage n images word with
  | error f =>
    unfold boot at hboot
    rw [hstart] at hboot
    cases hboot
  | ok kernel =>
    rw [boot_eq hfit hstart hn] at hboot
    obtain rfl := Next.user.inj (Except.ok.inj hboot)
    exact started_sound (tables_of_start hfit hstart) hn

theorem Sound.run (h : Sound b n m) (hrun : Steps (MachineStep b) m es m') : Sound b n m' :=
  hrun.invariant (fun _ _ _ h hstep => h.step hstep) h

end Runs

end SystemsProjects.Weensyos
