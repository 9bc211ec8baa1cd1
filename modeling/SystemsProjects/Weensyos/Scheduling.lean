import SystemsProjects.Weensyos.Entries

/-!
# How kernel entries end, and whose turn it is

After any run, which entries return to a process, which spin and which stop the kernel is known from
the registers and the descriptors alone. `schedule` goes round robin: as long as a process can run,
it has its turn within `n - 1` calls of `schedule`, `n` being the number of processes.
-/

namespace SystemsProjects.Weensyos
open SystemsProjects.Lib

/-! ## The ends of kernel entries -/

/-- The two ways into the kernel. -/
inductive Entry where
  | exception (intno : BitVec 32) (errcode : Word)
  | syscall (stale : Regstate) (scratch : Regs)

def enter (b : Board) (m : Machine) : Entry → Except Fault Next
  | .exception intno errcode => exception b intno errcode m
  | .syscall stale scratch => syscall b stale scratch m

/-- A page fault that `exception` counts as one of the process. -/
def UserFault (intno : BitVec 32) (errcode : Word) : Prop := intno = intPF ∧ errcode &&& pteU ≠ 0

/-- The entries from which a process comes back. -/
def Returns (b : Board) (m : Machine) : Entry → Prop
  | .exception intno errcode => intno = b.timer ∨
      UserFault intno errcode ∧ ∃ i, i ≠ m.current ∧ (m.ptable i).state = .runnable
  | .syscall _ _ => m.cpu.rax = 1 ∨ m.cpu.rax = 2 ∨ m.cpu.rax = 4 ∧
      (Rejected m.cpu.rdi ∨ m.cpu.rdi.toNat ≠ memsizePhysical ∧
        m.kernel.phys.refcount (m.cpu.rdi.toNat / pageSize) = 0)

/-- The entries in which `schedule` spins forever: the last process has faulted. -/
def Spins (m : Machine) : Entry → Prop
  | .exception intno errcode => UserFault intno errcode ∧
      ∀ i, i ≠ m.current → (m.ptable i).state ≠ .runnable
  | .syscall _ _ => False

/-- The entries that end in a failed assertion, or outside of `physpages`. -/
def Crashes (m : Machine) : Entry → Prop
  | .exception _ _ => False
  | .syscall _ _ => m.cpu.rax = 4 ∧ ¬ Rejected m.cpu.rdi ∧
      (m.cpu.rdi.toNat = memsizePhysical ∨
        m.kernel.phys.refcount (m.cpu.rdi.toNat / pageSize) ≠ 0)

section Fate
variable {b : Board} {n : Nat} {m : Machine}

theorem Returns.not_spins {e : Entry} (h : Returns b m e) : ¬ Spins m e := by
  intro hspins
  cases e with
  | exception intno errcode =>
    obtain ⟨⟨hpf, -⟩, hnone⟩ := hspins
    rcases h with ht | ⟨-, i, hi, hrun⟩
    · exact b.distinct (ht.symm.trans hpf)
    · exact hnone i hi hrun
  | syscall => exact hspins

theorem Returns.not_crashes {e : Entry} (h : Returns b m e) : ¬ Crashes m e := by
  intro hcrash
  cases e with
  | exception => exact hcrash
  | syscall =>
    obtain ⟨hrax, hin, hbad⟩ := hcrash
    rcases h with h1 | h2 | ⟨-, hrej | ⟨hend, hfree⟩⟩
    · exact absurd (h1.symm.trans hrax) (by decide)
    · exact absurd (h2.symm.trans hrax) (by decide)
    · exact hin hrej
    · exact hbad.elim hend fun hused => hused hfree

theorem Spins.not_crashes {e : Entry} (h : Spins m e) : ¬ Crashes m e := by
  cases e with
  | exception => exact fun hcrash => hcrash
  | syscall => exact h.elim

theorem Sound.enter_cases (h : Sound b n m) (e : Entry) :
    (Returns b m e ∧ ∃ m', enter b m e = .ok (.user m')) ∨
    (Spins m e ∧ enter b m e = .ok .spins) ∨
    (Crashes m e ∧ ∃ f, enter b m e = .error f) ∨
    (¬ Returns b m e ∧ ¬ Spins m e ∧ ¬ Crashes m e) ∧ enter b m e = .ok .panics := by
  cases e with
  | exception intno errcode =>
    by_cases ht : intno = b.timer
    · subst ht
      obtain ⟨q, heq, -⟩ := h.exception_timer errcode
      exact .inl ⟨.inl rfl, _, heq⟩
    by_cases hu : UserFault intno errcode
    · obtain ⟨rfl, hbit⟩ := hu
      rcases h.exception_fault_cases hbit with ⟨q, heq, hq⟩ | ⟨heq, hnone⟩
      · have hother : q ≠ m.current := by
          rintro rfl
          have hrun := hq.runnable
          rw [faulted_self] at hrun
          cases hrun
        have hrun : (m.ptable q).state = .runnable := by
          rw [← faulted_other errcode hother]
          exact hq.runnable
        exact .inl ⟨.inr ⟨⟨rfl, hbit⟩, q, hother, hrun⟩, _, heq⟩
      · exact .inr (.inl ⟨⟨⟨rfl, hbit⟩, hnone⟩, heq⟩)
    · have heq := exception_panics (m := m) ht fun hpf => not_not.mp fun hne => hu ⟨hpf, hne⟩
      refine .inr (.inr (.inr ⟨⟨?_, fun hspins => hu hspins.1, fun hcrash => hcrash⟩, heq⟩))
      rintro (htimer | ⟨hfault, -⟩)
      · exact ht htimer
      · exact hu hfault
  | syscall stale scratch =>
    by_cases h1 : m.cpu.rax = 1
    · exact .inl ⟨.inl h1, _, h.syscall_getpid h1⟩
    by_cases h2 : m.cpu.rax = 2
    · obtain ⟨q, heq, -⟩ := @Sound.syscall_yield b n m h stale scratch h2
      exact .inl ⟨.inr (.inl h2), _, heq⟩
    by_cases h4 : m.cpu.rax = 4
    · obtain ⟨hb1, hbn⟩ := h.bound
      have hcall := @Sound.syscall_pageAlloc b n m h stale scratch h4
      by_cases hin : Rejected m.cpu.rdi
      · rw [syscallPageAlloc_rejected hin] at hcall
        exact .inl ⟨.inr (.inr ⟨h4, .inl hin⟩), _, hcall⟩
      by_cases hend : m.cpu.rdi.toNat = memsizePhysical
      · rw [syscallPageAlloc_end hin hend] at hcall
        exact .inr (.inr (.inl ⟨⟨h4, hin, .inl hend⟩, _, hcall⟩))
      by_cases hfree : m.kernel.phys.refcount (m.cpu.rdi.toNat / pageSize) = 0
      · rw [h.tables.syscallPageAlloc_free hb1 hbn hin hend hfree] at hcall
        exact .inl ⟨.inr (.inr ⟨h4, .inr ⟨hend, hfree⟩⟩), _, hcall⟩
      · rw [syscallPageAlloc_used hin hend hfree] at hcall
        exact .inr (.inr (.inl ⟨⟨h4, hin, .inr hfree⟩, _, hcall⟩))
    · refine .inr (.inr (.inr ⟨⟨?_, fun hspins => hspins, fun hcrash => h4 hcrash.1⟩,
        syscall_panics h1 h2 h4⟩))
      rintro (hrax | hrax | ⟨hrax, -⟩)
      · exact h1 hrax
      · exact h2 hrax
      · exact h4 hrax

end Fate

/-- How a kernel entry ends after any run. -/
theorem enter_fate {b : Board} {n : Nat} {images : Nat → List Segment} {entry : Nat → Word}
    {word : Nat → Fin 512 → Word} {m₀ m : Machine} {es : List (Nat × Action)}
    (hfit : ImagesFit n images) (hn : 1 ≤ n) (hboot : boot b n images entry word = .ok (.user m₀))
    (hrun : Steps (MachineStep b) m₀ es m) (e : Entry) :
    ((∃ m', enter b m e = .ok (.user m')) ↔ Returns b m e) ∧
    (enter b m e = .ok .spins ↔ Spins m e) ∧
    ((∃ f, enter b m e = .error f) ↔ Crashes m e) := by
  have h := (boot_sound hfit hn hboot).run hrun
  rcases h.enter_cases e with ⟨hret, m', heq⟩ | ⟨hspins, heq⟩ | ⟨hcrash, f, heq⟩ |
    ⟨⟨hret, hspins, hcrash⟩, heq⟩
  · simp [heq, hret, hret.not_spins, hret.not_crashes]
  · have hret : ¬ Returns b m e := fun hret => hret.not_spins hspins
    simp [heq, hspins, hret, hspins.not_crashes]
  · have hret : ¬ Returns b m e := fun hret => hret.not_crashes hcrash
    have hspins : ¬ Spins m e := fun hspins => hspins.not_crashes hcrash
    simp [heq, hcrash, hret, hspins]
  · simp [heq, hret, hspins, hcrash]

/-- A board with 16 descriptors. -/
def sampleBoard : Board where
  toKernelImage := sampleKernel
  nproc := 16
  timer := 32
  appCode := 0x2B
  appData := 0x33
  entry := 0x40100
  room := by decide
  distinct := by decide
  code := by decide

theorem sampleBoard_boot {n : Nat} (h1 : 1 ≤ n) (hn : n ≤ 4) : ∃ kernel,
    boot sampleBoard n sampleImage (fun _ => 0x100000) (fun _ _ => 0) =
      .ok (.user (started sampleBoard n (fun _ => 0x100000) kernel)) := by
  obtain ⟨kernel, hstart⟩ := kernelStart_ok sampleKernel (fun _ _ => 0) hn (sampleImage_fit n)
    sampleImage_nodup
  exact ⟨kernel, boot_eq (sampleImage_fit n) hstart h1⟩

/-- The only process faults. -/
theorem enter_fate_spins : ∃ m₀,
    boot sampleBoard 1 sampleImage (fun _ => 0x100000) (fun _ _ => 0) = .ok (.user m₀) ∧
      enter sampleBoard m₀ (.exception intPF pteU) = .ok .spins := by
  obtain ⟨kernel, hboot⟩ := sampleBoard_boot le_rfl (by decide)
  refine ⟨_, hboot, ?_⟩
  apply (enter_fate (sampleImage_fit 1) le_rfl hboot (.nil _) (.exception intPF pteU)).2.1.mpr
  refine ⟨⟨rfl, by decide⟩, fun i hi hrun => hi ?_⟩
  have hbound := (startProc_runnable i).mp hrun
  exact le_antisymm hbound.2 hbound.1

/-! ## Turns -/

/-- The steps that go through `schedule`. -/
def Action.schedules : Action → Bool
  | .exception _ _ => true
  | .syscall number _ _ => number == 2
  | _ => false

section Turns
variable {b : Board} {n : Nat} {m m' : Machine} {pid : Nat}

/-- How many calls of `schedule` process `pid` may have to wait for its turn. -/
def wait (n : Nat) (m : Machine) (pid : Nat) : Nat :=
  if m.current = pid then 0 else RoundRobin.ahead n m.current pid

theorem wait_lt (h : Sound b n m) (h1 : 1 ≤ pid) (hn : pid ≤ n) : wait n m pid < n := by
  have hcur := h.bound
  unfold wait RoundRobin.ahead
  split_ifs <;> omega

/-- A process never comes back from a fault. -/
theorem Effect.runnable_of {a : Action} (heff : Effect b m a m')
    (hrun : (m'.ptable pid).state = .runnable) : (m.ptable pid).state = .runnable := by
  cases heff with
  | compute => exact hrun
  | store => exact hrun
  | timer => exact (ticked_state _ pid).symm.trans hrun
  | @fault errcode q hu hq =>
    change ((m.faulted errcode).ptable pid).state = .runnable at hrun
    by_cases hpid : pid = m.current
    · rw [hpid, faulted_self] at hrun
      cases hrun
    · rwa [faulted_other errcode hpid] at hrun
  | @yield stale _ q hrax hq => exact (yielded_state stale pid).symm.trans hrun
  | getpid => exact (m.save_state _ pid).symm.trans hrun
  | rejected => exact (m.save_state _ pid).symm.trans hrun
  | allocated => exact (m.save_state _ pid).symm.trans hrun

/-- The chosen process is closer. -/
theorem wait_chosen {mid : Machine} {q : Nat} (h : Ready b n mid) (hq : Chosen b mid q)
    (hpid : (mid.ptable pid).state = .runnable) (hne : mid.current ≠ pid) :
    wait n (mid.resumed q) pid < wait n mid pid := by
  have hroom := b.room
  have hcount := h.tables.count
  have hcur := h.bound
  have hbq := h.states q hq.runnable
  have hbpid := h.states pid hpid
  have hpos : 0 < RoundRobin.ahead n mid.current pid := by
    unfold RoundRobin.ahead
    split_ifs <;> omega
  have hcurrent : (mid.resumed q).current = q := rfl
  unfold wait
  rw [if_neg hne, hcurrent]
  split_ifs with hqp
  · exact hpos
  · have hclose := (hq.ahead pid hpid).resolve_left hqp
    exact RoundRobin.ahead_lt_of_ahead_lt (by omega) hcur.2 hbq.1 hbq.2 hclose

/-- A step of another process brings the turn of `pid` closer, if it goes through `schedule`. -/
theorem Effect.wait_le {a : Action} (heff : Effect b m a m') (h : Sound b n m)
    (hrun : (m'.ptable pid).state = .runnable) (hne : m.current ≠ pid) :
    wait n m' pid + (if a.schedules then 1 else 0) ≤ wait n m pid := by
  cases heff with
  | @timer errcode q hq =>
    exact wait_chosen (h.ticked errcode).toReady hq hrun hne
  | @fault errcode q hu hq => exact wait_chosen (h.faulted errcode) hq hrun hne
  | @yield stale _ q hrax hq => exact wait_chosen (h.yielded stale).toReady hq hrun hne
  | _ => exact le_rfl

/-- While a process waits and can run, `schedule` is called less often than there are processes. -/
theorem turn_bound {images : Nat → List Segment} {entry : Nat → Word}
    {word : Nat → Fin 512 → Word} {m₀ : Machine} {es₀ es : List (Nat × Action)}
    (hfit : ImagesFit n images) (hn : 1 ≤ n) (hboot : boot b n images entry word = .ok (.user m₀))
    (hrun₀ : Steps (MachineStep b) m₀ es₀ m) (hrun : Steps (MachineStep b) m es m')
    (halive : (m'.ptable pid).state = .runnable) (hwaits : ∀ e ∈ es, e.1 ≠ pid) :
    es.countP (fun e => e.2.schedules) < n := by
  have hsound := (boot_sound hfit hn hboot).run hrun₀
  have hcount : (m.ptable pid).state = .runnable ∧
      es.countP (fun e => e.2.schedules) ≤ wait n m pid := by
    clear hrun₀
    induction hrun with
    | nil => exact ⟨halive, Nat.zero_le _⟩
    | @cons s t u e es hstep _ ih =>
      obtain ⟨halive', hle⟩ := ih halive (fun e' he' => hwaits e' (List.mem_cons_of_mem _ he'))
        (hsound.step hstep)
      obtain ⟨hcur, heff⟩ := hsound.effect hstep
      have hne : s.current ≠ pid := by
        rw [← hcur]
        exact hwaits e List.mem_cons_self
      have hcloser := heff.wait_le hsound halive' hne
      rw [List.countP_cons]
      exact ⟨heff.runnable_of halive', by omega⟩
  obtain ⟨h1, hpn⟩ := hsound.states pid hcount.1
  exact lt_of_le_of_lt hcount.2 (wait_lt hsound h1 hpn)

end Turns

/-- Process 2 waits for the first of two processes to be interrupted. -/
theorem turn_bound_two : ∃ m₀ m',
    boot sampleBoard 2 sampleImage (fun _ => 0x100000) (fun _ _ => 0) = .ok (.user m₀) ∧
      Steps (MachineStep sampleBoard) m₀ [(1, .exception 32 0)] m' ∧
      [((1, .exception 32 0) : Nat × Action)].countP (fun e => e.2.schedules) < 2 := by
  obtain ⟨kernel, hboot⟩ := sampleBoard_boot (n := 2) (by decide) (by decide)
  have hsound := boot_sound (sampleImage_fit 2) (by decide) hboot
  obtain ⟨q, heq, -⟩ := hsound.exception_timer 0
  have hrun : Steps (MachineStep sampleBoard) _ [(1, .exception 32 0)] _ :=
    .single (MachineStep.exception heq)
  refine ⟨_, _, hboot, hrun, ?_⟩
  apply @turn_bound sampleBoard 2 _ _ 2 sampleImage _ _ _ _ _ (sampleImage_fit 2) (by decide) hboot
    (.nil _) hrun
  · exact (ticked_state 0 2).trans ((startProc_runnable 2).mpr ⟨by decide, by decide⟩)
  · intro e he
    rw [List.mem_singleton.mp he]
    decide

end SystemsProjects.Weensyos
