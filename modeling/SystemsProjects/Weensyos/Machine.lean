import SystemsProjects.Lib.RoundRobin
import SystemsProjects.Weensyos.Isolation

/-!
# Exceptions, system calls and the scheduler

The processor in user mode and the ways into the kernel and back: `exception`, `syscall`, `schedule`
and `run` (`kernel.cc:301-499`) with the entry code of `k-exception.S` around them, and
`check_pagetable` (`k-hardware.cc:301-309`). What is shown on the console and in the log is left out,
with the page that `memshow` takes for it, and so is `next_va`, which is never read. No key is
pressed: `check_keyboard` does nothing.
-/

namespace SystemsProjects.Weensyos
open SystemsProjects.Lib

/-- The registers of a process (`x86-64.h:111-144`), without the interrupt number and error code. -/
structure Regs where
  rax : Word
  rcx : Word
  rdx : Word
  rbx : Word
  rbp : Word
  rsi : Word
  rdi : Word
  r8 : Word
  r9 : Word
  r10 : Word
  r11 : Word
  r12 : Word
  r13 : Word
  r14 : Word
  r15 : Word
  fs : Word
  gs : Word
  rip : Word
  cs : Word
  rflags : Word
  rsp : Word
  ss : Word

structure Regstate extends Regs where
  intno : BitVec 32
  errcode : Word

/-- `memset (&regs, 0, sizeof (regs))`. -/
def Regstate.zero : Regstate :=
  { rax := 0, rcx := 0, rdx := 0, rbx := 0, rbp := 0, rsi := 0, rdi := 0, r8 := 0,
    r9 := 0, r10 := 0,
    r11 := 0, r12 := 0, r13 := 0, r14 := 0, r15 := 0, fs := 0, gs := 0, rip := 0, cs := 0,
    rflags := 0, rsp := 0, ss := 0, intno := 0, errcode := 0 }

/-- `P_FREE`, `P_RUNNABLE` and `P_FAULTED`. -/
inductive ProcState where
  | free
  | runnable
  | faulted
  deriving DecidableEq

structure Proc where
  pid : Nat
  state : ProcState
  regs : Regstate

/-- The interrupt number `INT_PF` of page faults (`x86-64.h:101`). -/
def intPF : BitVec 32 := 14

/-- What `kernel.hh` and the linker fix: the number of descriptors, the interrupt number of the
timer, which is a case of the same `switch` as `INT_PF`, the segment selectors of a process, and the
address of `exception_entry` in the code of the kernel. -/
structure Board extends KernelImage where
  nproc : Nat
  timer : BitVec 32
  appCode : Word
  appData : Word
  entry : Word
  room : 4 < nproc
  distinct : timer ≠ intPF
  code : kernelStartAddr ≤ entry.toNat ∧ entry.toNat < kernelEnd

/-- The kernel, its process table, and the processor while it runs process `current`. The page
tables of the descriptors are in `kernel`. -/
structure Machine where
  kernel : Kernel
  ptable : Nat → Proc
  current : Nat
  ticks : Nat
  cpu : Regs

/-- The end of a kernel entry: a process is back in user mode, `schedule` spins forever, or the
kernel has stopped in `panic`, `proc_panic` or `user_panic`. -/
inductive Next where
  | user (m : Machine)
  | spins
  | panics

def Machine.setProc (m : Machine) (p : Proc) : Machine :=
  { m with ptable := Function.update m.ptable m.current p }

/-- `current->regs = *regs`. -/
def Machine.save (m : Machine) (regs : Regstate) : Machine :=
  m.setProc { m.ptable m.current with regs := regs }

def Machine.runnable (m : Machine) (i : Nat) : Bool := decide ((m.ptable i).state = .runnable)

section Entries
variable (b : Board)

/-- `check_pagetable` (`k-hardware.cc:301-309`) of the table in page `pt`, which is aligned. -/
def checkPagetable (s : Phys) (pt : Nat) : Except Fault Unit := do
  let it ← vmiter s pt b.entry
  if it.pa s ≠ b.entry then throw .assertion
  let it ← vmiter s b.ktable (addrOf pt)
  if it.pa s ≠ addrOf pt then throw .assertion
  let it ← vmiter s pt (addrOf b.ktable)
  if it.pa s ≠ addrOf b.ktable then throw .assertion

/-- `run` (`kernel.cc:485-499`) and `exception_return` (`k-exception.S:82-115`). -/
def run (p : Nat) (m : Machine) : Except Fault Next := do
  if (m.ptable p).state ≠ .runnable then throw .assertion
  let m := { m with current := p }
  checkPagetable b m.kernel.phys (m.kernel.pagetable p)
  return .user { m with cpu := (m.ptable p).regs.toRegs }

/-- `schedule` (`kernel.cc:462-479`): after `NPROC` rounds the loop has seen every descriptor. -/
def schedule (m : Machine) : Except Fault Next :=
  match RoundRobin.next m.runnable b.nproc b.nproc (m.ptable m.current).pid with
  | some p => run b p m
  | none => return .spins

/-- `exception` (`kernel.cc:301-359`), with the registers as `exception_entry` has saved them. -/
def exception (intno : BitVec 32) (errcode : Word) (m : Machine) : Except Fault Next :=
  let m := m.save { m.cpu with intno := intno, errcode := errcode }
  if intno = b.timer then schedule b { m with ticks := m.ticks + 1 }
  else if intno = intPF then
    if errcode &&& pteU = 0 then return .panics
    else
      let m := m.setProc { m.ptable m.current with state := .faulted }
      if (m.ptable m.current).state = .runnable then run b m.current m else schedule b m
  else return .panics

/-- The registers that `syscall_entry` saves (`k-exception.S:122-150`). The processor has put `%rip`
and `%rflags` into `%rcx` and `%r11`, and the slots of these two and of the error code are not
written. -/
def sysEntry (cpu : Regs) (stale : Regstate) : Regstate :=
  { cpu with
    rcx := stale.rcx, r11 := stale.r11, cs := b.appCode, ss := b.appData, intno := -1,
    errcode := stale.errcode }

/-- The registers after the way back from `syscall` (`k-exception.S:156-173`): the callee-saved
registers are the process's, the others what the code of the kernel left in them. -/
def sysReturn (cpu scratch : Regs) (v : Word) : Regs :=
  { cpu with
    rax := v, rcx := scratch.rcx, rdx := scratch.rdx, rsi := scratch.rsi, rdi := scratch.rdi,
    r8 := scratch.r8, r9 := scratch.r9, r10 := scratch.r10, r11 := scratch.r11,
    cs := b.appCode, ss := b.appData }

/-- `syscall` returns `v`. -/
def sysResume (cpu scratch : Regs) (v : Word) (m : Machine) : Except Fault Next :=
  if (m.ptable m.current).state ≠ .runnable then throw .assertion
  else return .user { m with cpu := sysReturn b cpu scratch v }

/-- `syscall` (`kernel.cc:381-433`) between `syscall_entry` and the way back. -/
def syscall (stale : Regstate) (scratch : Regs) (m : Machine) : Except Fault Next :=
  let cpu := m.cpu
  let m := m.save (sysEntry b cpu stale)
  match cpu.rax.toNat with
  | 1 => sysResume b cpu scratch (BitVec.ofNat 64 (m.ptable m.current).pid) m
  | 2 =>
    let p := m.ptable m.current
    schedule b (m.setProc { p with regs := { p.regs with rax := 0 } })
  | 4 => do
    let (r, kernel) ← syscallPageAlloc b.toKernelImage (m.ptable m.current).pid cpu.rdi m.kernel
    sysResume b cpu scratch (BitVec.ofInt 64 r) { m with kernel := kernel }
  | _ => return .panics -- 3 is `user_panic`, 5 and 6 are not implemented

end Entries

/-! ## Runs -/

/-- What happens while a process runs: an instruction changes registers, or stores a byte; an
exception or interrupt; or a system call, with what it finds on the kernel's stack and in the
registers the kernel does not save. -/
inductive Action where
  | compute (regs : Regs)
  | store (va : Word) (x : UInt8)
  | exception (intno : BitVec 32) (errcode : Word)
  | syscall (number : Word) (stale : Regstate) (scratch : Regs)

/-- A step of the current process after which a process is in user mode. -/
inductive MachineStep (b : Board) : Machine → Nat × Action → Machine → Prop
  | compute {m : Machine} {regs : Regs} :
      MachineStep b m (m.current, .compute regs) { m with cpu := regs }
  | store {m : Machine} {va pa perm : Word} {x : UInt8}
      (hread : translate m.kernel.phys (m.kernel.pagetable m.current) va = .ok (pa, perm))
      (hperm : perm &&& ptePWU = ptePWU) : MachineStep b m (m.current, .store va x)
        { m with kernel := { m.kernel with phys := m.kernel.phys.setByte pa.toNat x } }
  | exception {m m' : Machine} {intno : BitVec 32} {errcode : Word}
      (h : exception b intno errcode m = .ok (.user m')) :
      MachineStep b m (m.current, .exception intno errcode) m'
  | syscall {m m' : Machine} {stale : Regstate} {scratch : Regs}
      (h : syscall b stale scratch m = .ok (.user m')) :
      MachineStep b m (m.current, .syscall m.cpu.rax stale scratch) m'

/-- `init_process` (`k-hardware.cc:412-426`) without flags. -/
def initRegs (b : Board) : Regstate :=
  { Regstate.zero with
    cs := b.appCode, fs := b.appData, gs := b.appData, ss := b.appData, rflags := 0x200 }

/-- The process table of `kernel_start` (`kernel.cc:112-128`) with `n` processes; `process_setup`
sets the entry point of the program and the stack pointer. -/
def startProc (b : Board) (n : Nat) (entry : Nat → Word) (i : Nat) : Proc :=
  if 1 ≤ i ∧ i ≤ n then
    { pid := i, state := .runnable
      regs := { initRegs b with
        rip := entry i, rsp := BitVec.ofNat 64 (procStartAddr + procSize * i) } }
  else { pid := i, state := .free, regs := .zero }

/-- `kernel_start` with `n` processes, to the end of the first `run`. -/
def boot (b : Board) (n : Nat) (images : Nat → List Segment) (entry : Nat → Word)
    (word : Nat → Fin 512 → Word) : Except Fault Next := do
  let kernel ← kernelStart b.toKernelImage n images word
  run b 1
    { kernel := kernel, ptable := startProc b n entry, current := 0, ticks := 1
      cpu := Regstate.zero.toRegs }

end SystemsProjects.Weensyos
