import SystemsProjects.Weensyos.Translate

/-!
# Starting the kernel, and `sys_page_alloc`

`init_kernel_memory` (`k-hardware.cc:93-139`), `kernel_start` up to the first `run`
(`kernel.cc:54-131`), `process_setup` (`kernel.cc:195-284`) and `syscall_page_alloc`
(`kernel.cc:441-455`). Of a process descriptor the page table is kept; `next_va`, the registers and
the run state are set but not read by this code. Output to the log is left out.
-/

namespace SystemsProjects.Weensyos
open SystemsProjects.Lib

/-- Where the linker has put the kernel: its page tables are in its own pages, and it ends below its
stack. -/
structure KernelImage where
  kernelEnd : Nat
  ktable : Nat
  start : kernelStartAddr ≤ ktable * pageSize
  tables : (ktable + 5) * pageSize ≤ kernelEnd
  stack : kernelEnd ≤ kernelStackTop - pageSize

def KernelImage.layout (k : KernelImage) : Layout := kernelLayout k.kernelEnd

/-- A segment of a program image. -/
structure Segment where
  va : Nat
  size : Nat
  data : List UInt8
  fits : data.length ≤ size

structure Kernel where
  phys : Phys
  pagetable : Nat → Nat

/-! ## Bytes of memory -/

/-- The word with byte `k` replaced. -/
def setByteOf (w : Word) (k : Nat) (b : UInt8) : Word :=
  (w &&& ~~~((0xFF : Word) <<< (8 * k))) ||| (b.toBitVec.setWidth 64 <<< (8 * k))

/-- The byte at address `a` set to `b`. -/
def Phys.setByte (s : Phys) (a : Nat) (b : UInt8) : Phys :=
  { s with
    word := Function.update s.word (a / pageSize)
      (Function.update (s.word (a / pageSize)) (Fin.ofNat 512 (a % pageSize / 8))
        (setByteOf (s.word (a / pageSize) (Fin.ofNat 512 (a % pageSize / 8))) (a % 8) b)) }

/-- `memcpy` to address `a`. -/
def Phys.setBytes (s : Phys) : Nat → List UInt8 → Phys
  | _, [] => s
  | a, b :: bs => (s.setByte a b).setBytes (a + 1) bs

/-- `assert (physpages[i].refcount == 0); ++physpages[i].refcount`. -/
def Phys.claim (s : Phys) (i : Nat) : Except Fault Phys :=
  if i ≥ memsizePhysical / pageSize then .error .outOfBounds
  else if s.refcount i ≠ 0 then .error .assertion
  else .ok (s.count i)

/-! ## The kernel's own page table -/

/-- `kernel_pagetable[j].entry[i] = e`. -/
def Phys.setEntry (s : Phys) (p : Nat) (i : Fin 512) (e : Word) : Phys :=
  { s with word := Function.update s.word p (Function.update (s.word p) i e) }

/-- `vmiter::map` (`k-vmiter.hh:242-245`). -/
def Vmiter.map (L : Layout) (pa : Word) (perm : BitVec 32) (it : Vmiter) (s : Phys) :
    Except Fault (Vmiter × Phys) := do
  let (r, it, s) ← it.tryMap L pa perm s
  if r ≠ 0 then .error .assertion else .ok (it, s)

/-- The mapping of one page in `init_kernel_memory`, which skips the null page. -/
def mapKernelPage (L : Layout) (it : Vmiter) (s : Phys) : Except Fault (Vmiter × Phys) :=
  if it.va ≠ 0 then it.map L it.va 7 s else .ok (it, s)

/-- The loop of `init_kernel_memory` (`k-hardware.cc:131-137`). -/
def mapKernel (L : Layout) : Nat → Vmiter → Phys → Except Fault Phys
  | 0, _, _ => .error .running
  | rounds + 1, it, s =>
    if it.va.toNat < memsizePhysical then do
      let (it, s) ← mapKernelPage L it s
      let it ← it.find s (it.va + 4096)
      mapKernel L rounds it s
    else .ok s

/-- The tables `init_kernel_memory` fills in by hand (`k-hardware.cc:110-127`). -/
def initTables (t : Nat) (s : Phys) : Phys :=
  let s := ((((s.fill t 0).fill (t + 1) 0).fill (t + 2) 0).fill (t + 3) 0).fill (t + 4) 0
  let s := s.setEntry t 0 (tableEntry (t + 1))
  let s := s.setEntry (t + 1) 0 (tableEntry (t + 2))
  let s := s.setEntry (t + 2) 0 (tableEntry (t + 3))
  let s := s.setEntry (t + 2) 1 (tableEntry (t + 4))
  let s := s.setEntry (t + 1) 1 ((1 <<< 30) ||| pteP ||| pteW ||| ptePS)
  let s := s.setEntry (t + 1) 2 ((2 <<< 30) ||| pteP ||| pteW ||| ptePS)
  s.setEntry (t + 1) 3 ((3 <<< 30) ||| pteP ||| pteW ||| ptePS)

/-- `init_kernel_memory` (`k-hardware.cc:93-139`), the part about page tables. -/
def initKernelMemory (k : KernelImage) (s : Phys) : Except Fault Phys := do
  let s := initTables k.ktable s
  let it ← vmiter s k.ktable 0
  mapKernel k.layout (memsizePhysical / pageSize + 1) it s

/-- The permissions `kernel_start` gives the page at `addr` (`kernel.cc:93-102`). -/
def kernelPerm (addr : Nat) : BitVec 32 :=
  if addr = 0 then 0
  else if addr < procStartAddr ∧ addr ≠ consoleAddr then 3
  else 7

/-- The loop of `kernel_start` (`kernel.cc:82-109`) over the page numbers that are left. -/
def remapKernel (k : KernelImage) : List Nat → Phys → Except Fault Phys
  | [], s => .ok s
  | p :: ps, s => do
    let addr := p * pageSize
    let (r, _, s) ← mapAt k.layout s k.ktable (BitVec.ofNat 64 addr) (BitVec.ofNat 64 addr)
      (kernelPerm addr)
    if r ≠ 0 then .error .assertion else remapKernel k ps s

/-! ## `process_setup` -/

/-- `kalloc_pagetable` (`k-hardware.cc:288-294`). -/
def kallocPagetable (L : Layout) (s : Phys) : Option Nat × Phys :=
  match kalloc L pageSize s with
  | (some p, s) => (some p, s.fill p 0)
  | (none, s) => (none, s)

/-- The loop that maps the kernel's pages without `PTE_U` (`kernel.cc:205-215`). The results of
`try_map` are ignored. -/
def copyKernelMap (L : Layout) : Nat → Vmiter → Vmiter → Phys → Except Fault (Vmiter × Phys)
  | 0, _, _, _ => .error .running
  | rounds + 1, kIt, pIt, s =>
    if pIt.va.toNat < procStartAddr then do
      let (_, pIt, s) ← pIt.tryMap L (kIt.pa s) 1 s
      let kIt ← kIt.next s
      let pIt ← pIt.next s
      copyKernelMap L rounds kIt pIt s
    else .ok (pIt, s)

/-- The loop over the process's pages (`kernel.cc:218-222`). -/
def mapRegion (L : Layout) : List Nat → Vmiter → Phys → Except Fault Phys
  | [], _, s => .ok s
  | a :: as, it, s => do
    let (_, it, s) ← it.tryMap L (BitVec.ofNat 64 a) 7 s
    let it ← it.find s (it.va + 4096)
    mapRegion L as it s

/-- The page numbers of a segment: `a` from `round_down (va)` while `a < va + size`. -/
def Segment.pages (seg : Segment) : List Nat :=
  List.range' (seg.va / pageSize) ((seg.va % pageSize + seg.size + pageSize - 1) / pageSize)

def claimPages : List Nat → Phys → Except Fault Phys
  | [], s => .ok s
  | p :: ps, s => do
    let s ← s.claim p
    claimPages ps s

/-- `memset` and `memcpy` of a segment (`kernel.cc:266-267`). -/
def Segment.load (s : Phys) (seg : Segment) : Phys :=
  (s.setBytes seg.va (List.replicate seg.size 0)).setBytes seg.va seg.data

/-- The page number of the stack page of process `pid`. -/
def stackPage (pid : Nat) : Nat := (procStartAddr + procSize * pid - pageSize) / pageSize

/-- `process_setup` (`kernel.cc:195-284`): the page table. -/
def setupTable (k : KernelImage) (s : Phys) : Except Fault (Nat × Phys) := do
  let (pt, s) := kallocPagetable k.layout s
  let t := pt.getD 0
  let kIt ← vmiter s k.ktable 4096
  let pIt ← vmiter s t 4096
  let (pIt, s) ← copyKernelMap k.layout (procStartAddr / pageSize) kIt pIt s
  let pIt ← pIt.find s (BitVec.ofNat 64 procStartAddr)
  let s ← mapRegion k.layout
    ((List.range (procSize / pageSize)).map fun j => procStartAddr + j * pageSize) pIt s
  .ok (t, s)

/-- `process_setup` (`kernel.cc:195-284`) with the segments of the program image. -/
def processSetup (k : KernelImage) (pid : Nat) (image : List Segment) (st : Kernel) :
    Except Fault Kernel := do
  let (t, s) ← setupTable k st.phys
  let s ← claimPages (image.flatMap Segment.pages) s
  let s := image.foldl Segment.load s
  let s ← s.claim (stackPage pid)
  .ok { phys := s, pagetable := Function.update st.pagetable pid t }

/-- `process_setup` for the processes from `pid` on. -/
def setupFrom (k : KernelImage) (images : Nat → List Segment) : (left pid : Nat) → Kernel →
    Except Fault Kernel
  | 0, _, st => .ok st
  | left + 1, pid, st => do
    let st ← processSetup k pid (images pid) st
    setupFrom k images left (pid + 1) st

/-- `kernel_start` with `n` processes, from memory with the contents `word`. -/
def kernelStart (k : KernelImage) (n : Nat) (images : Nat → List Segment)
    (word : Nat → Fin 512 → Word) : Except Fault Kernel := do
  let s ← initKernelMemory k { word := word, refcount := fun _ => 0 }
  let s ← remapKernel k (List.range (memsizePhysical / pageSize)) s
  setupFrom k images n 1 { phys := s, pagetable := fun _ => 0 }

/-! ## `sys_page_alloc` -/

/-- `syscall_page_alloc` (`kernel.cc:441-455`) called by process `pid`. -/
def syscallPageAlloc (k : KernelImage) (pid : Nat) (addr : Word) (st : Kernel) :
    Except Fault (Int × Kernel) :=
  if addr.toNat < procStartAddr ∨ addr.toNat > memsizePhysical ∨ addr.toNat % pageSize ≠ 0 then
    .ok (-1, st)
  else if addr.toNat / pageSize ≥ memsizePhysical / pageSize then .error .outOfBounds
  else if st.phys.refcount (addr.toNat / pageSize) ≠ 0 then .error .assertion
  else do
    let (r, _, s) ← mapAt k.layout st.phys (st.pagetable pid) addr addr 7
    if r ≠ 0 then .ok (-1, { st with phys := s })
    else .ok (0,
      { st with phys := (s.count (addr.toNat / pageSize)).fill (addr.toNat / pageSize) 0 })

end SystemsProjects.Weensyos
