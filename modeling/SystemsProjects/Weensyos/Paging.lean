import Mathlib.Logic.Function.Basic
import Mathlib.Tactic.IntervalCases
import Mathlib.Tactic.SplitIfs

/-!
# Physical memory and page tables

The page allocator `kalloc` (`lab4-TheCarton-main/kernel.cc:157-171`) and the page-table iterator
`vmiter` (`k-vmiter.cc`, `k-vmiter.hh`) over physical memory. The kernel maps physical memory to
itself, so a pointer is a physical address; memory is kept as pages of 512 words.
-/

namespace SystemsProjects.Weensyos

/-- The ways a call does not return: a failed `assert`, a `panic`, an access outside an object, from
where on C++ prescribes nothing, and a loop that is not over after the rounds it was given. -/
inductive Fault where
  | assertion
  | panic
  | outOfBounds
  | running
  deriving DecidableEq, Repr

abbrev Word := BitVec 64

/-! ## Page entries (`x86-64.h:15-67`) -/

def pageSize : Nat := 4096

instance neZero_entries : NeZero 512 := ⟨by decide⟩

def pteP : Word := 0x1
def pteW : Word := 0x2
def pteU : Word := 0x4
def ptePWU : Word := 0x7
def ptePS : Word := 0x80
def ptePamask : Word := 0x000FFFFFFFFFF000

def vaLowmax : Word := 0x00007FFFFFFFFFFF
def vaHighmin : Word := 0xFFFF800000000000

def pageindex (addr : Word) (level : Nat) : Fin 512 :=
  Fin.ofNat 512 (addr >>> (12 + level * 9)).toNat

def pageoffmask (level : Nat) : Word := (1 <<< (12 + level * 9)) - 1

def vaIsCanonical (va : Word) : Bool := decide (va ≤ vaLowmax) || decide (va ≥ vaHighmin)

/-- The number of the page a page entry refers to. -/
def pageOf (e : Word) : Nat := ((e &&& ptePamask) >>> 12).toNat

/-- The address of page `p`. -/
def addrOf (p : Nat) : Word := BitVec.ofNat 64 p <<< 12

/-! ## Physical memory -/

/-- The pages of physical memory and the reference counts of `physpages`. -/
structure Phys where
  word : Nat → Fin 512 → Word
  refcount : Nat → Nat

/-- Which pages `kalloc` gives out. The null page is not among them, and memory ends below 4 GiB. -/
structure Layout where
  npages : Nat
  allocatable : Nat → Bool
  nonnull : allocatable 0 = false
  small : npages ≤ 2 ^ 20

/-! The constants of the layout comment (`kernel.cc:12-25`); `kernel.hh` is not in the repository.
-/

def memsizePhysical : Nat := 0x200000
def kernelStartAddr : Nat := 0x40000
def kernelStackTop : Nat := 0x80000
def procStartAddr : Nat := 0x100000
def procSize : Nat := 0x40000
def consoleAddr : Nat := 0xB8000

def roundUp (a m : Nat) : Nat := (a + m - 1) / m * m

/-- `reserved_physical_address` (`k-hardware.cc:327-329`). -/
def reservedPhysicalAddress (pa : Nat) : Bool :=
  decide (pa < pageSize) || (decide (pa ≥ 0xA0000) && decide (pa < 0x100000))

/-- `allocatable_physical_address` (`k-hardware.cc:336-344`); `kernelEnd` is the address of
`_kernel_end`. -/
def allocatablePhysicalAddress (kernelEnd pa : Nat) : Bool :=
  !reservedPhysicalAddress pa &&
    (decide (pa < kernelStartAddr) || decide (pa ≥ roundUp kernelEnd pageSize)) &&
    (decide (pa < kernelStackTop - pageSize) || decide (pa ≥ kernelStackTop)) &&
    decide (pa < memsizePhysical)

/-- The layout of the kernel, with memory up to `MEMSIZE_PHYSICAL`. -/
def kernelLayout (kernelEnd : Nat) : Layout where
  npages := memsizePhysical / pageSize
  allocatable := fun p => allocatablePhysicalAddress kernelEnd (p * pageSize)
  nonnull := by simp [allocatablePhysicalAddress, reservedPhysicalAddress, pageSize]
  small := by decide

/-- `memset` of a whole page, to a word of equal bytes. -/
def Phys.fill (s : Phys) (p : Nat) (w : Word) : Phys :=
  { s with word := Function.update s.word p fun _ => w }

/-- `++physpages[p].refcount`. -/
def Phys.count (s : Phys) (p : Nat) : Phys :=
  { s with refcount := Function.update s.refcount p (s.refcount p + 1) }

/-- The test of `kalloc`. -/
def Phys.free (L : Layout) (s : Phys) (p : Nat) : Bool := L.allocatable p && s.refcount p == 0

/-- `kalloc` (`kernel.cc:157-171`): the number of the page, or `none` for `nullptr`. -/
def kalloc (L : Layout) (sz : Nat) (s : Phys) : Option Nat × Phys :=
  if sz > pageSize then (none, s)
  else
    match (List.range L.npages).find? (s.free L) with
    | some p => (some p, (s.count p).fill p 0xCCCCCCCCCCCCCCCC)
    | none => (none, s)

/-! ## `vmiter` -/

/-- A pointer to a page entry: to the constant `zero_pe`, or into a page. -/
inductive Pep where
  | zero
  | entry (page : Nat) (i : Fin 512)
  deriving DecidableEq

def Phys.load (s : Phys) : Pep → Word
  | .zero => 0
  | .entry p i => s.word p i

/-- `*pep_ = w`. The entry `zero_pe` is constant. -/
def Phys.store (s : Phys) (w : Word) : Pep → Except Fault Phys
  | .zero => .error .outOfBounds
  | .entry p i => .ok { s with word := Function.update s.word p (Function.update (s.word p) i w) }

structure Vmiter where
  pt : Nat
  pep : Pep
  level : Nat
  permMask : BitVec 32
  va : Word

def initialPerm : BitVec 32 := 0xFFF

/-- The loop of `vmiter::down`, over the levels that are left. -/
def Vmiter.descend (s : Phys) : Nat → Vmiter → Vmiter
  | 0, it => it
  | l + 1, it =>
    if s.load it.pep &&& (pteP ||| ptePS) = pteP then
      Vmiter.descend s l
        { it with
          permMask := (it.permMask.signExtend 64 &&& (s.load it.pep ||| ~~~ptePWU)).setWidth 32
          level := l
          pep := .entry (pageOf (s.load it.pep)) (pageindex it.va l) }
    else it

/-- `vmiter::down` (`k-vmiter.cc:28-40`). -/
def Vmiter.down (s : Phys) (it : Vmiter) : Except Fault Vmiter :=
  let it := Vmiter.descend s it.level it
  if s.load it.pep &&& ptePamask ≥ 0x100000000 then .error .panic else .ok it

/-- `pep_ += i - curidx`: entry `i` of the same table. With `pep_` at `zero_pe` the level is 3, and
`real_find` does not move it. -/
def Pep.moveTo (i : Fin 512) : Pep → Pep
  | .zero => .zero
  | .entry p _ => .entry p i

/-- `vmiter::real_find` (`k-vmiter.cc:42-58`). -/
def Vmiter.realFind (s : Phys) (va : Word) (it : Vmiter) : Except Fault Vmiter :=
  let it :=
    if it.level = 3 ∨ (it.va ^^^ va) &&& ~~~pageoffmask (it.level + 1) ≠ 0 then
      if vaIsCanonical va then
        { it with level := 3, permMask := initialPerm, pep := .entry it.pt (pageindex va 3) }
      else { it with level := 3, permMask := 0, pep := .zero }
    else { it with pep := it.pep.moveTo (pageindex va it.level) }
  Vmiter.down s { it with va := va }

/-- `vmiter (pt, va)` (`k-vmiter.hh:159-162`). -/
def vmiter (s : Phys) (pt : Nat) (va : Word) : Except Fault Vmiter :=
  Vmiter.realFind s va
    { pt := pt, pep := .entry pt 0, level := 3, permMask := initialPerm, va := 0 }

/-- `vmiter::pa` (`k-vmiter.hh:175-185`). -/
def Vmiter.pa (s : Phys) (it : Vmiter) : Word :=
  if s.load it.pep &&& pteP ≠ 0 then
    let pa := s.load it.pep &&& ptePamask
    let pa := if it.level > 0 then pa &&& ~~~0x1000 else pa
    pa + (it.va &&& pageoffmask it.level)
  else -1

/-- `vmiter::perm` (`k-vmiter.hh:194-199`). -/
def Vmiter.perm (s : Phys) (it : Vmiter) : Word :=
  let ph := s.load it.pep &&& it.permMask.signExtend 64
  ph &&& -(ph &&& pteP)

/-- `vmiter::find` (`k-vmiter.hh:215-220`). -/
def Vmiter.find (s : Phys) (va : Word) (it : Vmiter) : Except Fault Vmiter :=
  if va ≠ it.va then it.realFind s va else .ok it

/-- `vmiter::next` (`k-vmiter.cc:60-66`). -/
def Vmiter.next (s : Phys) (it : Vmiter) : Except Fault Vmiter :=
  let level := if it.level > 0 ∧ it.perm s = 0 then it.level else 0
  it.realFind s ((it.va ||| pageoffmask level) + 1)

/-! ## `vmiter::try_map` -/

/-- The entry `try_map` stores for a new table in page `pt`. -/
def tableEntry (pt : Nat) : Word := addrOf pt ||| pteP ||| pteW ||| pteU

/-- The bits below a page address are clear. -/
theorem addrOf_and (p : Nat) {mask : Word} (h : mask &&& 0xFFF = mask) : addrOf p &&& mask = 0 := by
  have hlow : addrOf p &&& 0xFFF = 0 := by
    apply BitVec.eq_of_toNat_eq
    rw [BitVec.toNat_and, show (0xFFF : Word).toNat = 2 ^ 12 - 1 from rfl,
      Nat.and_two_pow_sub_one_eq_mod, addrOf, BitVec.toNat_shiftLeft, Nat.shiftLeft_eq]
    show _ = 0
    omega
  rw [← h, BitVec.and_comm mask, ← BitVec.and_assoc, hlow]
  exact BitVec.zero_and

theorem tableEntry_present (pt : Nat) : tableEntry pt &&& (pteP ||| ptePS) = pteP := by
  simp only [tableEntry, BitVec.and_or_distrib_right]
  rw [addrOf_and pt (by decide)]
  decide

theorem Vmiter.descend_level (s : Phys) (l : Nat) (it : Vmiter) (h : l ≤ it.level) :
    (Vmiter.descend s l it).level ≤ it.level := by
  induction l generalizing it with
  | zero => exact Nat.le_refl it.level
  | succ l ih =>
    unfold Vmiter.descend
    split_ifs
    · exact Nat.le_trans (ih _ (Nat.le_refl l)) (Nat.le_of_succ_le h)
    · exact Nat.le_refl it.level

/-- A present entry that is no large page leads down by a level at least. -/
theorem Vmiter.down_level {s : Phys} {it it' : Vmiter} (h : it.down s = .ok it')
    (hlevel : 0 < it.level) (hpe : s.load it.pep &&& (pteP ||| ptePS) = pteP) :
    it'.level < it.level := by
  obtain ⟨l, hl⟩ := Nat.exists_eq_succ_of_ne_zero (Nat.ne_of_gt hlevel)
  unfold Vmiter.down at h
  rw [hl, Vmiter.descend, if_pos hpe] at h
  dsimp only at h
  split_ifs at h
  obtain rfl := Except.ok.inj h
  rw [hl]
  exact Nat.lt_succ_of_le (Vmiter.descend_level s l _ (Nat.le_refl l))

theorem Phys.load_store {s s' : Phys} {w : Word} {pep : Pep} (h : s.store w pep = .ok s') :
    s'.load pep = w := by
  cases pep with
  | zero => exact absurd h (by simp [Phys.store])
  | entry p i =>
    obtain rfl := Except.ok.inj h
    simp only [Phys.load, Function.update_self]

/-- The loop of `vmiter::try_map`. The result says whether it ended without `return -1`. -/
def Vmiter.linkTables (L : Layout) (perm : BitVec 32) (it : Vmiter) (s : Phys) :
    Except Fault (Bool × Vmiter × Phys) :=
  if _h : 0 < it.level ∧ perm ≠ 0 then
    if s.load it.pep &&& pteP ≠ 0 then .error .assertion
    else
      match kalloc L pageSize s with
      | (none, s) => .ok (false, it, s)
      | (some pt, s) =>
        match _hs : (s.fill pt 0).store (tableEntry pt) it.pep with
        | .error f => .error f
        | .ok s =>
          match _hd : it.down s with
          | .error f => .error f
          | .ok it => it.linkTables L perm s
  else .ok (true, it, s)
termination_by it.level
decreasing_by
  exact Vmiter.down_level _hd _h.1 (by rw [Phys.load_store _hs, tableEntry_present])

/-- `vmiter::try_map` (`k-vmiter.cc:68-100`): the return value, the iterator and memory. -/
def Vmiter.tryMap (L : Layout) (pa : Word) (perm : BitVec 32) (it : Vmiter) (s : Phys) :
    Except Fault (Int × Vmiter × Phys) := do
  let pa := if pa = -1 ∧ perm = 0 then 0 else pa
  if it.va % 4096 ≠ 0 then .error .assertion
  else if perm.signExtend 64 &&& pteP ≠ 0 ∧ (pa = -1 ∨ pa &&& ptePamask ≠ pa) then
    .error .assertion
  else if perm.signExtend 64 &&& pteP = 0 ∧ pa &&& pteP ≠ 0 then .error .assertion
  else if (perm &&& ~~~it.permMask).signExtend 64 &&& ptePWU ≠ 0 then .error .assertion
  else
    let (done, it, s) ← it.linkTables L perm s
    if !done then .ok (-1, it, s)
    else if it.level = 0 then do
      let s ← s.store (pa ||| perm.signExtend 64) it.pep
      .ok (0, it, s)
    else .ok (0, it, s)

/-- `vmiter (pt, va).try_map (pa, perm)`. -/
def mapAt (L : Layout) (s : Phys) (pt : Nat) (va pa : Word) (perm : BitVec 32) :
    Except Fault (Int × Vmiter × Phys) := do
  let it ← vmiter s pt va
  it.tryMap L pa perm s

/-- `pa ()` and `perm ()` of a fresh `vmiter (pt, va)`. -/
def translate (s : Phys) (pt : Nat) (va : Word) : Except Fault (Word × Word) := do
  let it ← vmiter s pt va
  .ok (it.pa s, it.perm s)

end SystemsProjects.Weensyos
