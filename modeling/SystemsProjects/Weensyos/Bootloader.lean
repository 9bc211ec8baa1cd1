import SystemsProjects.Weensyos.Paging

/-!
# The boot loader

`boot` (`boot.cc:39-61`) reads the first page of the kernel image from the disk and then loads the
segments its program headers name. A segment is read in whole sectors, so that it also overwrites
what is before and behind it in its first and last sector. How a header is laid out is a parameter,
for `elf.h` is not in the repository. The loader's own code, stack and page table are not part of
the memory here.
-/

namespace SystemsProjects.Weensyos.Bootloader

abbrev Mem := Word → UInt8

/-- The bytes of the sectors; the second drive begins with sector `2 ^ 28`. -/
abbrev Drives := Nat → Nat → UInt8

/-- A program header. -/
structure ElfProgram where
  va : Word
  offset : Word
  filesz : Word
  memsz : Word

/-- What `boot` reads of the header at `ELFHDR`, and the program header at an address. -/
structure ElfFormat where
  magic : Mem → Bool
  entry : Mem → Word
  phoff : Mem → Word
  phnum : Mem → Nat
  program : Mem → Word → ElfProgram
  programSize : Word

def elfhdr : Word := 0x3000

section Boot
variable (ata : Drives)

/-- `boot_readsect` (`boot.cc:102-115`): 29 bits of the sector number reach the controller. -/
def bootReadsect (dst : Word) (srcSect : BitVec 32) (mem : Mem) : Mem := fun a =>
  if (a - dst).toNat < 512 then ata (srcSect.toNat % 2 ^ 29) (a - dst).toNat else mem a

/-- The loop that reads sectors, with a bound on its rounds. -/
def readSectors : (rounds : Nat) → (ptr endPtr : Word) → BitVec 32 → Mem → Except Fault Mem
  | 0, _, _, _, _ => .error .running
  | rounds + 1, ptr, endPtr, srcSect, mem =>
    if ptr < endPtr then
      readSectors rounds (ptr + 512) endPtr (srcSect + 1) (bootReadsect ata ptr srcSect mem)
    else .ok mem

/-- The loop that clears memory, with a bound on its rounds. -/
def clearBss : (rounds : Nat) → (endPtr memEnd : Word) → Mem → Except Fault Mem
  | 0, _, _, _ => .error .running
  | rounds + 1, endPtr, memEnd, mem =>
    if endPtr < memEnd then clearBss rounds (endPtr + 1) memEnd (Function.update mem endPtr 0)
    else .ok mem

/-- `boot_readseg` (`boot.cc:69-86`). A loop that ends does so within as many rounds as its end has
addresses below it. -/
def bootReadseg (ptr : Word) (srcSect : BitVec 32) (filesz memsz : Word) (mem : Mem) :
    Except Fault Mem := do
  let endPtr := ptr + filesz
  let memEnd := memsz + ptr
  let mem ← readSectors ata (endPtr.toNat + 1) (ptr &&& ~~~(511 : Word)) endPtr srcSect mem
  clearBss (memEnd.toNat + 1) endPtr memEnd mem

variable (elf : ElfFormat)

/-- The loop over the program headers, from the one at `p` on. Each is read when it is its turn. -/
def loadSegments : (left : Nat) → (p : Word) → Mem → Except Fault Mem
  | 0, _, mem => .ok mem
  | left + 1, p, mem => do
    let ph := elf.program mem p
    let mem ← bootReadseg ata ph.va (1 + (ph.offset / 512).setWidth 32) ph.filesz ph.memsz mem
    loadSegments left (p + elf.programSize) mem

/-- `boot`: memory and the address it jumps to. Without the magic number it waits forever. -/
def boot (mem : Mem) : Except Fault (Mem × Word) := do
  let mem ← bootReadseg ata elfhdr 1 4096 4096 mem
  if elf.magic mem then
    let mem ← loadSegments ata elf (elf.phnum mem) (elfhdr + elf.phoff mem) mem
    return (mem, elf.entry mem)
  else .error .running

end Boot

/-! ## The two loops -/

/-- One sector and then those behind it, as one window. -/
theorem sector_window {α : Type} (f : Nat → Nat → α) (other : α) {n p x s : Nat} (hp : p < 2 ^ 64)
    (hx : x < 2 ^ 64) (hwrap : p + 512 * (n + 1) < 2 ^ 64) (hs : s + (n + 1) ≤ 2 ^ 28) :
    (if p + 512 ≤ x ∧ x < p + 512 + 512 * n then
      f (s + 1 + (x - (p + 512)) / 512) ((x - (p + 512)) % 512)
      else if (2 ^ 64 - p + x) % 2 ^ 64 < 512 then f (s % 2 ^ 29) ((2 ^ 64 - p + x) % 2 ^ 64)
      else other) =
      if p ≤ x ∧ x < p + 512 * (n + 1) then f (s + (x - p) / 512) ((x - p) % 512) else other := by
  by_cases hrest : p + 512 ≤ x ∧ x < p + 512 + 512 * n
  · have hin : p ≤ x ∧ x < p + 512 * (n + 1) := by omega
    have hdiv : s + 1 + (x - (p + 512)) / 512 = s + (x - p) / 512 := by omega
    have hmod : (x - (p + 512)) % 512 = (x - p) % 512 := by omega
    rw [if_pos hrest, if_pos hin, hdiv, hmod]
  · rw [if_neg hrest]
    by_cases hhere : p ≤ x ∧ x < p + 512
    · have hin : p ≤ x ∧ x < p + 512 * (n + 1) :=
        ⟨hhere.1, lt_of_lt_of_le hhere.2
          (Nat.add_le_add_left (Nat.le_mul_of_pos_right 512 n.succ_pos) p)⟩
      have hsub : (2 ^ 64 - p + x) % 2 ^ 64 = x - p := by omega
      have hsect : s % 2 ^ 29 = s + (x - p) / 512 := by omega
      have hmod : (x - p) % 512 = x - p := by omega
      have hlt : (2 ^ 64 - p + x) % 2 ^ 64 < 512 := by omega
      rw [if_pos hlt, if_pos hin]
      exact congrArg₂ f hsect (hsub.trans hmod.symm)
    · have hout : ¬ (p ≤ x ∧ x < p + 512 * (n + 1)) := by
        rintro ⟨hle, hlt⟩
        rcases lt_or_ge x (p + 512) with h | h
        · exact hhere ⟨hle, h⟩
        · exact hrest ⟨h, by rwa [Nat.add_assoc, Nat.add_comm 512, ← Nat.mul_succ]⟩
      have hsub : ¬ (2 ^ 64 - p + x) % 2 ^ 64 < 512 := by omega
      rw [if_neg hsub, if_neg hout]

/-- `n` sectors from a pointer on, when the last of them is the first to reach the end. -/
theorem readSectors_eq (ata : Drives) (n rounds : Nat) (ptr endPtr : Word) (srcSect : BitVec 32)
    (mem : Mem) (hwrap : ptr.toNat + 512 * n < 2 ^ 64) (hend : endPtr.toNat ≤ ptr.toNat + 512 * n)
    (hlast : n = 0 ∨ ptr.toNat + 512 * (n - 1) < endPtr.toNat) (hsect : srcSect.toNat + n ≤ 2 ^ 28)
    (hrounds : n ≤ rounds) :
    ∃ mem', readSectors ata (rounds + 1) ptr endPtr srcSect mem = .ok mem' ∧
      ∀ a, mem' a = if ptr.toNat ≤ a.toNat ∧ a.toNat < ptr.toNat + 512 * n
        then ata (srcSect.toNat + (a.toNat - ptr.toNat) / 512) ((a.toNat - ptr.toNat) % 512)
        else mem a := by
  induction n generalizing rounds ptr srcSect mem with
  | zero =>
    have hge : ¬ ptr < endPtr := by
      rw [BitVec.lt_def]
      omega
    refine ⟨mem, if_neg hge, fun a => (if_neg ?_).symm⟩
    omega
  | succ n ih =>
    obtain ⟨rounds, rfl⟩ : ∃ r, rounds = r + 1 := ⟨rounds - 1, by omega⟩
    have hptr : (ptr + 512).toNat = ptr.toNat + 512 := by
      rw [BitVec.toNat_add]
      change (ptr.toNat + 512) % 2 ^ 64 = _
      omega
    have hnext : (srcSect + 1).toNat = srcSect.toNat + 1 := by
      rw [BitVec.toNat_add]
      change (srcSect.toNat + 1) % 2 ^ 32 = _
      omega
    have hlt : ptr < endPtr := by
      rw [BitVec.lt_def]
      omega
    obtain ⟨mem', hread, hmem⟩ :=
      ih rounds (ptr + 512) (srcSect + 1) (bootReadsect ata ptr srcSect mem)
      (by rw [hptr]; omega) (by rw [hptr]; omega) (by rw [hptr]; omega) (by rw [hnext]; omega)
      (Nat.le_of_succ_le_succ hrounds)
    refine ⟨mem', ?_, fun a => ?_⟩
    · rw [readSectors, if_pos hlt]
      exact hread
    · rw [hmem a, hptr, hnext, bootReadsect, BitVec.toNat_sub]
      exact sector_window ata (mem a) ptr.isLt a.isLt hwrap hsect

theorem clearBss_eq (n rounds : Nat) (endPtr memEnd : Word) (mem : Mem)
    (hn : n = memEnd.toNat - endPtr.toNat) (hrounds : n ≤ rounds) :
    ∃ mem', clearBss (rounds + 1) endPtr memEnd mem = .ok mem' ∧
      ∀ a, mem' a = if endPtr.toNat ≤ a.toNat ∧ a.toNat < memEnd.toNat then 0 else mem a := by
  induction n generalizing rounds endPtr mem with
  | zero =>
    have hge : ¬ endPtr < memEnd := by
      rw [BitVec.lt_def]
      omega
    refine ⟨mem, if_neg hge, fun a => (if_neg ?_).symm⟩
    omega
  | succ n ih =>
    obtain ⟨rounds, rfl⟩ : ∃ r, rounds = r + 1 := ⟨rounds - 1, by omega⟩
    have hmemEnd := memEnd.isLt
    have hnext : (endPtr + 1).toNat = endPtr.toNat + 1 := by
      rw [BitVec.toNat_add]
      change (endPtr.toNat + 1) % 2 ^ 64 = _
      omega
    have hlt : endPtr < memEnd := by
      rw [BitVec.lt_def]
      omega
    obtain ⟨mem', hclear, hmem⟩ := ih rounds (endPtr + 1) (Function.update mem endPtr 0)
      (by rw [hnext]; omega) (Nat.le_of_succ_le_succ hrounds)
    refine ⟨mem', ?_, fun a => ?_⟩
    · rw [clearBss, if_pos hlt]
      exact hclear
    · rw [hmem a, hnext]
      by_cases ha : a = endPtr
      · subst ha
        have hin : a.toNat ≤ a.toNat ∧ a.toNat < memEnd.toNat := by omega
        rw [if_neg (fun h => Nat.not_succ_le_self _ h.1), if_pos hin, Function.update_self]
      · have hne : a.toNat ≠ endPtr.toNat := fun h => ha (BitVec.eq_of_toNat_eq h)
        rw [Function.update_of_ne ha]
        refine ite_congr (propext ?_) (fun _ => rfl) (fun _ => rfl)
        omega

/-! ## One segment -/

theorem low_bits : ∀ i : Fin 64, (511 : Word).getLsbD i = decide (i.val < 9) := by decide

theorem toNat_align (va : Word) : (va &&& ~~~(511 : Word)).toNat = va.toNat - va.toNat % 512 := by
  have hshift : va &&& ~~~(511 : Word) = va >>> 9 <<< 9 := by
    refine BitVec.eq_of_getLsbD_eq fun i hi => ?_
    have hlow := low_bits ⟨i, hi⟩
    rw [BitVec.getLsbD_and, BitVec.getLsbD_not, hlow, BitVec.getLsbD_shiftLeft,
      BitVec.getLsbD_ushiftRight]
    by_cases h : i < 9
    · simp [h]
    · simp [h, hi, Nat.add_sub_cancel' (Nat.le_of_not_lt h)]
  rw [hshift, BitVec.toNat_shiftLeft, BitVec.toNat_ushiftRight, Nat.shiftLeft_eq,
    Nat.shiftRight_eq_div_pow]
  have hva := va.isLt
  omega

/-- Byte `j` of the kernel image, which begins at sector 1. -/
def imageByte (ata : Drives) (j : Nat) : UInt8 := ata (1 + j / 512) (j % 512)

namespace ElfProgram
variable (ph : ElfProgram)

/-- The sectors a segment is read from. -/
def sectors : Nat := (ph.va.toNat % 512 + ph.filesz.toNat + 511) / 512

/-- Where the first of them goes. -/
def base : Nat := ph.va.toNat - ph.va.toNat % 512

/-- Where the segment ends in memory. -/
def memEnd : Nat := ph.va.toNat + max ph.filesz.toNat ph.memsz.toNat

/-- What loading the segment may write. -/
def Writes (a : Nat) : Prop := ph.base ≤ a ∧ (a < ph.base + 512 * ph.sectors ∨ a < ph.memEnd)

/-- What the segment holds. -/
def Holds (a : Nat) : Prop := ph.va.toNat ≤ a ∧ a < ph.memEnd

/-- A segment lies in memory as it lies in its sectors, on the first drive and in the gigabyte that
`init_boot_pagetable` (`bootentry.S:53`) maps to itself. -/
structure Fits : Prop where
  aligned : ph.offset.toNat % 512 = ph.va.toNat % 512
  onDisk : 1 + ph.offset.toNat / 512 + ph.sectors ≤ 2 ^ 28
  sectorsBelow : ph.base + 512 * ph.sectors ≤ 2 ^ 30
  memBelow : ph.memEnd ≤ 2 ^ 30

/-- The segment is in memory: its bytes of the image, and zeros behind them. -/
structure Loaded (ata : Drives) (mem : Mem) : Prop where
  file : ∀ a : Word, ph.va.toNat ≤ a.toNat → a.toNat < ph.va.toNat + ph.filesz.toNat →
    mem a = imageByte ata (ph.offset.toNat + (a.toNat - ph.va.toNat))
  bss : ∀ a : Word, ph.va.toNat + ph.filesz.toNat ≤ a.toNat →
    a.toNat < ph.va.toNat + ph.memsz.toNat →
    mem a = 0

variable {ph} {ata : Drives} {mem mem' : Mem}

theorem file_le_memEnd (ph : ElfProgram) : ph.va.toNat + ph.filesz.toNat ≤ ph.memEnd :=
  Nat.add_le_add_left (le_max_left _ _) _

theorem bss_le_memEnd (ph : ElfProgram) : ph.va.toNat + ph.memsz.toNat ≤ ph.memEnd :=
  Nat.add_le_add_left (le_max_right _ _) _

theorem Writes.not_holds {ph' : ElfProgram} {a : Nat} (h : ph'.Writes a)
    (hle : ph.memEnd ≤ ph'.base) :
    ¬ ph.Holds a :=
  fun hholds => absurd (lt_of_lt_of_le hholds.2 hle) (Nat.not_lt_of_le h.1)

theorem Loaded.congr (h : ph.Loaded ata mem)
    (hsame : ∀ a : Word, ph.Holds a.toNat → mem' a = mem a) :
    ph.Loaded ata mem' where
  file a hle hlt := by
    have hholds : ph.Holds a.toNat := ⟨hle, lt_of_lt_of_le hlt ph.file_le_memEnd⟩
    rw [hsame a hholds]
    exact h.file a hle hlt
  bss a hle hlt := by
    have hholds : ph.Holds a.toNat :=
      ⟨le_trans (Nat.le_add_right _ _) hle, lt_of_lt_of_le hlt ph.bss_le_memEnd⟩
    rw [hsame a hholds]
    exact h.bss a hle hlt

theorem Fits.bootReadseg_ok (h : ph.Fits) (ata : Drives) (mem : Mem) :
    ∃ mem', bootReadseg ata ph.va (1 + (ph.offset / 512).setWidth 32) ph.filesz ph.memsz mem =
        .ok mem' ∧
      ph.Loaded ata mem' ∧ ∀ a : Word, ¬ ph.Writes a.toNat → mem' a = mem a := by
  obtain ⟨haligned, honDisk, hsectors, hbelow⟩ := h
  have hmem : ph.memEnd < 2 ^ 64 := lt_of_le_of_lt hbelow (by decide)
  have hva := ph.va.isLt
  have hbase := toNat_align ph.va
  have hend : (ph.va + ph.filesz).toNat = ph.va.toNat + ph.filesz.toNat :=
    BitVec.toNat_add_of_lt (lt_of_le_of_lt ph.file_le_memEnd hmem)
  have hmemEnd : (ph.memsz + ph.va).toNat = ph.va.toNat + ph.memsz.toNat := by
    rw [BitVec.add_comm]
    exact BitVec.toNat_add_of_lt (lt_of_le_of_lt ph.bss_le_memEnd hmem)
  have hsect :
      (1 + (ph.offset / 512).setWidth 32 : BitVec 32).toNat = 1 + ph.offset.toNat / 512 := by
    rw [BitVec.toNat_add, BitVec.toNat_setWidth, BitVec.toNat_udiv]
    change (1 + ph.offset.toNat / 512 % 2 ^ 32) % 2 ^ 32 = _
    omega
  obtain ⟨mem₁, hread, hmem₁⟩ := readSectors_eq ata ph.sectors (ph.va + ph.filesz).toNat
    (ph.va &&& ~~~(511 : Word)) (ph.va + ph.filesz) (1 + (ph.offset / 512).setWidth 32) mem
    (by rw [hbase]; exact lt_of_le_of_lt hsectors (by decide)) (by rw [hbase, hend, sectors]; omega)
    (by rw [hbase, hend, sectors]; omega) (by rw [hsect]; exact honDisk)
    (by rw [hend, sectors]; omega)
  obtain ⟨mem₂, hclear, hmem₂⟩ := clearBss_eq _ (ph.memsz + ph.va).toNat (ph.va + ph.filesz)
    (ph.memsz + ph.va) mem₁ rfl (Nat.sub_le _ _)
  refine ⟨mem₂, ?_, ⟨fun a hle hlt => ?_, fun a hle hlt => ?_⟩, fun a hout => ?_⟩
  · simp only [bootReadseg, hread]
    exact hclear
  · have hnotBss : ¬ (ph.va.toNat + ph.filesz.toNat ≤ a.toNat ∧
        a.toNat < ph.va.toNat + ph.memsz.toNat) :=
      fun h => absurd h.1 (Nat.not_le_of_lt hlt)
    have hin : ph.base ≤ a.toNat ∧ a.toNat < ph.base + 512 * ph.sectors := by
      unfold base sectors
      omega
    have hdiv : 1 + ph.offset.toNat / 512 + (a.toNat - ph.base) / 512 =
        1 + (ph.offset.toNat + (a.toNat - ph.va.toNat)) / 512 := by
      unfold base
      omega
    have hmod : (a.toNat - ph.base) % 512 = (ph.offset.toNat + (a.toNat - ph.va.toNat)) % 512 := by
      unfold base
      omega
    rw [hmem₂ a, hend, hmemEnd, if_neg hnotBss, hmem₁ a, hbase, hsect]
    change (if ph.base ≤ a.toNat ∧ a.toNat < ph.base + 512 * ph.sectors then _ else _) = _
    rw [if_pos hin]
    exact congrArg₂ ata hdiv hmod
  · rw [hmem₂ a, hend, hmemEnd, if_pos ⟨hle, hlt⟩]
  · have hnotBss : ¬ (ph.va.toNat + ph.filesz.toNat ≤ a.toNat ∧
        a.toNat < ph.va.toNat + ph.memsz.toNat) := by
      rintro ⟨hle, hlt⟩
      refine hout ⟨?_, .inr (lt_of_lt_of_le hlt ph.bss_le_memEnd)⟩
      unfold base
      omega
    have hnotIn : ¬ (ph.base ≤ a.toNat ∧ a.toNat < ph.base + 512 * ph.sectors) :=
      fun h => hout ⟨h.1, .inl h.2⟩
    rw [hmem₂ a, hend, hmemEnd, if_neg hnotBss, hmem₁ a, hbase]
    exact if_neg hnotIn

end ElfProgram

/-! ## The kernel -/

section Kernel
variable {ata : Drives} {elf : ElfFormat}

/-- The page at `ELFHDR`. -/
def InHeader (a : Nat) : Prop := 0x3000 ≤ a ∧ a < 0x4000

/-- The page there holds the first page of the image. -/
def HeaderRead (ata : Drives) (mem : Mem) : Prop :=
  ∀ a : Word, InHeader a.toNat → mem a = imageByte ata (a.toNat - 0x3000)

/-- The program headers from the one at `p` on. -/
def Programs (elf : ElfFormat) (mem : Mem) : Word → List ElfProgram → Prop
  | _, [] => True
  | p, ph :: phs => elf.program mem p = ph ∧ Programs elf mem (p + elf.programSize) phs

/-- What the first page of an image says. -/
structure ElfImage where
  entry : Word
  phoff : Word
  phs : List ElfProgram

/-- The headers of an image are all in its first page: every memory that has the page reads them
there. -/
structure ElfImage.On (image : ElfImage) (ata : Drives) (elf : ElfFormat) : Prop where
  magic : ∀ mem, HeaderRead ata mem → elf.magic mem = true
  entry : ∀ mem, HeaderRead ata mem → elf.entry mem = image.entry
  phoff : ∀ mem, HeaderRead ata mem → elf.phoff mem = image.phoff
  phnum : ∀ mem, HeaderRead ata mem → elf.phnum mem = image.phs.length
  programs : ∀ mem, HeaderRead ata mem → Programs elf mem (elfhdr + image.phoff) image.phs

/-- No segment's sectors or zeros come over the page of the headers or over a segment loaded before.
-/
structure Apart (phs : List ElfProgram) : Prop where
  fits : ∀ ph ∈ phs, ph.Fits
  headers : ∀ ph ∈ phs, ∀ a, ph.Writes a → ¬ InHeader a
  segments : phs.Pairwise fun ph ph' => ∀ a, ph'.Writes a → ¬ ph.Holds a

theorem Apart.tail {ph : ElfProgram} {phs : List ElfProgram} (h : Apart (ph :: phs)) :
    Apart phs where
  fits ph' h' := h.fits ph' (List.mem_cons_of_mem _ h')
  headers ph' h' := h.headers ph' (List.mem_cons_of_mem _ h')
  segments := (List.pairwise_cons.mp h.segments).2

theorem Apart.loadSegments_ok {phs : List ElfProgram} (hapart : Apart phs) {p : Word} {mem : Mem}
    (hread : HeaderRead ata mem) (hphs : ∀ mem, HeaderRead ata mem → Programs elf mem p phs) :
    ∃ mem', loadSegments ata elf phs.length p mem = .ok mem' ∧ HeaderRead ata mem' ∧
      (∀ ph ∈ phs, ph.Loaded ata mem') ∧
      ∀ a : Word, (∀ ph ∈ phs, ¬ ph.Writes a.toNat) → mem' a = mem a := by
  induction phs generalizing p mem with
  | nil => exact ⟨mem, rfl, hread, fun _ h => absurd h List.not_mem_nil, fun _ _ => rfl⟩
  | cons ph phs ih =>
    have hbehind := (List.pairwise_cons.mp hapart.segments).1
    obtain ⟨mem₁, hseg, hloaded, hframe⟩ :=
      (hapart.fits ph List.mem_cons_self).bootReadseg_ok ata mem
    -- the headers behind this one are read from the page after the segment is loaded
    have hread₁ : HeaderRead ata mem₁ := fun a ha => by
      rw [hframe a fun hw => hapart.headers ph List.mem_cons_self a.toNat hw ha]
      exact hread a ha
    obtain ⟨mem₂, hload, hread₂, hall, hsame⟩ := ih hapart.tail hread₁ fun mem h => (hphs mem h).2
    refine ⟨mem₂, ?_, hread₂, ?_, fun a hout => ?_⟩
    · rw [List.length_cons, loadSegments, (hphs mem hread).1, hseg]
      exact hload
    · rintro ph' hph'
      rcases List.mem_cons.mp hph' with rfl | htail
      · exact hloaded.congr fun a ha => hsame a fun ph'' h'' hw => hbehind ph'' h'' a.toNat hw ha
      · exact hall ph' htail
    · rw [hsame a fun ph' h' => hout ph' (List.mem_cons_of_mem _ h')]
      exact hframe a (hout ph List.mem_cons_self)

/-- The header page as a segment of its own. -/
theorem bootReadseg_header (ata : Drives) (mem : Mem) :
    ∃ mem', bootReadseg ata elfhdr 1 4096 4096 mem = .ok mem' ∧ HeaderRead ata mem' ∧
      ∀ a : Word, ¬ InHeader a.toNat → mem' a = mem a := by
  have hfits : ElfProgram.Fits ⟨elfhdr, 0, 4096, 4096⟩ := ⟨rfl, by decide, by decide, by decide⟩
  obtain ⟨mem', hseg, hloaded, hframe⟩ := hfits.bootReadseg_ok ata mem
  refine ⟨mem', hseg, fun a ha => ?_, fun a ha => hframe a fun hw => ha ?_⟩
  · have hbyte := hloaded.file a ha.1 ha.2
    exact hbyte.trans (congrArg (imageByte ata) (Nat.zero_add _))
  · exact ⟨hw.1, hw.2.elim id id⟩

/-- The boot loader jumps to the kernel with every segment in memory. Other memory is as it was, but
for the page of the headers and what shares a sector with a segment. -/
theorem boot_loads {image : ElfImage} (himage : image.On ata elf) (hapart : Apart image.phs)
    (mem : Mem) :
    ∃ mem', boot ata elf mem = .ok (mem', image.entry) ∧ (∀ ph ∈ image.phs, ph.Loaded ata mem') ∧
      ∀ a : Word, ¬ InHeader a.toNat → (∀ ph ∈ image.phs, ¬ ph.Writes a.toNat) →
        mem' a = mem a := by
  obtain ⟨mem₁, hseg, hread₁, hframe₁⟩ := bootReadseg_header ata mem
  obtain ⟨mem₂, hload, hread₂, hall, hframe₂⟩ := hapart.loadSegments_ok hread₁ himage.programs
  refine ⟨mem₂, ?_, hall, fun a hhead hout => ?_⟩
  · unfold boot
    rw [hseg]
    change (if elf.magic mem₁ then _ else _) = _
    rw [if_pos (himage.magic mem₁ hread₁), himage.phnum mem₁ hread₁, himage.phoff mem₁ hread₁,
      hload, ← himage.entry mem₂ hread₂]
    rfl
  · rw [hframe₂ a hout, hframe₁ a hhead]

/-- Without the magic number in the image the loader jumps to nothing. -/
theorem boot_waits (hmagic : ∀ mem, HeaderRead ata mem → elf.magic mem = false) (mem : Mem) :
    boot ata elf mem = .error .running := by
  obtain ⟨mem₁, hseg, hread₁, -⟩ := bootReadseg_header ata mem
  unfold boot
  rw [hseg]
  change (if elf.magic mem₁ then _ else _) = _
  rw [hmagic mem₁ hread₁]
  rfl

/-! ## An image -/

/-- The little-endian number of `n` bytes. -/
def readLe (mem : Mem) : (a n : Nat) → Nat
  | _, 0 => 0
  | a, n + 1 => (mem (BitVec.ofNat 64 a)).toNat + 256 * readLe mem (a + 1) n

def imageLe (ata : Drives) : (a n : Nat) → Nat
  | _, 0 => 0
  | a, n + 1 => (imageByte ata a).toNat + 256 * imageLe ata (a + 1) n

theorem HeaderRead.readLe_eq {mem : Mem} (hread : HeaderRead ata mem) {a n : Nat} (hle : 0x3000 ≤ a)
    (hlt : a + n ≤ 0x4000) : readLe mem a n = imageLe ata (a - 0x3000) n := by
  induction n generalizing a with
  | zero => rfl
  | succ n ih =>
    have ha : (BitVec.ofNat 64 a).toNat = a := by
      rw [BitVec.toNat_ofNat]
      omega
    have hin : InHeader (BitVec.ofNat 64 a).toNat := by
      rw [ha]
      exact ⟨hle, by omega⟩
    have hbehind : a + 1 - 0x3000 = a - 0x3000 + 1 := by omega
    rw [readLe, imageLe, hread _ hin, ha, ih (by omega) (by omega), hbehind]

/-- The headers of a 64-bit image. -/
def elf64 : ElfFormat where
  magic mem := readLe mem elfhdr.toNat 4 == 0x464C457F
  entry mem := BitVec.ofNat 64 (readLe mem (elfhdr.toNat + 24) 8)
  phoff mem := BitVec.ofNat 64 (readLe mem (elfhdr.toNat + 32) 8)
  phnum mem := readLe mem (elfhdr.toNat + 56) 2
  program mem p :=
    { va := BitVec.ofNat 64 (readLe mem (p.toNat + 16) 8)
      offset := BitVec.ofNat 64 (readLe mem (p.toNat + 8) 8)
      filesz := BitVec.ofNat 64 (readLe mem (p.toNat + 32) 8)
      memsz := BitVec.ofNat 64 (readLe mem (p.toNat + 40) 8) }
  programSize := 56

def leBytes : (n value : Nat) → List UInt8
  | 0, _ => []
  | n + 1, value => UInt8.ofNat value :: leBytes n (value / 256)

def sampleText : ElfProgram := ⟨0x40000, 0x1000, 700, 700⟩

def sampleData : ElfProgram := ⟨0x41100, 0x1500, 100, 1000⟩

/-- An image of two segments, the second with zeros behind it. -/
def sampleImage : ElfImage where
  entry := 0x40000
  phoff := 64
  phs := [sampleText, sampleData]

/-- Its first page. -/
def samplePage : List UInt8 :=
  leBytes 24 0x464C457F ++ leBytes 8 0x40000 ++ leBytes 24 64 ++ leBytes 8 2 ++
    sampleImage.phs.flatMap fun ph =>
      leBytes 8 1 ++ leBytes 8 ph.offset.toNat ++ leBytes 16 ph.va.toNat ++
        leBytes 8 ph.filesz.toNat ++
        leBytes 16 ph.memsz.toNat

def sampleDrives : Drives := fun sect i =>
  if sect = 1 then samplePage.getD i 0 else UInt8.ofNat (sect + i)

theorem sampleImage_on : sampleImage.On sampleDrives elf64 where
  magic mem h := by
    change (readLe mem 0x3000 4 == 0x464C457F) = true
    rw [h.readLe_eq (by decide) (by decide)]
    decide
  entry mem h := by
    change BitVec.ofNat 64 (readLe mem 0x3018 8) = 0x40000
    rw [h.readLe_eq (by decide) (by decide)]
    decide
  phoff mem h := by
    change BitVec.ofNat 64 (readLe mem 0x3020 8) = 64
    rw [h.readLe_eq (by decide) (by decide)]
    decide
  phnum mem h := by
    change readLe mem 0x3038 2 = 2
    rw [h.readLe_eq (by decide) (by decide)]
    decide
  programs mem h := by
    refine ⟨?_, ?_, trivial⟩
    · change ElfProgram.mk (BitVec.ofNat 64 (readLe mem 0x3050 8))
        (BitVec.ofNat 64 (readLe mem 0x3048 8))
        (BitVec.ofNat 64 (readLe mem 0x3060 8)) (BitVec.ofNat 64 (readLe mem 0x3068 8)) = _
      repeat rw [h.readLe_eq (by decide) (by decide)]
      rfl
    · change ElfProgram.mk (BitVec.ofNat 64 (readLe mem 0x3088 8))
        (BitVec.ofNat 64 (readLe mem 0x3080 8))
        (BitVec.ofNat 64 (readLe mem 0x3098 8)) (BitVec.ofNat 64 (readLe mem 0x30A0 8)) = _
      repeat rw [h.readLe_eq (by decide) (by decide)]
      rfl

theorem sampleImage_cases {ph : ElfProgram} (h : ph ∈ sampleImage.phs) :
    ph = sampleText ∨ ph = sampleData := by
  simpa [sampleImage] using h

theorem sampleImage_apart : Apart sampleImage.phs where
  fits ph hph := by
    rcases sampleImage_cases hph with rfl | rfl
    · exact ⟨rfl, by decide, by decide, by decide⟩
    · exact ⟨rfl, by decide, by decide, by decide⟩
  headers ph hph a hw hin := by
    have hbase : 0x4000 ≤ ph.base := by
      rcases sampleImage_cases hph with rfl | rfl <;> decide
    exact absurd (lt_of_lt_of_le hin.2 hbase) (Nat.not_lt_of_le hw.1)
  segments := List.pairwise_pair.mpr fun _ hw => hw.not_holds (by decide)

theorem boot_loads_sample : ∃ mem', boot sampleDrives elf64 (fun _ => 0xFF) = .ok (mem', 0x40000) ∧
    mem' 0x41100 = 11 ∧ mem' 0x41164 = 0 ∧ mem' 0x42000 = 0xFF := by
  obtain ⟨mem', hboot, hloaded, hframe⟩ := boot_loads sampleImage_on sampleImage_apart fun _ => 0xFF
  have hdata := hloaded _ (List.mem_cons_of_mem _ List.mem_cons_self)
  refine ⟨mem', hboot, hdata.file 0x41100 (by decide) (by decide),
    hdata.bss 0x41164 (by decide) (by decide),
    hframe 0x42000 (fun h => absurd h.2 (by decide)) fun ph hph hw => ?_⟩
  rcases sampleImage_cases hph with rfl | rfl
  · exact absurd hw.2 (by decide)
  · exact absurd hw.2 (by decide)

end Kernel

end SystemsProjects.Weensyos.Bootloader
