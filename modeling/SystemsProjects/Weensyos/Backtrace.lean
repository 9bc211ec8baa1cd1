import SystemsProjects.Weensyos.Pages
import SystemsProjects.Weensyos.RangePerm
import SystemsProjects.Weensyos.Symbols
import SystemsProjects.Weensyos.Machine

/-!
# Backtraces

`backtracer` and `error_print_backtrace` (`k-hardware.cc:667-715` and `862-886`) follow the chain of
saved frame pointers on the stack of a process, whatever the process has left in its registers and
on its stack. Only frames in the page of the stack pointer are looked at.
-/

namespace SystemsProjects.Weensyos
open SystemsProjects.Lib

/-- `vmiter::kptr` (`k-vmiter.hh:186-193`), `none` for `nullptr`. -/
def Vmiter.kptr (s : Phys) (it : Vmiter) : Option Word :=
  if s.load it.pep &&& pteP ≠ 0 then some (it.pa s) else none

/-- The word at a physical address. -/
def Phys.wordAt (s : Phys) (pa : Word) : Word :=
  s.word (pa.toNat / pageSize) (Fin.ofNat 512 (pa.toNat % pageSize / 8))

/-- `*p` for a `const uintptr_t* p`, which must be aligned and not null. -/
def Phys.loadWord (s : Phys) : Option Word → Except Fault Word
  | none => .error .outOfBounds
  | some pa => if pa.toNat % 8 = 0 then .ok (s.wordAt pa) else .error .outOfBounds

/-- `round_up (x, PAGESIZE)` (`lib.hh:150-153`). -/
def roundUpPage (x : Word) : Word := x + 4096 - 1 - (x + 4096 - 1) % 4096

/-- `backtracer`. The page table is in page `pt`, and page 0 stands for `nullptr`. -/
structure Backtracer where
  rbp : Word
  rsp : Word
  stackTop : Word
  pt : Nat

namespace Backtracer

def ok (bt : Backtracer) : Bool := decide (bt.rsp ≠ 0)

/-- `rbp_ = rsp_ = 0`. -/
def clear (bt : Backtracer) : Backtracer := { bt with rbp := 0, rsp := 0 }

def check (s : Phys) (bt : Backtracer) : Except Fault Backtracer :=
  if bt.rbp < bt.rsp ∨ bt.stackTop < bt.rbp ∨ bt.stackTop - bt.rbp < 16 ∨ bt.pt = 0 then
    .ok bt.clear
  else do
    let it ← vmiter s bt.pt bt.rbp
    let p ← it.rangePerm s 16
    if p &&& pteP = 0 ∨ bt.rbp &&& 7 ≠ 0 then .ok bt.clear else .ok bt

def derefRbp (s : Phys) (off : Word) (bt : Backtracer) : Except Fault Word := do
  let it ← vmiter s bt.pt (bt.rbp + off)
  s.loadWord (it.kptr s)

def retRip (s : Phys) (bt : Backtracer) : Except Fault Word := bt.derefRbp s 8

def step (s : Phys) (bt : Backtracer) : Except Fault Backtracer := do
  let rbp ← bt.derefRbp s 0
  check s { bt with rsp := bt.rbp + 16, rbp := rbp }

/-- The loop over the frames, with a bound on its rounds: the return addresses. -/
def frames (s : Phys) : (rounds : Nat) → Backtracer → Except Fault (List Word)
  | 0, _ => .error .running
  | rounds + 1, bt =>
    if bt.ok then do
      let ret ← bt.retRip s
      let bt ← bt.step s
      let rets ← frames s rounds bt
      return ret :: rets
    else return []

end Backtracer

/-- The constructor of `backtracer`. -/
def backtracer (s : Phys) (regs : Regs) (pt : Nat) : Except Fault Backtracer :=
  Backtracer.check s
    { rbp := regs.rbp, rsp := regs.rsp, stackTop := roundUpPage regs.rsp, pt := pt }

/-- A line of a backtrace: the number of the frame, the address and, if there is one, the name. -/
structure TraceLine where
  frame : Nat
  address : Word
  name : Option Nat

/-- `error_print_backtrace`: the lines it prints. The stack page has room for 255 frames. -/
def errorPrintBacktrace (tbl : List ElfSymbol) (s : Phys) (regs : Regs) (pt : Nat)
    (includeRip : Bool) : Except Fault (List TraceLine) := do
  let bt ← backtracer s regs pt
  let rets ← bt.frames s 256
  let first : List TraceLine :=
    if includeRip ∧ regs.rip ≠ 0 then [⟨0, regs.rip, (lookupSymbol tbl regs.rip).map Prod.fst⟩]
    else []
  return first ++ rets.mapIdx fun i ret => ⟨i + 1, ret, (lookupSymbol tbl (ret - 2)).map Prod.fst⟩

/-! ## The frames of a stack -/

/-- The word at virtual address `va`, if something is mapped there. -/
def readAt (s : Phys) (root : Nat) (va : Word) : Option Word :=
  match translate s root va with
  | .ok (pa, perm) => if perm &&& pteP ≠ 0 then some (s.wordAt pa) else none
  | .error _ => none

/-- A frame at `rbp`, for a stack pointer at `rsp` and a stack that ends at `top`. -/
structure FrameAt (s : Phys) (root top : Nat) (rsp rbp : Word) : Prop where
  above : rsp.toNat ≤ rbp.toNat
  below : rbp.toNat + 16 ≤ top
  aligned : rbp.toNat % 8 = 0
  present : permAt s root rbp &&& pteP ≠ 0

/-- The return addresses of the chain of frames that begins with frame pointer `rbp`. -/
inductive Unwinds (s : Phys) (root top : Nat) : (rsp rbp : Word) → List Word → Prop
  | stop {rsp rbp : Word} (h : ¬ FrameAt s root top rsp rbp) : Unwinds s root top rsp rbp []
  | frame {rsp rbp saved ret : Word} {rets : List Word} (h : FrameAt s root top rsp rbp)
      (hsaved : readAt s root rbp = some saved) (hret : readAt s root (rbp + 8) = some ret)
      (hrest : Unwinds s root top (rbp + 16) saved rets) : Unwinds s root top rsp rbp (ret :: rets)

theorem and_seven_eq_zero_iff (x : Word) : x &&& 7 = 0 ↔ x.toNat % 8 = 0 := by
  rw [← BitVec.toNat_inj, BitVec.toNat_and, show (7 : Word).toNat = 2 ^ 3 - 1 from rfl,
    Nat.and_two_pow_sub_one_eq_mod]
  rfl

/-- The end of the page of `x`, or `x` itself at the beginning of a page. -/
theorem toNat_roundUpPage (x : Word) :
    (roundUpPage x).toNat = (x.toNat + 4095) % 2 ^ 64 / 4096 * 4096 := by
  have hadd : (x + 4096 - 1).toNat = (x.toNat + 4095) % 2 ^ 64 := by
    rw [BitVec.toNat_sub, BitVec.toNat_add]
    change (2 ^ 64 - 1 + (x.toNat + 4096) % 2 ^ 64) % 2 ^ 64 = _
    omega
  have hmod : ((x + 4096 - 1) % 4096).toNat = (x.toNat + 4095) % 2 ^ 64 % 4096 := by
    rw [BitVec.toNat_umod, hadd]
    rfl
  rw [roundUpPage, BitVec.toNat_sub_of_le, hadd, hmod]
  · omega
  · rw [BitVec.le_def, hadd, hmod]
    omega

section Reading
variable {s : Phys} {root : Nat} (ht : EntriesLow s root) {va : Word}

/-- A bit that is not in a word is not in a part of it. -/
theorem and_and_eq_zero {x bit : Word} (h : x &&& bit = 0) (y : Word) : x &&& y &&& bit = 0 := by
  rw [BitVec.and_assoc, BitVec.and_comm y bit, ← BitVec.and_assoc, h]
  exact BitVec.zero_and

/-- The permissions are part of what the entry allows. -/
theorem Vmiter.load_present {it : Vmiter} (h : it.perm s &&& pteP ≠ 0) :
    s.load it.pep &&& pteP ≠ 0 := by
  intro hzero
  apply h
  have hph := and_and_eq_zero hzero (it.permMask.signExtend 64)
  unfold Vmiter.perm
  dsimp only
  rw [hph]
  simp

/-- An address and its physical address are at the same place in a word. -/
theorem cursor_pa_mod (h : s.load (cursor s root va).pep &&& pteP ≠ 0) :
    ((cursor s root va).pa s).toNat % 8 = va.toNat % 8 := by
  have hoff : (va &&& pageoffmask (cursor s root va).level).toNat % 8 = va.toNat % 8 := by
    have hmod := toNat_and_rsz (cursor_level_le s root va) va
    rw [BitVec.add_sub_cancel] at hmod
    rw [hmod]
    exact Nat.mod_mod_of_dvd _ (Nat.pow_dvd_pow 2 (by omega : 3 ≤ 12 + _ * 9))
  have hlow : ∀ e mask : Word, mask &&& 7 = 0 → (e &&& mask).toNat % 8 = 0 := by
    intro e mask hmask
    rw [← and_seven_eq_zero_iff, BitVec.and_assoc, hmask]
    exact BitVec.and_zero
  unfold Vmiter.pa
  rw [if_pos h, cursor_va]
  dsimp only
  rw [BitVec.toNat_add, Nat.mod_mod_of_dvd _ (by decide : 8 ∣ 2 ^ 64)]
  split_ifs
  · have hbase := hlow (s.load (cursor s root va).pep) (ptePamask &&& ~~~0x1000) (by decide)
    rw [← BitVec.and_assoc] at hbase
    omega
  · have hbase := hlow (s.load (cursor s root va).pep) ptePamask (by decide)
    omega

include ht in
/-- The word at a present address is loaded. -/
theorem EntriesLow.loadWord_eq (h : permAt s root va &&& pteP ≠ 0) (halign : va.toNat % 8 = 0) :
    ∃ w, readAt s root va = some w ∧ s.loadWord ((cursor s root va).kptr s) = .ok w := by
  rw [ht.permAt_eq] at h
  have hload := Vmiter.load_present h
  refine ⟨s.wordAt ((cursor s root va).pa s), ?_, ?_⟩
  · unfold readAt translate
    rw [ht.vmiter_eq va]
    exact if_pos h
  · unfold Vmiter.kptr
    rw [if_pos hload]
    exact if_pos ((cursor_pa_mod hload).trans halign)

/-- A range inside a page gets the permissions of its first address. -/
theorem rangePerm_short {sz : Word} (hsz : sz.toNat ≤ 4096) :
    (cursor s root va).rangePerm s sz = .ok (ifPresent ((cursor s root va).perm s)) := by
  have hpage : 4096 ≤ mappingSize s root va :=
    Nat.pow_le_pow_right (by decide : 0 < 2) (by omega : 12 ≤ 12 + _ * 9)
  have hnot : ¬ sz > pageoffmask (cursor s root va).level + 1 := fun h =>
    absurd ((word_gt_rsz_iff s root (by omega) va).mp h) (by omega)
  unfold Vmiter.rangePerm
  dsimp only
  exact if_neg fun h => hnot h.2

theorem ifPresent_and_eq_zero (p : Word) : ifPresent p &&& pteP = 0 ↔ p &&& pteP = 0 := by
  unfold ifPresent
  split_ifs with h
  · exact Iff.rfl
  · exact iff_of_true BitVec.zero_and (not_not.mp h)

end Reading

/-! ## Following the chain -/

section Frames
variable {s : Phys} {root : Nat} (ht : EntriesLow s root) (hroot : root ≠ 0) {bt : Backtracer}

/-- The stack pointer is in the last page below the end of the stack. -/
structure InPage (root : Nat) (bt : Backtracer) : Prop where
  pt : bt.pt = root
  page : bt.stackTop.toNat % 4096 = 0
  last : bt.stackTop.toNat < bt.rsp.toNat + 4096

include ht

include hroot in
theorem EntriesLow.check_frame (hpt : bt.pt = root)
    (h : FrameAt s root bt.stackTop.toNat bt.rsp bt.rbp) : bt.check s = .ok bt := by
  have habove := h.above
  have hbelow := h.below
  have hpresent := h.present
  rw [ht.permAt_eq] at hpresent
  have hsub : (bt.stackTop - bt.rbp).toNat = bt.stackTop.toNat - bt.rbp.toNat :=
    BitVec.toNat_sub_of_le (BitVec.le_def.mpr (by omega))
  unfold Backtracer.check
  rw [if_neg]
  · subst hpt
    simp only [ht.vmiter_eq, bind, Except.bind]
    rw [rangePerm_short (by decide)]
    dsimp only
    rw [if_neg]
    rw [ifPresent_and_eq_zero, Ne, and_seven_eq_zero_iff, not_or, not_not]
    exact ⟨hpresent, h.aligned⟩
  · simp only [BitVec.lt_def, hsub]
    change ¬(_ ∨ _ ∨ _ < 16 ∨ _)
    omega

theorem EntriesLow.check_clear (hpt : bt.pt = root)
    (h : ¬ FrameAt s root bt.stackTop.toNat bt.rsp bt.rbp) : bt.check s = .ok bt.clear := by
  unfold Backtracer.check
  split_ifs with hrange
  · rfl
  · subst hpt
    simp only [ht.vmiter_eq, bind, Except.bind]
    rw [rangePerm_short (by decide)]
    dsimp only
    rw [if_pos]
    by_contra hnot
    rw [ifPresent_and_eq_zero, Ne, and_seven_eq_zero_iff, not_or, not_not] at hnot
    apply h
    have hle : bt.rbp ≤ bt.stackTop := BitVec.not_lt.mp fun hlt => hrange (.inr (.inl hlt))
    have hsub := BitVec.toNat_sub_of_le hle
    rw [not_or, not_or, not_or, BitVec.lt_def, BitVec.lt_def, BitVec.lt_def, hsub] at hrange
    have hsixteen : (16 : Word).toNat = 16 := rfl
    rw [BitVec.le_def] at hle
    refine ⟨by omega, by omega, hnot.2, ?_⟩
    rw [ht.permAt_eq]
    exact hnot.1

/-- Addresses of one page are mapped alike. -/
theorem EntriesLow.permAt_page {va va' : Word} (h : va'.toNat / 4096 = va.toNat / 4096) :
    permAt s root va' = permAt s root va := by
  apply ht.permAt_same
  obtain ⟨k, hk⟩ : 4096 ∣ mappingSize s root va := rangeSize_dvd (Nat.zero_le _)
  rw [hk, ← Nat.div_div_eq_div_mul, ← Nat.div_div_eq_div_mul, h]

omit ht in
theorem toNat_add_ofNat {x : Word} (k : Nat) (h : x.toNat + k < 2 ^ 64) :
    (x + BitVec.ofNat 64 k).toNat = x.toNat + k := by
  rw [BitVec.toNat_add, BitVec.toNat_ofNat, Nat.add_mod_mod, Nat.mod_eq_of_lt h]

/-- A frame is read, and the next one is checked. -/
theorem EntriesLow.step_frame (hin : InPage root bt)
    (h : FrameAt s root bt.stackTop.toNat bt.rsp bt.rbp) :
    ∃ saved ret, readAt s root bt.rbp = some saved ∧ readAt s root (bt.rbp + 8) = some ret ∧
      bt.retRip s = .ok ret ∧
      bt.step s = Backtracer.check s { bt with rsp := bt.rbp + 16, rbp := saved } ∧
      InPage root { bt with rsp := bt.rbp + 16, rbp := saved } := by
  have habove := h.above
  have hbelow := h.below
  have halign := h.aligned
  have hpage := hin.page
  have hlast := hin.last
  have htop := bt.stackTop.isLt
  have h8 : (bt.rbp + 8).toNat = bt.rbp.toNat + 8 := toNat_add_ofNat 8 (by omega)
  have h16 : (bt.rbp + 16).toNat = bt.rbp.toNat + 16 := toNat_add_ofNat 16 (by omega)
  have hpresent : permAt s root (bt.rbp + 8) &&& pteP ≠ 0 := by
    rw [ht.permAt_page (show (bt.rbp + 8).toNat / 4096 = bt.rbp.toNat / 4096 by omega)]
    exact h.present
  obtain ⟨saved, hsaved, hload⟩ := ht.loadWord_eq h.present halign
  obtain ⟨ret, hret, hload'⟩ := ht.loadWord_eq hpresent (by omega)
  refine ⟨saved, ret, hsaved, hret, ?_, ?_, hin.pt, hpage, ?_⟩
  · unfold Backtracer.retRip Backtracer.derefRbp
    rw [hin.pt]
    simp only [ht.vmiter_eq, bind, Except.bind]
    exact hload'
  · have hzero : bt.rbp + 0 = bt.rbp := BitVec.add_zero _
    unfold Backtracer.step Backtracer.derefRbp
    rw [hin.pt, hzero]
    simp only [ht.vmiter_eq, bind, Except.bind, hload]
  · change bt.stackTop.toNat < (bt.rbp + 16).toNat + 4096
    omega

include hroot in
/-- A checked backtracer goes along the chain, and every frame takes 16 bytes of the stack. -/
theorem EntriesLow.frames_eq (hin : InPage root bt) (rounds : Nat)
    (hrounds : bt.stackTop.toNat < bt.rsp.toNat + 16 * (rounds + 1)) :
    ∃ rets, (bt.check s >>= fun bt => bt.frames s (rounds + 1)) = .ok rets ∧
      Unwinds s root bt.stackTop.toNat bt.rsp bt.rbp rets ∧
      bt.rsp.toNat + 16 * rets.length ≤ max bt.rsp.toNat bt.stackTop.toNat := by
  induction rounds generalizing bt with
  | zero =>
    have hno : ¬ FrameAt s root bt.stackTop.toNat bt.rsp bt.rbp := fun h => by
      have habove := h.above
      have hbelow := h.below
      omega
    refine ⟨[], ?_, .stop hno, Nat.le_max_left _ _⟩
    rw [ht.check_clear hin.pt hno]
    rfl
  | succ rounds ih =>
    by_cases h : FrameAt s root bt.stackTop.toNat bt.rsp bt.rbp
    · have habove := h.above
      have hbelow := h.below
      have htop := bt.stackTop.isLt
      have hpage := hin.page
      have hlast := hin.last
      have h16 : (bt.rbp + 16).toNat = bt.rbp.toNat + 16 := toNat_add_ofNat 16 (by omega)
      obtain ⟨saved, ret, hsaved, hret, hretRip, hstep, hin'⟩ := ht.step_frame hin h
      obtain ⟨rets, hframes, hunwinds, hlen⟩ := ih hin' (by
        change bt.stackTop.toNat < (bt.rbp + 16).toNat + 16 * (rounds + 1)
        omega)
      have hok : bt.ok = true := by
        refine decide_eq_true fun hzero => ?_
        have hrsp : bt.rsp.toNat = 0 := congrArg BitVec.toNat hzero
        omega
      refine ⟨ret :: rets, ?_, .frame h hsaved hret hunwinds, ?_⟩
      · rw [ht.check_frame hroot hin.pt h]
        simp only [bind, Except.bind] at hframes ⊢
        rw [Backtracer.frames, if_pos hok]
        simp only [bind, Except.bind, hretRip, hstep]
        cases hcheck : Backtracer.check s { bt with rsp := bt.rbp + 16, rbp := saved } with
        | error f =>
          rw [hcheck] at hframes
          exact nomatch hframes
        | ok bt' =>
          rw [hcheck] at hframes
          dsimp only at hframes ⊢
          rw [hframes]
          rfl
      · rw [List.length_cons]
        simp only [h16] at hlen
        omega
    · refine ⟨[], ?_, .stop h, Nat.le_max_left _ _⟩
      rw [ht.check_clear hin.pt h]
      rfl

include hroot in
/-- Whatever is in the registers and on the stack, a backtrace ends, and reads nothing but the
frames of the page that the stack pointer is in. -/
theorem EntriesLow.errorPrintBacktrace_eq (tbl : List ElfSymbol) (regs : Regs) (includeRip : Bool) :
    ∃ rets, errorPrintBacktrace tbl s regs root includeRip = .ok
        ((if includeRip ∧ regs.rip ≠ 0 then
          [⟨0, regs.rip, (lookupSymbol tbl regs.rip).map Prod.fst⟩] else []) ++
          rets.mapIdx fun i ret => ⟨i + 1, ret, (lookupSymbol tbl (ret - 2)).map Prod.fst⟩) ∧
      Unwinds s root (roundUpPage regs.rsp).toNat regs.rsp regs.rbp rets ∧ rets.length ≤ 255 := by
  have htop := toNat_roundUpPage regs.rsp
  have hin : InPage root ⟨regs.rbp, regs.rsp, roundUpPage regs.rsp, root⟩ := by
    refine ⟨rfl, ?_, ?_⟩
    · dsimp only
      omega
    · dsimp only
      omega
  have hlast := hin.last
  obtain ⟨rets, hframes, hunwinds, hlen⟩ := ht.frames_eq hroot hin 255 hlast
  refine ⟨rets, ?_, hunwinds, ?_⟩
  · unfold errorPrintBacktrace backtracer
    rw [← bind_assoc, hframes]
    rfl
  · dsimp only at hlen
    omega

end Frames

end SystemsProjects.Weensyos
