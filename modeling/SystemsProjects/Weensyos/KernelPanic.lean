import SystemsProjects.Weensyos.Backtrace
import SystemsProjects.Weensyos.Scheduling
import SystemsProjects.Weensyos.Format

/-!
# The last system call

`user_panic` (`k-hardware.cc:926-943`) prints what a process passes to `sys_panic` and a backtrace
of its stack. The pointer to the message and the stack are the process's own, and may be anything.
The color and the place of the output are left out.
-/

namespace SystemsProjects.Weensyos
open SystemsProjects.Lib

/-- The byte at a physical address. -/
def Phys.byteAt (s : Phys) (pa : Word) : UInt8 :=
  UInt8.ofBitVec ((s.wordAt pa >>> (8 * (pa.toNat % 8))).setWidth 8)

/-- `*p` for a `const char* p`. -/
def Phys.loadByte (s : Phys) : Option Word → Except Fault UInt8
  | none => .error .outOfBounds
  | some pa => .ok (s.byteAt pa)

/-- `buf[i] = c`. -/
def storeChar (buf : List UInt8) (i : Nat) (c : UInt8) : Except Fault (List UInt8) :=
  if i < buf.length then .ok (buf.set i c) else .error .outOfBounds

/-- `vmiter::user` (`k-vmiter.hh:209-211`). -/
def Vmiter.user (s : Phys) (it : Vmiter) : Bool :=
  decide (it.perm s &&& (pteP ||| pteU) = pteP ||| pteU)

/-- The loop of `strlcpy_from_user` (`k-hardware.cc:844-853`) from index `i` on, with a bound on its
rounds. -/
def copyFromUser (s : Phys) (maxlen : Nat) : (rounds i : Nat) → Vmiter → List UInt8 →
    Except Fault (List UInt8)
  | 0, _, _, _ => .error .running
  | rounds + 1, i, it, buf =>
    if i + 1 < maxlen ∧ it.user s then do
      let c ← s.loadByte (it.kptr s)
      let buf ← storeChar buf i c
      let it ← it.find s (it.va + 1)
      copyFromUser s maxlen rounds (i + 1) it buf
    else if i < maxlen then storeChar buf i 0
    else .ok buf

def strlcpyFromUser (s : Phys) (buf : List UInt8) (it : Vmiter) (maxlen : Nat) :
    Except Fault (List UInt8) :=
  copyFromUser s maxlen (maxlen + 1) 0 it buf

/-- `"USER PANIC"`. -/
def userPanicText : List UInt8 := [85, 83, 69, 82, 32, 80, 65, 78, 73, 67]

/-- `error_printf`: what is printed. -/
def errorPrintf (format : List UInt8) (val : List VaArg) : Except Fault (List UInt8) :=
  match vprintf format val with
  | some out => .ok out
  | none => .error .outOfBounds

/-- `user_panic`: the message and the backtrace. -/
def userPanic (tbl : List ElfSymbol) (s : Phys) (regs : Regs) (pt : Nat) :
    Except Fault (List UInt8 × List TraceLine) := do
  let buf := List.replicate 256 0
  let text ←
    if regs.rdi = 0 then errorPrintf userPanicText [.str buf]
    else do
      let it ← vmiter s pt regs.rdi
      let buf ← strlcpyFromUser s buf it 256
      errorPrintf (userPanicText ++ [58, 32, 37, 115]) [.str buf]
  let lines ← errorPrintBacktrace tbl s regs pt true
  return (text, lines)

/-! ## Copying from a process -/

/-- The bytes from `va` on that a process may access, up to `n` of them. -/
def userBytes (s : Phys) (root : Nat) : (n : Nat) → (va : Word) → List UInt8
  | 0, _ => []
  | n + 1, va =>
    match translate s root va with
    | .ok (pa, perm) =>
      if perm &&& (pteP ||| pteU) = pteP ||| pteU then s.byteAt pa :: userBytes s root n (va + 1)
      else []
    | .error _ => []

theorem storeChar_append (pre post : List UInt8) (c d : UInt8) :
    storeChar (pre ++ d :: post) pre.length c = .ok (pre ++ c :: post) := by
  unfold storeChar
  rw [if_pos (by rw [List.length_append, List.length_cons]; omega),
    List.set_append_right _ _ le_rfl, Nat.sub_self, List.set_cons_zero]

/-- Each of the two bits is set where both are. -/
theorem bit_of_user {perm bit : Word} (h : perm &&& (pteP ||| pteU) = pteP ||| pteU)
    (hbit : (pteP ||| pteU) &&& bit ≠ 0) : perm &&& bit ≠ 0 := by
  intro hzero
  have hand := and_and_eq_zero hzero (pteP ||| pteU)
  rw [h] at hand
  exact hbit hand

section Copy
variable {s : Phys} {root : Nat} (ht : EntriesLow s root)
include ht

theorem EntriesLow.userBytes_succ (n : Nat) (va : Word) :
    userBytes s root (n + 1) va = if (cursor s root va).user s
      then s.byteAt ((cursor s root va).pa s) :: userBytes s root n (va + 1) else [] := by
  rw [userBytes, translate, ht.vmiter_eq va]
  simp only [bind, Except.bind, Vmiter.user, decide_eq_true_eq]

omit ht in
theorem kptr_of_user {it : Vmiter} (h : it.user s = true) : it.kptr s = some (it.pa s) := by
  apply if_pos
  apply Vmiter.load_present
  exact bit_of_user (of_decide_eq_true h) (by decide)

/-- The accessible bytes go to the buffer, as far as they fit, and a NUL behind them. -/
theorem EntriesLow.copyFromUser_eq {maxlen rounds : Nat} (n : Nat) (va : Word)
    {pre post : List UInt8} (hn : pre.length + n + 1 = maxlen) (hpost : n < post.length)
    (hrounds : n < rounds) :
    copyFromUser s maxlen rounds pre.length (cursor s root va) (pre ++ post) =
      .ok (pre ++ userBytes s root n va ++
        0 :: post.drop ((userBytes s root n va).length + 1)) := by
  induction n generalizing va pre post rounds with
  | zero =>
    obtain ⟨rounds, rfl⟩ : ∃ r, rounds = r + 1 := ⟨rounds - 1, by omega⟩
    unfold copyFromUser
    rw [if_neg (by omega), if_pos (by omega)]
    cases post with
    | nil => exact absurd hpost (Nat.lt_irrefl 0)
    | cons c post => simpa [userBytes] using storeChar_append pre post 0 c
  | succ n ih =>
    obtain ⟨rounds, rfl⟩ : ∃ r, rounds = r + 1 := ⟨rounds - 1, by omega⟩
    cases post with
    | nil => exact absurd hpost (Nat.not_lt_zero _)
    | cons c post =>
      rw [List.length_cons] at hpost
      unfold copyFromUser
      rw [ht.userBytes_succ n va]
      by_cases huser : (cursor s root va).user s = true
      · have hlen : (pre ++ [s.byteAt ((cursor s root va).pa s)]).length + n + 1 = maxlen := by
          rw [List.length_append, List.length_singleton]
          omega
        have hrest := ih (va + 1) hlen (show n < post.length by omega) (show n < rounds by omega)
        rw [if_pos ⟨by omega, huser⟩, if_pos huser]
        simp only [kptr_of_user huser, Phys.loadByte, bind, Except.bind, storeChar_append,
          cursor_va, ht.find_eq]
        rw [List.length_append, List.length_singleton, List.append_assoc, List.singleton_append]
          at hrest
        rw [hrest]
        simp
      · rw [if_neg fun h => huser h.2, if_pos (by omega), if_neg huser]
        simpa using storeChar_append pre post 0 c

theorem EntriesLow.strlcpyFromUser_eq {maxlen : Nat} {buf : List UInt8} (hpos : 0 < maxlen)
    (hbuf : maxlen ≤ buf.length) (va : Word) :
    ∃ rest, strlcpyFromUser s buf (cursor s root va) maxlen =
      .ok (userBytes s root (maxlen - 1) va ++ 0 :: rest) := by
  refine ⟨buf.drop ((userBytes s root (maxlen - 1) va).length + 1), ?_⟩
  have hnil : ([] : List UInt8).length + (maxlen - 1) + 1 = maxlen := by
    rw [List.length_nil]
    omega
  exact ht.copyFromUser_eq (maxlen - 1) va hnil (by omega) (by omega)

end Copy

/-! ## The message -/

/-- A string ends at its first NUL. -/
theorem cstr_append_zero (p rest : List UInt8) :
    cstr (p ++ 0 :: rest) = some (p.takeWhile (· ≠ 0)) := by
  induction p with
  | nil => rfl
  | cons c p ih =>
    by_cases hc : c = 0
    · simp [cstr, hc]
    · simp only [List.cons_append, cstr, if_neg hc, ih, Option.map_some]
      rw [List.takeWhile_cons, if_pos (by simpa using hc)]

/-- `%s` prints its argument. -/
theorem directive_string {bytes str : List UInt8} (h : cstr bytes = some str) :
    directive [115] [.str bytes] = some (str, [], []) := by
  have htake : bytes.take str.length = str := by
    obtain ⟨-, rest, hrest⟩ := cstr_eq_some_iff.mp h
    rw [← hrest, List.append_assoc, List.take_left]
  have hemit : (Conversion.mk 0 10 0 bytes).emit (-1) (-1) = some str := by
    have hzero : ∀ flag, hasFlag 0 flag = false := fun flag => by
      have hand : (0 : BitVec 32) &&& flag = 0 := BitVec.zero_and
      rw [hasFlag, hand]
      rfl
    simp only [Conversion.emit, Conversion.bytes, Conversion.datalen, numberSign, hzero, h,
      Bool.false_and, Bool.false_eq_true, if_false, Option.bind_eq_bind, Option.bind_some,
      Option.map_some]
    simpa using htake
  change (emitted (-1) (-1) (some ⟨0, 10, 0, bytes⟩) >>= fun out => some (out, [], [])) = _
  rw [emitted, hemit]
  rfl

/-- What has no conversion in it is printed as it is. -/
theorem vprintf_append {plain : List UInt8} (format : List UInt8) (val : List VaArg)
    (h : 37 ∉ plain) : vprintf (plain ++ format) val = (vprintf format val).map (plain ++ ·) := by
  induction plain with
  | nil => simp
  | cons c plain ih =>
    rw [List.mem_cons, not_or] at h
    rw [List.cons_append, vprintf, if_pos (Ne.symm h.1), ih h.2, Option.map_map]
    rfl

/-- A conversion prints its output. -/
theorem vprintf_directive {format out rest : List UInt8} {val val' : List VaArg}
    (h : directive format val = some (out, rest, val')) :
    vprintf (37 :: format) val = (vprintf rest val').map (out ++ ·) := by
  rw [vprintf, if_neg (by decide)]
  split
  · rename_i hnone
    exact absurd (h.symm.trans hnone) (Option.some_ne_none _)
  · rename_i hsome
    obtain ⟨rfl, hrest⟩ := Prod.mk.inj (Option.some.inj (h.symm.trans hsome))
    obtain ⟨rfl, rfl⟩ := Prod.mk.inj hrest
    rfl

theorem vprintf_string {bytes str : List UInt8} (h : cstr bytes = some str) :
    vprintf [37, 115] [.str bytes] = some str := by
  have hend : vprintf [] [] = some [] := by rw [vprintf]
  rw [vprintf_directive (directive_string h), hend, Option.map_some, List.append_nil]

/-- What `user_panic` prints first: the string at `%rdi`, as far as the process may access it and at
most 255 characters of it. -/
def panicMessage (s : Phys) (root : Nat) (rdi : Word) : List UInt8 :=
  if rdi = 0 then userPanicText
  else userPanicText ++ [58, 32] ++ (userBytes s root 255 rdi).takeWhile (· ≠ 0)

/-- Whatever a process has in its registers and in its memory, `user_panic` gets to its end. -/
theorem EntriesLow.userPanic_eq {s : Phys} {root : Nat} (ht : EntriesLow s root) (hroot : root ≠ 0)
    (tbl : List ElfSymbol) (regs : Regs) :
    ∃ rets, userPanic tbl s regs root = .ok (panicMessage s root regs.rdi,
        (if regs.rip ≠ 0 then [⟨0, regs.rip, (lookupSymbol tbl regs.rip).map Prod.fst⟩] else []) ++
          rets.mapIdx fun i ret => ⟨i + 1, ret, (lookupSymbol tbl (ret - 2)).map Prod.fst⟩) ∧
      Unwinds s root (roundUpPage regs.rsp).toNat regs.rsp regs.rbp rets ∧ rets.length ≤ 255 := by
  obtain ⟨rets, htrace, hunwinds, hlen⟩ := ht.errorPrintBacktrace_eq hroot tbl regs true
  refine ⟨rets, ?_, hunwinds, hlen⟩
  simp only [true_and] at htrace
  unfold userPanic panicMessage
  by_cases hrdi : regs.rdi = 0
  · simp only [if_pos hrdi, errorPrintf, vprintf_plain _ (by decide : 37 ∉ userPanicText), htrace,
      bind, Except.bind]
    rfl
  · obtain ⟨rest, hcopy⟩ := ht.strlcpyFromUser_eq (show 0 < 256 by decide)
      (show 256 ≤ (List.replicate 256 (0 : UInt8)).length by rw [List.length_replicate]) regs.rdi
    have hprint := vprintf_append [37, 115] [.str (userBytes s root 255 regs.rdi ++ 0 :: rest)]
      (by decide : 37 ∉ userPanicText ++ [58, 32])
    rw [vprintf_string (cstr_append_zero (userBytes s root 255 regs.rdi) rest), Option.map_some]
      at hprint
    have hformat :
        userPanicText ++ [58, 32, 37, 115] = userPanicText ++ [58, 32] ++ [37, 115] := rfl
    simp only [if_neg hrdi, ht.vmiter_eq, hcopy, errorPrintf, hformat, hprint, htrace, bind,
      Except.bind]
    rfl

/-! ## In every run -/

theorem entriesLow_link {s : Phys} {p l c : Nat} (hzero : ∀ i, i ≠ 0 → s.word p i = 0)
    (hentry : s.word p 0 = tableEntry c) (hc : c < 2 ^ 20)
    (hrest : Radix.AllEntries child (fun _ e => e &&& ptePamask < 0x100000000) s.word l c) :
    Radix.AllEntries child (fun _ e => e &&& ptePamask < 0x100000000) s.word (l + 1) p := by
  refine ⟨fun i => ?_, fun i d hd => ?_⟩
  · dsimp only
    by_cases hi : i = 0
    · rw [hi, hentry, tableEntry_and_ptePamask (by omega), BitVec.lt_def, toNat_addrOf (by omega)]
      change c * 4096 < 2 ^ 32
      omega
    · rw [hzero i hi]
      decide
  · by_cases hi : i = 0
    · rw [hi, hentry, child, if_pos (tableEntry_present c), pageOf_tableEntry (by omega)] at hd
      obtain rfl := Option.some.inj hd
      exact hrest
    · rw [hzero i hi, (by decide : child 0 = none)] at hd
      exact nomatch hd

theorem ProcTable.entriesLow {s : Phys} {t : Nat} (h : ProcTable s t) : EntriesLow s t := by
  have hbound := h.bound
  exact entriesLow_link (h.upper t (by omega) (by omega)) h.top hbound.1
    (entriesLow_link (h.upper (t + 1) (by omega) (by omega)) h.mid hbound.2.1
      (entriesLow_link (h.upper (t + 2) (by omega) (by omega)) h.low hbound.2.2 h.small))

/-- What a process passes to `sys_panic` is read from its own pages. -/
theorem ProcTable.userBytes_get {s : Phys} {t : Nat} (h : ProcTable s t) (n : Nat) (va : Word)
    {k : Nat} {x : UInt8} (hx : (userBytes s t n va)[k]? = some x) :
    x = s.byteAt (va + BitVec.ofNat 64 k) ∧
      ∃ perm, translate s t (va + BitVec.ofNat 64 k) = .ok (va + BitVec.ofNat 64 k, perm) ∧
        perm &&& pteU ≠ 0 := by
  induction n generalizing va k with
  | zero => exact absurd hx (by simp [userBytes])
  | succ n ih =>
    unfold userBytes at hx
    split at hx
    · rename_i pa perm hread
      split_ifs at hx with hperm
      · have huser : perm &&& pteU ≠ 0 := bit_of_user hperm (by decide)
        cases k with
        | zero =>
          obtain ⟨rfl, -⟩ := h.user_reading hread huser
          have hzero : pa + BitVec.ofNat 64 0 = pa := BitVec.add_zero _
          rw [hzero]
          exact ⟨(Option.some.inj hx).symm, perm, hread, huser⟩
        | succ k =>
          have hnext := ih (va + 1) hx
          have hadd : va + 1 + BitVec.ofNat 64 k = va + BitVec.ofNat 64 (k + 1) := by
            rw [BitVec.add_assoc, Nat.add_comm k 1, BitVec.ofNat_add]
            rfl
          rwa [hadd] at hnext
      · exact absurd hx (by simp)
    · exact absurd hx (by simp)

section Runs
variable {b : Board} {n : Nat} {images : Nat → List Segment} {entry : Nat → Word}
  {word : Nat → Fin 512 → Word} {m₀ m : Machine} {es : List (Nat × Action)}

/-- In every run, a process that calls `sys_panic` makes the kernel print a message and a backtrace
and nothing worse, whatever it has done before and has left in its registers and its memory. The
message comes from its own pages, and the backtrace from the page its stack pointer is in, which
only has to be present. -/
theorem userPanic_run (hfit : ImagesFit n images) (hn : 1 ≤ n)
    (hboot : boot b n images entry word = .ok (.user m₀)) (hrun : Steps (MachineStep b) m₀ es m)
    (tbl : List ElfSymbol) (stale : Regstate) :
    ∃ rets, userPanic tbl m.kernel.phys (sysEntry b m.cpu stale).toRegs
          (m.kernel.pagetable m.current) = .ok
        (panicMessage m.kernel.phys (m.kernel.pagetable m.current) m.cpu.rdi,
        (if m.cpu.rip ≠ 0 then [⟨0, m.cpu.rip, (lookupSymbol tbl m.cpu.rip).map Prod.fst⟩]
          else []) ++
          rets.mapIdx fun i ret => ⟨i + 1, ret, (lookupSymbol tbl (ret - 2)).map Prod.fst⟩) ∧
      (Unwinds m.kernel.phys (m.kernel.pagetable m.current) (roundUpPage m.cpu.rsp).toNat m.cpu.rsp
        m.cpu.rbp rets ∧ rets.length ≤ 255) ∧
      ∀ k x, (userBytes m.kernel.phys (m.kernel.pagetable m.current) 255 m.cpu.rdi)[k]? = some x →
        x = m.kernel.phys.byteAt (m.cpu.rdi + BitVec.ofNat 64 k) ∧
        UserPage m.kernel m.current ((m.cpu.rdi + BitVec.ofNat 64 k).toNat / pageSize) := by
  have hsound := (boot_sound hfit hn hboot).run hrun
  obtain ⟨hpt, htable⟩ := hsound.tables.table m.current hsound.bound.1 hsound.bound.2
  rw [← hpt] at htable
  have hroot : m.kernel.pagetable m.current ≠ 0 := by
    rw [hpt, tableOf]
    omega
  obtain ⟨rets, hpanic, hunwinds, hlen⟩ := htable.entriesLow.userPanic_eq hroot tbl
    (sysEntry b m.cpu stale).toRegs
  refine ⟨rets, hpanic, ⟨hunwinds, hlen⟩, fun k x hx => ?_⟩
  obtain ⟨hbyte, perm, hread, huser⟩ := htable.userBytes_get 255 m.cpu.rdi hx
  exact ⟨hbyte, _, _, perm, hread, huser, rfl⟩

end Runs

/-- Registers with a message and a stack in the region of process 1. -/
def panicRegs : Regs :=
  { Regstate.zero.toRegs with
    rax := 3, rdi := 0x100000, rip := 0x100004, rsp := 0x13FF00, rbp := 0x13FF80 }

theorem userPanic_run_first : ∃ m₀ m : Machine,
    Steps (MachineStep sampleBoard) m₀ [(1, .compute panicRegs)] m ∧
      ∃ rets : List Word,
        userPanic sampleSymtab m.kernel.phys (sysEntry sampleBoard m.cpu .zero).toRegs
          (m.kernel.pagetable m.current) = .ok
        (panicMessage m.kernel.phys (m.kernel.pagetable m.current) m.cpu.rdi,
        (if m.cpu.rip ≠ 0
          then [⟨0, m.cpu.rip, (lookupSymbol sampleSymtab m.cpu.rip).map Prod.fst⟩] else []) ++
          rets.mapIdx fun i ret =>
            ⟨i + 1, ret, (lookupSymbol sampleSymtab (ret - 2)).map Prod.fst⟩) := by
  obtain ⟨kernel, hboot⟩ := sampleBoard_boot (n := 1) le_rfl (by decide)
  have hrun : Steps (MachineStep sampleBoard) (started sampleBoard 1 (fun _ => 0x100000) kernel)
      [(1, .compute panicRegs)]
      { started sampleBoard 1 (fun _ => 0x100000) kernel with cpu := panicRegs } := .single .compute
  obtain ⟨rets, hpanic, -⟩ := userPanic_run (sampleImage_fit 1) le_rfl hboot hrun sampleSymtab .zero
  exact ⟨_, _, hrun, rets, hpanic⟩

end SystemsProjects.Weensyos
