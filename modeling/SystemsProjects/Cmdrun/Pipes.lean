import SystemsProjects.Cmdrun.Process

/-!
# What the descriptors of a child refer to

The blocks of `cmd_exec` and `subshell_exec` are followed for descriptors 0 and 1. The pipe of a
command is connected on the left side unless its command has its input redirected, and on the right
side unless the next command is a subshell.
-/

namespace SystemsProjects.Cmdrun
open SystemsProjects.Cmdparse (Command ControlOp)
open SystemsProjects.Lib

/-! ## The blocks -/

section

variable {K : Kernel} {pid : Pid} {cmd : Command} {t : Descriptors File}

theorem redirect_get {n : Fin 3} (hn : t.get n ≠ none) (m : Nat) :
    (redirect K pid cmd n t).get m =
      if m = n ∧ ((cmd.redirectFilename n).isSome && K.opens pid n) = true then
        some (.opened pid n)
      else t.get m := by
  unfold redirect
  by_cases h : ((cmd.redirectFilename n).isSome && K.opens pid n) = true
  · rw [if_pos h, Descriptors.get_alloc_moveTo hn]
    simp [h]
  · rw [if_neg h]
    simp [h]

theorem redirect_get_ne {n : Fin 3} (hn : t.get n ≠ none) {m : Nat}
    (hm : m = n → cmd.redirectFilename n = none) : (redirect K pid cmd n t).get m = t.get m := by
  rw [redirect_get hn, if_neg]
  rintro ⟨heq, hsome⟩
  simp [hm heq] at hsome

/-- Descriptors 0, 1 and 2 are open. -/
def Opened (t : Descriptors File) : Prop := ∀ n < 3, t.get n ≠ none

/-- `u` comes from `t` by blocks of process `pid`: descriptors 0, 1 and 2 are as before, or they
are a file it has opened or the write end of its pipe. -/
def Derived (pid : Pid) (t u : Descriptors File) : Prop :=
  ∀ n < 3, u.get n = t.get n ∨ (∃ i, u.get n = some (.opened pid i)) ∨
    u.get n = some (.writeEnd pid)

theorem Derived.opened {u : Descriptors File} (h : Derived pid t u) (ht : Opened t) :
    Opened u := by
  intro n hn
  rcases h n hn with h | ⟨i, h⟩ | h
  · rw [h]
    exact ht n hn
  · simp [h]
  · simp [h]

theorem Derived.redirect {u : Descriptors File} (h : Derived pid t u) (ht : Opened t) (n : Fin 3) :
    Derived pid t (redirect K pid cmd n u) := by
  intro m hm
  rw [redirect_get (h.opened ht n n.isLt)]
  split
  · exact Or.inr (Or.inl ⟨n, rfl⟩)
  · exact h m hm

/-- What `pipeFor` does for a command followed by `|`. -/
structure PipeMade (pid : Pid) (t : Descriptors File) (p : (Nat × Nat) × Descriptors File) : Prop
    extends Descriptors.Piped t (.readEnd pid) (.writeEnd pid) p where
  three₀ : 3 ≤ p.1.1
  three₁ : 3 ≤ p.1.2

theorem pipeMade (h : Opened t) (pid : Pid) : PipeMade pid t (pipeFor pid .cmdPipe t) := by
  have hpiped : Descriptors.Piped t (.readEnd pid) (.writeEnd pid) (pipeFor pid .cmdPipe t) :=
    Descriptors.piped t _ _
  refine ⟨hpiped, ?_, ?_⟩
  · by_contra hlt
    exact h _ (Nat.not_le.mp hlt) hpiped.free₀
  · by_contra hlt
    exact h _ (Nat.not_le.mp hlt) hpiped.free₁

namespace PipeMade
variable {p : (Nat × Nat) × Descriptors File} (h : PipeMade pid t p)

include h

theorem get_read : p.2.get p.1.1 = some (.readEnd pid) := by rw [h.get, if_pos rfl]

theorem get_write : p.2.get p.1.2 = some (.writeEnd pid) := by
  rw [h.get, if_neg h.ne.symm, if_pos rfl]

theorem get_low {m : Nat} (hm : m < 3) : p.2.get m = t.get m := by
  have h₀ := h.three₀
  have h₁ := h.three₁
  rw [h.get, if_neg (by omega), if_neg (by omega)]

end PipeMade

theorem pipeFor_low (h : Opened t) (op : ControlOp) {m : Nat} (hm : m < 3) :
    (pipeFor pid op t).2.get m = t.get m := by
  by_cases hop : op = .cmdPipe
  · rw [hop]
    exact (pipeMade h pid).get_low hm
  · rw [pipeFor, if_neg hop]

theorem Derived.pipeFor (h : Opened t) (op : ControlOp) : Derived pid t (pipeFor pid op t).2 :=
  fun _ hm => Or.inl (pipeFor_low h op hm)

theorem leftSide_get {p : Nat × Nat} (hne : p.1 ≠ p.2) {file : File}
    (hfile : t.get p.2 = some file) (m : Nat) :
    (leftSide p t).get m =
      if m = p.2 then none else if m = 1 then some file else if m = p.1 then none else t.get m := by
  have hopen : (t.close p.1).get p.2 = some file := by
    rw [Descriptors.get_close, if_neg hne.symm, hfile]
  rw [leftSide, Descriptors.get_moveTo hopen, Descriptors.get_close]

theorem rightSide_get (pass m : Nat) :
    (rightSide pass t).get m =
      if pass = 0 then t.get m
      else if m = pass then none
      else if m = 0 then (t.get pass).or (t.get 0)
      else t.get m := by
  unfold rightSide
  by_cases h0 : pass = 0
  · simp [h0]
  · rw [if_pos h0, if_neg h0]
    cases hget : t.get pass with
    | none =>
      rw [Descriptors.get_moveTo_closed hget, Option.none_or]
      by_cases hm : m = pass
      · rw [if_pos hm, hm, hget]
      · rw [if_neg hm]
        by_cases hm0 : m = 0
        · rw [if_pos hm0, hm0]
        · rw [if_neg hm0]
    | some file => rw [Descriptors.get_moveTo hget, Option.some_or]

theorem Derived.leftSide {u : Descriptors File} (h : Derived pid t u)
    {p : (Nat × Nat) × Descriptors File} (hmade : PipeMade pid t p)
    (hwrite : u.get p.1.2 = some (.writeEnd pid)) : Derived pid t (leftSide p.1 u) := by
  have h₀ := hmade.three₀
  have h₁ := hmade.three₁
  intro m hm
  rw [leftSide_get hmade.ne hwrite, if_neg (by omega)]
  split
  · exact Or.inr (Or.inr rfl)
  · rw [if_neg (by omega)]
    exact h m hm

end

/-! ## A simple command's process -/

section

variable {K : Kernel} {s : LineState} {k : Nat} {cmd : Command}

/-- The descriptors of a simple command's process behind the redirections of its outputs. -/
def outputFds (K : Kernel) (s : LineState) (k : Nat) (cmd : Command) : Descriptors File :=
  redirect K (k :: s.pid) cmd 2
    (redirect K (k :: s.pid) cmd 1 (pipeFor (k :: s.pid) cmd.controlop s.fds).2)

/-- They are those before the block of the right side. -/
def leftFds (K : Kernel) (s : LineState) (k : Nat) (cmd : Command) : Descriptors File :=
  inputOrLeftSide K (k :: s.pid) cmd (pipeFor (k :: s.pid) cmd.controlop s.fds).1
    (outputFds K s k cmd)

theorem childFds_simple (hsub : cmd.subshell = []) :
    childFds K s k cmd = rightSide s.pipefd (leftFds K s k cmd) := by
  unfold childFds
  exact if_pos (List.isEmpty_iff.mpr hsub)

variable (h : Opened s.fds)

include h

theorem outputFds_derived : Derived (k :: s.pid) s.fds (outputFds K s k cmd) :=
  ((Derived.pipeFor h _).redirect h 1).redirect h 2

/-- The redirections of the outputs change descriptors 1 and 2 only. -/
theorem outputFds_get {m : Nat} (h₂ : m ≠ 2) (h₁ : m = 1 → cmd.redirectFilename 1 = none) :
    (outputFds K s k cmd).get m = (pipeFor (k :: s.pid) cmd.controlop s.fds).2.get m := by
  have hpipe : Derived (k :: s.pid) s.fds (pipeFor (k :: s.pid) cmd.controlop s.fds).2 :=
    .pipeFor h _
  rw [outputFds, redirect_get_ne ((hpipe.redirect h 1).opened h 2 (by omega))
    (fun hm => absurd hm h₂), redirect_get_ne (hpipe.opened h 1 (by omega)) h₁]

theorem outputFds_write (hop : cmd.controlop = .cmdPipe) :
    (outputFds K s k cmd).get (pipeFor (k :: s.pid) cmd.controlop s.fds).1.2 =
      some (.writeEnd (k :: s.pid)) := by
  rw [hop]
  have hmade := pipeMade h (k :: s.pid)
  have hthree := hmade.three₁
  rw [outputFds_get h (by omega) (fun hm => by omega), hop]
  exact hmade.get_write

/-- The block of the left side, where the input is not redirected. -/
theorem leftFds_get (hin : cmd.redirectFilename 0 = none) (m : Nat) :
    (leftFds K s k cmd).get m =
      if cmd.controlop = .cmdPipe then
        if m = 1 then some (.writeEnd (k :: s.pid))
        else if m = 2 then (outputFds K s k cmd).get 2
        else s.fds.get m
      else (outputFds K s k cmd).get m := by
  unfold leftFds inputOrLeftSide
  rw [if_neg (by simp [hin])]
  by_cases hop : cmd.controlop = .cmdPipe
  · have hmade := pipeMade h (k :: s.pid)
    have h₀ := hmade.three₀
    have h₁ := hmade.three₁
    have hwrite : (outputFds K s k cmd).get _ = _ := outputFds_write h hop
    rw [if_pos hop, if_pos hop]
    rw [hop] at hwrite ⊢
    rw [leftSide_get hmade.ne hwrite]
    by_cases hm₁ : m = (pipeFor (k :: s.pid) .cmdPipe s.fds).1.2
    · rw [if_pos hm₁, if_neg (by omega), if_neg (by omega), hm₁, hmade.free₁]
    · rw [if_neg hm₁]
      by_cases hone : m = 1
      · rw [if_pos hone, if_pos hone]
      · rw [if_neg hone, if_neg hone]
        by_cases hm₀ : m = (pipeFor (k :: s.pid) .cmdPipe s.fds).1.1
        · rw [if_pos hm₀, if_neg (by omega), hm₀, hmade.free₀]
        · rw [if_neg hm₀]
          by_cases htwo : m = 2
          · rw [if_pos htwo, htwo]
          · rw [if_neg htwo, outputFds_get h htwo (fun hm => absurd hm hone), hop, hmade.get,
              if_neg hm₀, if_neg hm₁]
  · rw [if_neg hop, if_neg hop]

theorem leftFds_get_input {file : List UInt8} (hin : cmd.redirectFilename 0 = some file)
    {m : Nat} (hm : m ≠ 0) : (leftFds K s k cmd).get m = (outputFds K s k cmd).get m := by
  unfold leftFds inputOrLeftSide
  rw [if_pos (by simp [hin]), redirect_get_ne ((outputFds_derived h).opened h 0 (by omega))
    (fun hm0 => absurd hm0 hm)]

theorem leftFds_derived : Derived (k :: s.pid) s.fds (leftFds K s k cmd) := by
  unfold leftFds inputOrLeftSide
  split
  · exact (outputFds_derived h).redirect h 0
  · split
    · rename_i hop
      have hwrite : (outputFds K s k cmd).get _ = _ := outputFds_write h hop
      rw [hop] at hwrite ⊢
      exact (outputFds_derived h).leftSide (pipeMade h (k :: s.pid)) hwrite
    · exact outputFds_derived h

/-- Descriptor 1 at `execve`, where it is not redirected. -/
theorem childFds_one (hpass : s.pipefd = 0 ∨ 3 ≤ s.pipefd) (hsub : cmd.subshell = [])
    (hout : cmd.redirectFilename 1 = none) :
    (childFds K s k cmd).get 1 =
      if cmd.controlop = .cmdPipe ∧ cmd.redirectFilename 0 = none then
        some (.writeEnd (k :: s.pid))
      else s.fds.get 1 := by
  have hone : (outputFds K s k cmd).get 1 = s.fds.get 1 := by
    rw [outputFds_get h (by omega) (fun _ => hout), pipeFor_low h _ (by omega)]
  have hright : (childFds K s k cmd).get 1 = (leftFds K s k cmd).get 1 := by
    rw [childFds_simple hsub, rightSide_get]
    by_cases h0 : s.pipefd = 0
    · rw [if_pos h0]
    · rw [if_neg h0, if_neg (by omega), if_neg (by omega)]
  rw [hright]
  cases hin : cmd.redirectFilename 0 with
  | none => simp [leftFds_get h hin, hone]
  | some file => simp [leftFds_get_input h hin, hone]

/-- Descriptor 0 at `execve`, where it is not redirected: it is what `pass_pipefd` refers to, if
that is open. -/
theorem childFds_zero (hpass : s.pipefd = 0 ∨ 3 ≤ s.pipefd) (hsub : cmd.subshell = [])
    (hin : cmd.redirectFilename 0 = none) :
    (childFds K s k cmd).get 0 =
      if s.pipefd = 0 then s.fds.get 0 else (s.fds.get s.pipefd).or (s.fds.get 0) := by
  have hleft : ∀ m, m ≠ 1 → m ≠ 2 → (leftFds K s k cmd).get m = s.fds.get m := by
    intro m h₁ h₂
    rw [leftFds_get h hin, if_neg h₁, if_neg h₂]
    split
    · rfl
    · rename_i hop
      rw [outputFds_get h h₂ (fun hm => absurd hm h₁), pipeFor, if_neg hop]
  rw [childFds_simple hsub, rightSide_get, hleft 0 (by omega) (by omega)]
  by_cases h0 : s.pipefd = 0
  · rw [if_pos h0, if_pos h0]
  · rw [if_neg h0, if_neg h0, if_neg (by omega), if_pos rfl, hleft s.pipefd (by omega) (by omega)]

end

/-! ## A subshell's process -/

section

variable {K : Kernel} {s : LineState} {k : Nat} {cmd : Command}

/-- The descriptors of a subshell's process behind the redirections. -/
def redirectedFds (K : Kernel) (s : LineState) (k : Nat) (cmd : Command) : Descriptors File :=
  redirect K (k :: s.pid) cmd 2 (redirect K (k :: s.pid) cmd 0
    (redirect K (k :: s.pid) cmd 1 (pipeFor (k :: s.pid) cmd.controlop s.fds).2))

theorem childFds_subshell (hsub : cmd.subshell ≠ []) : childFds K s k cmd =
    if cmd.controlop = .cmdPipe then
      leftSide (pipeFor (k :: s.pid) cmd.controlop s.fds).1 (redirectedFds K s k cmd)
    else redirectedFds K s k cmd := by
  unfold childFds
  exact if_neg fun h => hsub (List.isEmpty_iff.mp h)

variable (h : Opened s.fds)

include h

theorem redirectedFds_derived : Derived (k :: s.pid) s.fds (redirectedFds K s k cmd) :=
  (((Derived.pipeFor h _).redirect h 1).redirect h 0).redirect h 2

theorem redirectedFds_get {m : Nat} (h₁ : m ≠ 1) (h₂ : m ≠ 2)
    (h₀ : m = 0 → cmd.redirectFilename 0 = none) :
    (redirectedFds K s k cmd).get m = (pipeFor (k :: s.pid) cmd.controlop s.fds).2.get m := by
  have hpipe : Derived (k :: s.pid) s.fds (pipeFor (k :: s.pid) cmd.controlop s.fds).2 :=
    .pipeFor h _
  rw [redirectedFds,
    redirect_get_ne (((hpipe.redirect h 1).redirect h 0).opened h 2 (by omega))
      (fun hm => absurd hm h₂),
    redirect_get_ne ((hpipe.redirect h 1).opened h 0 (by omega)) h₀,
    redirect_get_ne (hpipe.opened h 1 (by omega)) (fun hm => absurd hm h₁)]

theorem redirectedFds_write (hop : cmd.controlop = .cmdPipe) :
    (redirectedFds K s k cmd).get (pipeFor (k :: s.pid) cmd.controlop s.fds).1.2 =
      some (.writeEnd (k :: s.pid)) := by
  rw [hop]
  have hmade := pipeMade h (k :: s.pid)
  have hthree := hmade.three₁
  rw [redirectedFds_get h (by omega) (by omega) (fun hm => by omega), hop]
  exact hmade.get_write

variable (hsub : cmd.subshell ≠ [])

include hsub

theorem subshell_one (hop : cmd.controlop = .cmdPipe) :
    (childFds K s k cmd).get 1 = some (.writeEnd (k :: s.pid)) := by
  have hmade := pipeMade h (k :: s.pid)
  have hthree := hmade.three₁
  have hwrite : (redirectedFds K s k cmd).get _ = _ := redirectedFds_write h hop
  rw [childFds_subshell hsub, if_pos hop]
  rw [hop] at hwrite ⊢
  rw [leftSide_get hmade.ne hwrite, if_neg (by omega), if_pos rfl]

theorem subshell_zero (hin : cmd.redirectFilename 0 = none) :
    (childFds K s k cmd).get 0 = s.fds.get 0 := by
  have hzero : (redirectedFds K s k cmd).get 0 = s.fds.get 0 := by
    rw [redirectedFds_get h (by omega) (by omega) (fun _ => hin), pipeFor_low h _ (by omega)]
  rw [childFds_subshell hsub]
  split
  · rename_i hop
    have hmade := pipeMade h (k :: s.pid)
    have h₀ := hmade.three₀
    have h₁ := hmade.three₁
    have hwrite : (redirectedFds K s k cmd).get _ = _ := redirectedFds_write h hop
    rw [hop] at hwrite ⊢
    rw [leftSide_get hmade.ne hwrite, if_neg (by omega), if_neg (by omega), if_neg (by omega),
      hzero]
  · exact hzero

theorem subshell_derived : Derived (k :: s.pid) s.fds (childFds K s k cmd) := by
  rw [childFds_subshell hsub]
  split
  · rename_i hop
    have hwrite : (redirectedFds K s k cmd).get _ = _ := redirectedFds_write h hop
    rw [hop] at hwrite ⊢
    exact (redirectedFds_derived h).leftSide (pipeMade h (k :: s.pid)) hwrite
  · exact redirectedFds_derived h

end

/-! ## What the loop keeps -/

/-- The pipe of process `r` is what a descriptor refers to. -/
def PipeAt (o : Option File) (r : Pid) : Prop := o = some (.readEnd r) ∨ o = some (.writeEnd r)

/-- Descriptors 0, 1 and 2 of process `pid` are open, and they are not ends of pipes that `pid`
makes for its children. -/
structure Standard (pid : Pid) (t : Descriptors File) : Prop where
  opened : Opened t
  old : ∀ n < 3, ∀ r, PipeAt (t.get n) r → r.length ≤ pid.length

/-- At the head of the loop: what `pipefd` refers to is the pipe of the command before, if this
command has one. In a child that came back it was closed, unless the input was redirected. -/
structure PipeInv (k : Nat) (prev : Option (Pid × Command)) (s : LineState) : Prop
    extends Standard s.pid s.fds where
  pass : s.pipefd = 0 ∨ 3 ≤ s.pipefd
  passOld : ∀ r, PipeAt (s.fds.get s.pipefd) r →
    r.length ≤ s.pid.length + 1 ∧ ∀ j, k ≤ j → r ≠ j :: s.pid
  shell : ∀ pid cmd, prev = some (pid, cmd) → cmd.controlop = .cmdPipe → pid ≠ s.pid →
    pid.length = s.pid.length + 1 ∧ s.pipefd ≠ 0 ∧ s.fds.get s.pipefd = some (.readEnd pid)
  back : ∀ pid cmd, prev = some (pid, cmd) → cmd.controlop = .cmdPipe → pid = s.pid →
    cmd.redirectFilename 0 = none →
      s.fds.get s.pipefd = none ∧ s.fds.get 0 ≠ some (.readEnd pid)

theorem Standard.derived {pid : Pid} {k : Nat} {t u : Descriptors File} (h : Standard pid t)
    (hu : Derived (k :: pid) t u) : Standard (k :: pid) u := by
  refine ⟨hu.opened h.opened, ?_⟩
  intro n hn r hr
  rcases hu n hn with heq | ⟨i, heq⟩ | heq
  · rw [heq] at hr
    exact Nat.le_succ_of_le (h.old n hn r hr)
  · simp [heq, PipeAt] at hr
  · obtain rfl : k :: pid = r := by simpa [heq, PipeAt] using hr
    exact Nat.le_refl _

theorem Standard.congr {pid : Pid} {t u : Descriptors File} (h : Standard pid t)
    (hu : ∀ n < 3, u.get n = t.get n) : Standard pid u := by
  refine ⟨fun n hn => ?_, fun n hn r hr => ?_⟩
  · rw [hu n hn]
    exact h.opened n hn
  · rw [hu n hn] at hr
    exact h.old n hn r hr

/-- Without a pipe in hand there is nothing to show of it. -/
theorem PipeInv.of_standard {k : Nat} {prev : Option (Pid × Command)} {s : LineState}
    (h : Standard s.pid s.fds) (hpass : s.pipefd = 0)
    (hprev : ∀ pid cmd, prev = some (pid, cmd) → cmd.controlop ≠ .cmdPipe) :
    PipeInv k prev s := by
  refine ⟨h, Or.inl hpass, ?_, fun pid cmd hp hop => absurd hop (hprev pid cmd hp),
    fun pid cmd hp hop => absurd hop (hprev pid cmd hp)⟩
  intro r hr
  rw [hpass] at hr
  have hle := h.old 0 (by omega) r hr
  refine ⟨Nat.le_succ_of_le hle, ?_⟩
  rintro j - rfl
  exact absurd hle (by simp)

section

variable {K : Kernel} {s : LineState} {k : Nat} {cmd : Command}

/-- Above the first three, the blocks before that of the right side can only leave the ends of the
command's own pipe. -/
theorem leftFds_high (h : Opened s.fds) {m : Nat} (hm : 3 ≤ m) {r : Pid}
    (hr : PipeAt ((leftFds K s k cmd).get m) r) :
    PipeAt (s.fds.get m) r ∨ r = k :: s.pid ∧ cmd.redirectFilename 0 ≠ none := by
  have hout : (outputFds K s k cmd).get m = (pipeFor (k :: s.pid) cmd.controlop s.fds).2.get m :=
    outputFds_get h (by omega) (fun hm1 => by omega)
  cases hin : cmd.redirectFilename 0 with
  | none =>
    rw [leftFds_get h hin] at hr
    by_cases hop : cmd.controlop = .cmdPipe
    · rw [if_pos hop, if_neg (by omega), if_neg (by omega)] at hr
      exact Or.inl hr
    · rw [if_neg hop, hout, pipeFor, if_neg hop] at hr
      exact Or.inl hr
  | some file =>
    rw [leftFds_get_input h hin (by omega), hout] at hr
    by_cases hop : cmd.controlop = .cmdPipe
    · rw [hop, (pipeMade h _).get] at hr
      split at hr
      · exact Or.inr ⟨by simpa [PipeAt, eq_comm] using hr, by simp⟩
      · split at hr
        · exact Or.inr ⟨by simpa [PipeAt, eq_comm] using hr, by simp⟩
        · exact Or.inl hr
    · rw [pipeFor, if_neg hop] at hr
      exact Or.inl hr

end

/-- The process of a simple command has its first three descriptors open at `execve`. -/
theorem PipeInv.standard_child {K : Kernel} {k : Nat} {prev : Option (Pid × Command)}
    {s : LineState} {cmd : Command} (h : PipeInv k prev s) (hsub : cmd.subshell = []) :
    Standard (k :: s.pid) (childFds K s k cmd) := by
  have hleft : Standard (k :: s.pid) (leftFds K s k cmd) :=
    h.toStandard.derived (leftFds_derived h.opened)
  rw [childFds_simple hsub]
  rcases h.pass with h0 | h3
  · exact hleft.congr fun n _ => by rw [rightSide_get, if_pos h0]
  · have hne : s.pipefd ≠ 0 := by omega
    refine ⟨fun n hn => ?_, fun n hn r hr => ?_⟩
    · rw [rightSide_get, if_neg hne, if_neg (by omega)]
      split
      · intro hnone
        exact hleft.opened 0 (by omega) (Option.or_eq_none_iff.mp hnone).2
      · exact hleft.opened n hn
    · rw [rightSide_get, if_neg hne, if_neg (by omega)] at hr
      split at hr
      · cases hpass : (leftFds K s k cmd).get s.pipefd with
        | none =>
          rw [hpass, Option.none_or] at hr
          exact hleft.old 0 (by omega) r hr
        | some file =>
          rw [hpass, Option.some_or, ← hpass] at hr
          rcases leftFds_high h.opened h3 hr with hr | ⟨rfl, -⟩
          · exact (h.passOld r hr).1
          · exact Nat.le_refl _
      · exact hleft.old n hn r hr

section

variable {K : Kernel} {k : Nat} {prev : Option (Pid × Command)} {s : LineState} {cmd : Command}

/-- In a child that came back, `pipefd` refers to what the blocks left of the read end. -/
theorem childAfter_held (h : Opened s.fds) (hop : cmd.controlop = .cmdPipe)
    (hsub : cmd.subshell = []) :
    (childAfter K s k cmd).fds.get (childAfter K s k cmd).pipefd =
      if s.pipefd = (pipeFor (k :: s.pid) .cmdPipe s.fds).1.1 then none
      else (leftFds K s k cmd).get (pipeFor (k :: s.pid) .cmdPipe s.fds).1.1 := by
  have hmade := pipeMade h (k :: s.pid)
  have hthree := hmade.three₀
  obtain ⟨hfds, hpipefd⟩ : _ ∧ (childAfter K s k cmd).pipefd = _ := childAfter_pipe hop
  rw [hfds, hpipefd, Descriptors.get_close, if_neg hmade.ne, childFds_simple hsub, rightSide_get]
  by_cases h0 : s.pipefd = 0
  · rw [if_pos h0, if_neg (by omega)]
  · rw [if_neg h0, if_neg (show ¬ _ = 0 by omega)]
    simp only [eq_comm]

variable (h : PipeInv k prev s)

include h

/-- A simple command does not read from its own pipe. -/
theorem PipeInv.zero_ne_own (hsub : cmd.subshell = []) (hin : cmd.redirectFilename 0 = none) :
    (childFds K s k cmd).get 0 ≠ some (.readEnd (k :: s.pid)) := by
  rw [childFds_zero h.opened h.pass hsub hin]
  intro hread
  have hstd : s.fds.get 0 ≠ some (.readEnd (k :: s.pid)) := by
    intro hread
    exact absurd (h.old 0 (by omega) _ (Or.inl hread)) (by simp)
  split at hread
  · exact hstd hread
  · cases hget : s.fds.get s.pipefd with
    | none =>
      rw [hget, Option.none_or] at hread
      exact hstd hread
    | some file =>
      rw [hget, Option.some_or, ← hget] at hread
      exact (h.passOld _ (Or.inl hread)).2 k (Nat.le_refl k) rfl

/-- The shell holds the read end of the command's pipe. -/
theorem PipeInv.parent (cmd : Command) (w : UInt8) :
    PipeInv (k + 1) (some (k :: s.pid, cmd)) (parentAfter s k cmd w) := by
  have hpid : (parentAfter s k cmd w).pid = s.pid := parentAfter_pid w
  by_cases hop : cmd.controlop = .cmdPipe
  · obtain ⟨hfds, hpipefd⟩ : _ ∧ (parentAfter s k cmd w).pipefd = _ := parentAfter_pipe hop w
    have hmade := pipeMade h.opened (k :: s.pid)
    have hzero := hmade.three₀
    have hone := hmade.three₁
    have hread : (parentAfter s k cmd w).fds.get (parentAfter s k cmd w).pipefd =
        some (.readEnd (k :: s.pid)) := by
      rw [hfds, hpipefd, Descriptors.get_close, if_neg hmade.ne, hmade.get_read]
    have hstd : Standard s.pid (parentAfter s k cmd w).fds := by
      refine h.toStandard.congr fun n hn => ?_
      rw [hfds, Descriptors.get_close, if_neg (by omega), hmade.get_low hn]
    refine ⟨hpid ▸ hstd, Or.inr (by omega), ?_, ?_, ?_⟩
    · intro r hr
      obtain rfl : k :: s.pid = r := by simpa [hread, PipeAt] using hr
      rw [hpid]
      refine ⟨Nat.le_refl _, fun j hj heq => ?_⟩
      have := (List.cons.inj heq).1
      omega
    · intro pid cmd' hprev _ _
      obtain ⟨rfl, -⟩ := Prod.mk.inj (Option.some.inj hprev)
      rw [hpid]
      exact ⟨rfl, by omega, hread⟩
    · intro pid cmd' hprev _ heq
      obtain ⟨rfl, -⟩ := Prod.mk.inj (Option.some.inj hprev)
      rw [hpid] at heq
      exact absurd heq (List.cons_ne_self k s.pid)
  · obtain ⟨hfds, hpipefd⟩ : _ ∧ (parentAfter s k cmd w).pipefd = _ :=
      parentAfter_noPipe hop w
    refine .of_standard (by rw [hpid, hfds]; exact h.toStandard) hpipefd ?_
    intro pid cmd' hprev
    obtain ⟨-, rfl⟩ := Prod.mk.inj (Option.some.inj hprev)
    exact hop

/-- A child that came back has closed its pipe, unless its input was redirected. -/
theorem PipeInv.child (hsub : cmd.subshell = []) :
    PipeInv (k + 1) (some (k :: s.pid, cmd)) (childAfter K s k cmd) := by
  have hpid : (childAfter K s k cmd).pid = k :: s.pid := childAfter_pid
  have hstd : Standard _ (childFds K s k cmd) := h.standard_child hsub
  by_cases hop : cmd.controlop = .cmdPipe
  · obtain ⟨hfds, hpipefd⟩ : _ ∧ (childAfter K s k cmd).pipefd = _ := childAfter_pipe hop
    have hheld : (childAfter K s k cmd).fds.get _ = _ := childAfter_held h.opened hop hsub
    have hmade := pipeMade h.opened (k :: s.pid)
    have hzero := hmade.three₀
    have hone := hmade.three₁
    have hlow : ∀ n < 3, (childAfter K s k cmd).fds.get n = (childFds K s k cmd).get n := by
      intro n hn
      rw [hfds, Descriptors.get_close, if_neg (by omega)]
    refine ⟨hpid ▸ hstd.congr hlow, Or.inr (by omega), ?_, ?_, ?_⟩
    · intro r hr
      rw [hheld] at hr
      split at hr
      · simp [PipeAt] at hr
      · rcases leftFds_high h.opened hzero hr with hr | ⟨rfl, -⟩
        · simp [hmade.free₀, PipeAt] at hr
        · rw [hpid]
          exact ⟨Nat.le_succ _, fun j _ => (List.cons_ne_self j _).symm⟩
    · intro pid cmd' hprev _ hne
      obtain ⟨rfl, -⟩ := Prod.mk.inj (Option.some.inj hprev)
      exact absurd hpid.symm hne
    · intro pid cmd' hprev _ _ hin
      obtain ⟨rfl, rfl⟩ := Prod.mk.inj (Option.some.inj hprev)
      have hleft : (leftFds K s k cmd).get (pipeFor (k :: s.pid) .cmdPipe s.fds).1.1 = none := by
        rw [leftFds_get h.opened hin, if_pos hop, if_neg (by omega), if_neg (by omega),
          hmade.free₀]
      rw [hheld, hleft, ite_self, hlow 0 (by omega)]
      exact ⟨rfl, h.zero_ne_own hsub hin⟩
  · obtain ⟨hfds, hpipefd⟩ : _ ∧ (childAfter K s k cmd).pipefd = _ := childAfter_noPipe hop
    refine .of_standard (by rw [hpid, hfds]; exact hstd) hpipefd ?_
    intro pid cmd' hprev
    obtain ⟨-, rfl⟩ := Prod.mk.inj (Option.some.inj hprev)
    exact hop

end

theorem pipeInv_preserved (K : Kernel) : Preserved K PipeInv where
  skip := by
    intro k prev s h
    exact ⟨h.toStandard, h.pass,
      fun r hr => ⟨(h.passOld r hr).1, fun j hj => (h.passOld r hr).2 j (by omega)⟩,
      h.shell, h.back⟩
  start := by
    intro k prev s h cmd hsub
    exact .of_standard (h.toStandard.derived (subshell_derived h.opened hsub)) rfl (by simp)
  parent := fun h cmd w => h.parent cmd w
  child := fun h _ hsub => h.child hsub

/-! ## Neighbouring commands -/

/-- A process is connected to the processes of its neighbours when it calls `execve` or
`cmd_line_exec`: to the right, if its output is not redirected, and to the left, if its input is
not. `cd` and `our_pwd` make neither call. -/
structure Connected (p : Started) : Prop where
  right : p.fate ≠ .builtin → p.cmd.controlop = .cmdPipe → p.cmd.redirectFilename 1 = none →
    p.fds.get 1 = some (.writeEnd p.pid)
  left : p.fate ≠ .builtin → ∀ pid cmd, p.prev = some (pid, cmd) →
    cmd.controlop = .cmdPipe → p.cmd.redirectFilename 0 = none → p.fds.get 0 = some (.readEnd pid)

/-- The commands for which the code does so: to the right, a simple command has its input not
redirected; to the left, the command is simple, and the process that forks it is not the one of
the command before, which has come back. -/
structure Sound (p : Started) : Prop where
  right : p.fate ≠ .builtin → p.cmd.controlop = .cmdPipe → p.cmd.redirectFilename 1 = none →
    p.cmd.subshell = [] → p.cmd.redirectFilename 0 = none
  left : p.fate ≠ .builtin → ∀ pid cmd, p.prev = some (pid, cmd) →
    cmd.controlop = .cmdPipe → p.cmd.redirectFilename 0 = none → p.cmd.subshell = [] ∧ p.pid.tail ≠ pid

/-- A command is forked by the process of the command before, which has its input redirected. -/
def BehindInput (p : Started) : Prop :=
  ∃ pid cmd, p.prev = some (pid, cmd) ∧ cmd.controlop = .cmdPipe ∧ p.pid.tail = pid ∧
    cmd.redirectFilename 0 ≠ none

section

variable {K : Kernel} {place : Pid} {k : Nat} {prev : Option (Pid × Command)} {s : LineState}
  {cmd : Command} {fate : Fate} (h : PipeInv k prev s)

include h

theorem PipeInv.connected (hsound : Sound (forked K place k prev s cmd fate)) :
    Connected (forked K place k prev s cmd fate) := by
  refine ⟨?_, ?_⟩
  · intro hfate hop hout
    by_cases hsub : cmd.subshell = []
    · have hin := hsound.right hfate hop hout hsub
      exact (childFds_one h.opened h.pass hsub hout).trans (if_pos ⟨hop, hin⟩)
    · exact subshell_one h.opened hsub hop
  · intro hfate pid cmd' hprev hop hin
    obtain ⟨hsub, hne⟩ := hsound.left hfate pid cmd' hprev hop hin
    obtain ⟨-, hpass, hread⟩ := h.shell pid cmd' hprev hop (Ne.symm hne)
    refine (childFds_zero h.opened h.pass hsub hin).trans ?_
    rw [if_neg hpass, hread, Option.some_or]

/-- The shell's own descriptors are not ends of the pipe in question. -/
theorem PipeInv.sound (hback : ¬ BehindInput (forked K place k prev s cmd fate))
    (hconn : Connected (forked K place k prev s cmd fate)) :
    Sound (forked K place k prev s cmd fate) := by
  refine ⟨?_, ?_⟩
  · intro hfate hop hout hsub
    have hwrite := hconn.right hfate hop hout
    by_contra hin
    have hone : (childFds K s k cmd).get 1 = _ := childFds_one h.opened h.pass hsub hout
    rw [if_neg (fun hand => hin hand.2)] at hone
    exact absurd (h.old 1 (by omega) _ (Or.inr (hone.symm.trans hwrite)))
      (Nat.not_le.mpr (Nat.lt_succ_self _))
  · intro hfate pid cmd' hprev hop hin
    have hread := hconn.left hfate pid cmd' hprev hop hin
    by_cases heq : pid = s.pid
    · -- the command before was run by this very process, which closed its pipe
      have hin' : cmd'.redirectFilename 0 = none := by
        by_contra hin'
        exact hback ⟨pid, cmd', hprev, hop, heq.symm, hin'⟩
      obtain ⟨hclosed, hne⟩ := h.back pid cmd' hprev hop heq hin'
      exfalso
      apply hne
      by_cases hsub : cmd.subshell = []
      · have hzero : (childFds K s k cmd).get 0 = _ := childFds_zero h.opened h.pass hsub hin
        rw [hclosed, Option.none_or, ite_self] at hzero
        exact hzero.symm.trans hread
      · exact (subshell_zero h.opened hsub hin).symm.trans hread
    · refine ⟨?_, Ne.symm heq⟩
      by_contra hsub
      have hzero : s.fds.get 0 = _ := (subshell_zero h.opened hsub hin).symm.trans hread
      have hlen := (h.shell pid cmd' hprev hop heq).1
      have hle := h.old 0 (by omega) pid (Or.inl hzero)
      omega

end

/-- In every run, the descriptors of each process that is forked are connected exactly where the
commands are sound. -/
theorem connected_iff {K : Kernel} {pid : Pid} {fds : Descriptors File} {l : List Command}
    (hstd : Standard pid fds) :
    ((∀ p ∈ (run K pid fds l).started, Sound p) →
        ∀ p ∈ (run K pid fds l).started, Connected p) ∧
      ∀ p ∈ (run K pid fds l).started, ¬ BehindInput p → (Connected p ↔ Sound p) := by
  have hall : ∀ p ∈ (run K pid fds l).started,
      (Sound p → Connected p) ∧ (¬ BehindInput p → Connected p → Sound p) :=
    (pipeInv_preserved K).started (fun h _ => ⟨h.connected, h.sound⟩) l
      (.of_standard hstd rfl (by simp))
  exact ⟨fun hsound p hp => (hall p hp).1 (hsound p hp),
    fun p hp hback => ⟨(hall p hp).2 hback, (hall p hp).1⟩⟩

/-- The descriptors the shell is started with. -/
def threeFds : Descriptors File :=
  ⟨[some (.inherited 0), some (.inherited 1), some (.inherited 2)]⟩

theorem threeFds_standard : Standard [] threeFds := by
  refine ⟨?_, ?_⟩
  · intro n hn
    interval_cases n <;> simp [threeFds, Descriptors.get]
  · intro n hn r hr
    interval_cases n <;> simp [threeFds, Descriptors.get, PipeAt] at hr

/-- A kernel in which every system call succeeds. -/
def allSucceed : Kernel :=
  ⟨fun _ => some 0, fun _ _ => true, fun _ => true, fun _ => true, fun _ => 0, fun _ => 0⟩

/-- The commands of the line `a | b`. -/
def twoInPipe : List Command :=
  [⟨[[97]], fun _ => none, [], .cmdPipe⟩, ⟨[[98]], fun _ => none, [], .cmdEnd⟩]

theorem twoInPipe_sound : ∀ p ∈ (run allSucceed [] threeFds twoInPipe).started, Sound p := by
  intro p hp
  rcases List.mem_cons.mp hp with rfl | hp
  · refine ⟨fun _ _ _ _ => rfl, ?_⟩
    intro _ pid cmd hprev
    cases hprev
  · obtain rfl := List.mem_singleton.mp hp
    refine ⟨?_, ?_⟩
    · intro _ hop
      cases hop
    · intro _ pid cmd hprev _ _
      cases hprev
      exact ⟨rfl, by decide⟩

theorem twoInPipe_connected : (run allSucceed [] threeFds twoInPipe).started.length = 2 ∧
    ∀ p ∈ (run allSucceed [] threeFds twoInPipe).started, Connected p :=
  ⟨rfl, (connected_iff threeFds_standard).1 twoInPipe_sound⟩

/-- The commands of the line `a < f | (b)`. -/
def inputThenSubshell : List Command :=
  [⟨[[97]], Function.update (fun _ => none) 0 (some [102]), [], .cmdPipe⟩,
    ⟨[], fun _ => none, [⟨[[98]], fun _ => none, [], .cmdEnd⟩], .cmdEnd⟩]

/-- On the line `a < f | (b)` the subshell does not read from the pipe. -/
theorem pipe_unconnected : ¬ ∀ K pid fds line l, Cmdparse.Returns line l → l ≠ [] →
    Standard pid fds → ∀ p ∈ (run K pid fds l).started, Connected p := by
  intro h
  have hreturns : Cmdparse.Returns [97, 32, 60, 32, 102, 32, 124, 32, 40, 98, 41]
      inputThenSubshell := ⟨20, ⟨[], some []⟩, rfl⟩
  have hne : inputThenSubshell ≠ [] := by simp [inputThenSubshell]
  have hall := h allSucceed [] threeFds _ _ hreturns hne threeFds_standard
  have hsub := hall _ (List.mem_cons_of_mem _ List.mem_cons_self)
  have hread := hsub.left (by decide) _ _ rfl rfl rfl
  exact absurd hread (by decide)

end SystemsProjects.Cmdrun
