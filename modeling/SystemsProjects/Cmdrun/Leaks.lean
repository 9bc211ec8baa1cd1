import SystemsProjects.Cmdrun.Pipes
import SystemsProjects.Cmdrun.Refine

/-!
# Descriptors of the shell

Each command followed by `|` that the shell starts leaves one more descriptor open in it: nothing
closes the read end in `*pass_pipefd` there.
-/

namespace SystemsProjects.Cmdrun
open SystemsProjects.Cmdparse (Command Returns)
open SystemsProjects.Lib

/-! ## The commands that are started -/

/-- The commands that the loop starts from position `k` on. -/
def startedCmds (σ : Pid → Command → UInt8) (pid : Pid) (k : Nat) (status : UInt8)
    (skip : Bool) (l : List Command) : List Command :=
  (execLoop k status skip (exitStatuses σ pid k l)).1.filterMap fun j => l[j - k]?

section

variable {σ : Pid → Command → UInt8} {pid : Pid} {k : Nat} {status : UInt8} {cmd : Command}
  {rest : List Command}

/-- Positions behind the first are positions in the rest. -/
theorem filterMap_tail {js : List Nat} (hjs : ∀ j ∈ js, k + 1 ≤ j) :
    (js.filterMap fun j => (cmd :: rest)[j - k]?) = js.filterMap fun j => rest[j - (k + 1)]? := by
  apply List.filterMap_congr
  intro j hj
  have hle := hjs j hj
  rw [show j - k = j - (k + 1) + 1 by omega, List.getElem?_cons_succ]

theorem startedCmds_skip : startedCmds σ pid k status true (cmd :: rest) =
    startedCmds σ pid (k + 1) status false rest := by
  unfold startedCmds
  rw [exitStatuses, execLoop_skip]
  exact filterMap_tail fun j hj => execLoop_ge hj

theorem startedCmds_start : startedCmds σ pid k status false (cmd :: rest) =
    cmd :: startedCmds σ pid (k + 1)
      (statusAfter cmd.controlop (exitStatus σ (k :: pid) cmd) status)
      (skips cmd.controlop (statusAfter cmd.controlop (exitStatus σ (k :: pid) cmd) status))
      rest := by
  unfold startedCmds
  rw [exitStatuses, execLoop_start, List.filterMap_cons, Nat.sub_self, List.getElem?_cons_zero]
  exact congrArg (cmd :: ·) (filterMap_tail fun j hj => execLoop_ge hj)

end

/-! ## The balance -/

/-- The descriptors of the shell behind a command: those before, and the read end of its pipe. -/
theorem parentAfter_get (s : LineState) (k : Nat) (cmd : Command) (w : UInt8) (n : Nat) :
    (parentAfter s k cmd w).fds.get n =
      if cmd.controlop = .cmdPipe ∧ n = s.fds.lowest then some (.readEnd (k :: s.pid))
      else s.fds.get n := by
  by_cases hop : cmd.controlop = .cmdPipe
  · have hpiped := Descriptors.piped s.fds (.readEnd (k :: s.pid)) (.writeEnd (k :: s.pid))
    have hread : (s.fds.pipe (.readEnd (k :: s.pid)) (.writeEnd (k :: s.pid))).1.1 =
        s.fds.lowest := rfl
    have hne := hpiped.ne
    rw [(parentAfter_pipe hop w).1, pipeFor, if_pos rfl, Descriptors.get_close, hpiped.get]
    rw [hread] at hne ⊢
    by_cases h₀ : n = s.fds.lowest
    · rw [if_neg (fun h₁ => hne (h₀.symm.trans h₁)), if_pos h₀, if_pos ⟨hop, h₀⟩]
    · have hnew : ¬ (cmd.controlop = .cmdPipe ∧ n = s.fds.lowest) := fun hand => h₀ hand.2
      rw [if_neg hnew, if_neg h₀]
      by_cases h₁ : n = (s.fds.pipe (.readEnd (k :: s.pid)) (.writeEnd (k :: s.pid))).1.2
      · rw [if_pos h₁, h₁, hpiped.free₁]
      · rw [if_neg h₁, if_neg h₁]
  · rw [(parentAfter_noPipe hop w).1, if_neg (fun h => hop h.1)]

/-- What a run leaves in the table of the shell: everything that was open, and more if and only if
the run starts a command followed by `|`. -/
structure Leaves (t t' : Descriptors File) (cmds : List Command) : Prop where
  kept : ∀ n, t.get n ≠ none → t'.get n = t.get n
  same : (∀ cmd ∈ cmds, cmd.controlop ≠ .cmdPipe) → ∀ n, t'.get n = t.get n
  more : ∀ cmd ∈ cmds, cmd.controlop = .cmdPipe → ∃ n, t.get n = none ∧ t'.get n ≠ none

theorem Leaves.cons {s : LineState} {k : Nat} {cmd : Command} {w : UInt8} {t' : Descriptors File}
    {cmds : List Command} (h : Leaves (parentAfter s k cmd w).fds t' cmds) :
    Leaves s.fds t' (cmd :: cmds) := by
  have hget := parentAfter_get s k cmd w
  have hkept : ∀ n, s.fds.get n ≠ none → (parentAfter s k cmd w).fds.get n = s.fds.get n := by
    intro n hn
    rw [hget, if_neg]
    rintro ⟨-, rfl⟩
    exact hn s.fds.get_lowest
  refine ⟨?_, ?_, ?_⟩
  · intro n hn
    rw [← hkept n hn]
    exact h.kept n (by rw [hkept n hn]; exact hn)
  · intro hall n
    obtain ⟨hop, hall⟩ := List.forall_mem_cons.mp hall
    rw [h.same hall, hget, if_neg (fun hand => hop hand.1)]
  · intro cmd' hmem hop
    rcases List.mem_cons.mp hmem with rfl | hmem
    · -- the new read end stays open to the end of the list
      have hopen : (parentAfter s k cmd' w).fds.get s.fds.lowest ≠ none := by
        rw [hget, if_pos ⟨hop, rfl⟩]
        simp
      refine ⟨s.fds.lowest, s.fds.get_lowest, ?_⟩
      rw [h.kept _ hopen]
      exact hopen
    · obtain ⟨n, hnone, hsome⟩ := h.more cmd' hmem hop
      refine ⟨n, ?_, hsome⟩
      by_contra hn
      rw [hkept n hn] at hnone
      exact hn hnone

theorem cmdLineExec_leaves {K : Kernel} (hexec : ∀ pid, K.execve pid ≠ none) (l : List Command)
    (hplain : Everywhere Plain l) {top : Bool} {place : Pid} {k : Nat}
    {prev : Option (Pid × Command)} {skip : Bool} {s : LineState} :
    ∃ s', (cmdLineExec K top place k prev skip s l).ending = .returned s' ∧
      Leaves s.fds s'.fds (startedCmds (simpleStatus K) s.pid k s.cmdStatus skip l) := by
  induction l generalizing k prev skip s with
  | nil =>
    refine ⟨s, rfl, fun _ _ => rfl, fun _ _ => rfl, ?_⟩
    intro cmd hmem
    cases hmem
  | cons cmd rest ih =>
    cases skip with
    | true =>
      rw [startedCmds_skip]
      exact ih hplain.tail
    | false =>
      obtain ⟨fate, inner, hrun, -⟩ :=
        cmdLineExec_turn hexec top place k prev s rest hplain.head fun hne =>
          (cmdLineExec_follows hexec cmd.subshell (hplain.subshell hne)).returns
      rw [hrun, startedCmds_start]
      obtain ⟨s', hend, hleaves⟩ := ih hplain.tail
      rw [parentAfter_pid, parentAfter_cmdStatus] at hleaves
      exact ⟨s', hend, hleaves.cons⟩

/-- A line that does not use the `exit` builtin. -/
def NoExit (l : List Command) : Prop :=
  Everywhere (fun cmd => cmd.subshell = [] → ∀ status, action cmd.argv ≠ .exit status) l

theorem action_ne_fault {argv : List (List UInt8)} (h : argv ≠ []) : action argv ≠ .fault := by
  cases argv with
  | nil => exact absurd rfl h
  | cons name args =>
    rw [action]
    split
    · simp
    · split
      · simp
      · split
        · simp
        · simp

/-- The system calls of every process succeed. -/
structure Succeeds (K : Kernel) : Prop where
  execve : ∀ pid, K.execve pid ≠ none
  opens : ∀ pid n, K.opens pid n = true
  chdir : ∀ pid, K.chdir pid = true
  getcwd : ∀ pid, K.getcwd pid = true

/-- The shell returns from a line with the descriptors it had before exactly when it starts no
command followed by `|`. -/
theorem fds_balanced_iff {K : Kernel} (hK : Succeeds K) {line : List UInt8} {l : List Command}
    (hl : Returns line l) (hne : l ≠ []) (hexit : NoExit l) (pid : Pid) (fds : Descriptors File) :
    ∃ s', (run K pid fds l).ending = .returned s' ∧
      ((∀ n, s'.fds.get n ≠ none ↔ fds.get n ≠ none) ↔
        ∀ cmd ∈ startedCmds (simpleStatus K) pid 0 0 false l, cmd.controlop ≠ .cmdPipe) := by
  have hplain : Everywhere Plain l := by
    intro l' hnest cmd hmem hsub
    refine ⟨?_, hexit l' hnest cmd hmem hsub⟩
    have hok := ((hl.wellFormed hne l' hnest).commands cmd hmem).nonempty
    exact action_ne_fault (hok.resolve_right fun h => h hsub)
  obtain ⟨s', hend, hleaves⟩ : ∃ s', (run K pid fds l).ending = .returned s' ∧
      Leaves fds s'.fds (startedCmds (simpleStatus K) pid 0 0 false l) :=
    cmdLineExec_leaves hK.execve l hplain
  refine ⟨s', hend, ?_, ?_⟩
  · intro hsame cmd hmem hop
    obtain ⟨n, hnone, hsome⟩ := hleaves.more cmd hmem hop
    exact (hsame n).mp hsome hnone
  · intro hnone n
    rw [hleaves.same hnone]

theorem allSucceed_succeeds : Succeeds allSucceed :=
  ⟨fun _ => by simp [allSucceed], fun _ _ => rfl, fun _ => rfl, fun _ => rfl⟩

theorem twoInPipe_returns : Returns [97, 32, 124, 32, 98] twoInPipe :=
  ⟨20, ⟨[], some []⟩, rfl⟩

theorem twoInPipe_noExit : NoExit twoInPipe := by
  intro l' hnest
  rcases hnest.cases_head with rfl | ⟨cmd, hmem, hne, -⟩
  · simp [twoInPipe, action]
  · simp only [twoInPipe, List.mem_cons, List.not_mem_nil, or_false] at hmem
    rcases hmem with rfl | rfl
    · exact absurd rfl hne
    · exact absurd rfl hne

theorem twoInPipe_balanced_iff :
    ∃ s', (run allSucceed [] threeFds twoInPipe).ending = .returned s' ∧
      ((∀ n, s'.fds.get n ≠ none ↔ threeFds.get n ≠ none) ↔
        ∀ cmd ∈ startedCmds (simpleStatus allSucceed) [] 0 0 false twoInPipe,
          cmd.controlop ≠ .cmdPipe) :=
  fds_balanced_iff allSucceed_succeeds twoInPipe_returns (by simp [twoInPipe]) twoInPipe_noExit []
    threeFds

/-- The line `a | b` leaves descriptor 3 open. -/
theorem pipe_leaks :
    ¬ ∀ K, Succeeds K → ∀ line l, Returns line l → l ≠ [] → NoExit l →
      ∀ pid fds, ∃ s', (run K pid fds l).ending = .returned s' ∧
        ∀ n, s'.fds.get n ≠ none ↔ fds.get n ≠ none := by
  intro h
  obtain ⟨s', hend, hsame⟩ := h _ allSucceed_succeeds _ _ twoInPipe_returns
    (by simp [twoInPipe]) twoInPipe_noExit [] threeFds
  obtain rfl := Ending.returned.inj hend
  exact absurd (hsame 3) (by decide)

end SystemsProjects.Cmdrun
