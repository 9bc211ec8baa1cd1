import SystemsProjects.Cmdrun.Process

/-!
# Children that come back

A child whose `execve` fails has no `exit` behind it: it returns from `cmd_exec` into the loop of
`cmd_line_exec` and runs the rest of the list beside the shell.
-/

namespace SystemsProjects.Cmdrun
open SystemsProjects.Cmdparse (Command)
open SystemsProjects.Lib

/-- The same system calls with other outcomes of `execve`. -/
def Kernel.withExecve (K : Kernel) (execve : Pid → Option UInt8) : Kernel := { K with execve }

/-- A kernel in which a program that `execve` cannot run exits with a status from `f`. -/
def Kernel.exiting (K : Kernel) (f : Pid → UInt8) : Kernel :=
  K.withExecve fun pid => some ((K.execve pid).getD (f pid))

theorem Kernel.exiting_execve (K : Kernel) (f : Pid → UInt8) (pid : Pid) :
    (K.exiting f).execve pid = some ((K.execve pid).getD (f pid)) := rfl

/-- The outcomes of `execve` in the listed processes are those of `g`. -/
def Agree (K : Kernel) (g : Pid → Option UInt8) (l : List Started) : Prop :=
  ∀ p ∈ l, p.fate = .program ∨ p.fate = .comesBack → g p.pid = K.execve p.pid

theorem agree_behind {K : Kernel} {g : Pid → Option UInt8} {r : Run} {p : Started}
    {inner : List Started} : Agree K g (r.behind p inner).started ↔
      (p.fate = .program ∨ p.fate = .comesBack → g p.pid = K.execve p.pid) ∧
        Agree K g inner ∧ Agree K g r.started := by
  simp only [Agree, Run.behind, List.cons_append, List.forall_mem_cons, List.forall_mem_append]

section

variable {K : Kernel} {g : Pid → Option UInt8} {top : Bool} {place : Pid} {k : Nat}
  {prev : Option (Pid × Command)} {s : LineState}

/-- A turn depends on the outcomes of `execve` in the processes it lists only. -/
theorem turn_congr {cmd : Command} {sub sub' next next' : LineState → Run}
    (h : Agree K g (turn K top place k prev s cmd sub next).started)
    (hsub : ∀ s, Agree K g (sub s).started → sub' s = sub s)
    (hnext : ∀ s, Agree K g (next s).started → next' s = next s) :
    turn (K.withExecve g) top place k prev s cmd sub' next' =
      turn K top place k prev s cmd sub next := by
  unfold turn at h ⊢
  by_cases hempty : cmd.subshell.isEmpty = true
  · simp only [if_pos hempty] at h ⊢
    cases hact : action cmd.argv with
    | fault => rfl
    | exit status => rfl
    | ourPwd =>
      rw [hact] at h
      exact congrArg (Run.behind · _ _) (hnext _ (agree_behind.mp h).2.2)
    | cd =>
      rw [hact] at h
      exact congrArg (Run.behind · _ _) (hnext _ (agree_behind.mp h).2.2)
    | execve =>
      simp only [hact] at h ⊢
      cases hexec : K.execve (k :: s.pid) with
      | some w =>
        rw [hexec] at h
        obtain ⟨hp, -, hrest⟩ := agree_behind.mp h
        have hg : (K.withExecve g).execve (k :: s.pid) = some w := (hp (Or.inl rfl)).trans hexec
        rw [hg]
        exact congrArg (Run.behind · _ _) (hnext _ hrest)
      | none =>
        rw [hexec] at h
        obtain ⟨hp, hchild, hrest⟩ := agree_behind.mp h
        have hg : (K.withExecve g).execve (k :: s.pid) = none := (hp (Or.inr rfl)).trans hexec
        have hback : next' (childAfter (K.withExecve g) s k cmd) = next (childAfter K s k cmd) :=
          hnext _ hchild
        rw [hg, hback]
        exact congrArg (Run.behind · _ _) (hnext _ hrest)
  · simp only [if_neg hempty] at h ⊢
    obtain ⟨-, hchild, hrest⟩ := agree_behind.mp h
    have hinner : sub' (.start (K.withExecve g) (k :: s.pid) (childFds (K.withExecve g) s k cmd)) =
        sub (.start K (k :: s.pid) (childFds K s k cmd)) := hsub _ hchild
    rw [hinner]
    exact congrArg (Run.behind · _ _) (hnext _ hrest)

theorem cmdLineExec_congr (l : List Command) {skip : Bool}
    (h : Agree K g (cmdLineExec K top place k prev skip s l).started) :
    cmdLineExec (K.withExecve g) top place k prev skip s l =
      cmdLineExec K top place k prev skip s l := by
  induction l using commands_induction generalizing top place k prev skip s with
  | nil => rfl
  | cons cmd rest ihSub ihRest =>
    cases skip with
    | true => exact ihRest h
    | false =>
      rw [cmdLineExec_start] at h ⊢
      rw [cmdLineExec_start]
      exact turn_congr h (fun s hs => ihSub hs) fun s hs => ihRest hs

end

/-- The fate of a process tells how its `execve` ends. -/
theorem run_fate {K : Kernel} {pid : Pid} {fds : Descriptors File} (l : List Command) :
    ∀ p ∈ (run K pid fds l).started, FateOk K p.pid p.fate := by
  have hinv : Preserved K fun _ _ _ => True :=
    ⟨fun _ => trivial, fun _ _ _ => trivial, fun _ _ _ => trivial, fun _ _ _ => trivial⟩
  exact hinv.started (fun _ hfate => hfate) l trivial

/-! ## Later commands -/

/-- No child comes back, and each command of the line is started as often as if a program that
cannot be run had exited with a status from `f`. -/
structure OnlyTheShell (K : Kernel) (f : Pid → UInt8) (pid : Pid) (fds : Descriptors File)
    (l : List Command) : Prop where
  noReturn : ∀ p ∈ (run K pid fds l).started, p.fate ≠ .comesBack
  starts : ∀ place, (run K pid fds l).started.countP (·.place = place) =
    (run (K.exiting f) pid fds l).started.countP (·.place = place)

/-- Only the shell goes on behind a command exactly when every program can be run that the shell
starts, those that cannot be run counting as programs that exit with `f`. -/
theorem onlyTheShell_iff (K : Kernel) (f : Pid → UInt8) (pid : Pid) (fds : Descriptors File)
    (l : List Command) : OnlyTheShell K f pid fds l ↔
      ∀ p ∈ (run (K.exiting f) pid fds l).started, p.fate = .program →
        K.execve p.pid ≠ none := by
  constructor
  · intro h
    have hagree : Agree K (K.exiting f).execve (run K pid fds l).started := by
      intro p hp hfate
      have hprogram := hfate.resolve_right (h.noReturn p hp)
      obtain ⟨w, hw⟩ := Option.ne_none_iff_exists'.mp ((run_fate l p hp).program hprogram)
      rw [Kernel.exiting_execve, hw, Option.getD_some]
    have heq : run (K.exiting f) pid fds l = run K pid fds l := cmdLineExec_congr l hagree
    rw [heq]
    intro p hp
    exact (run_fate l p hp).program
  · intro h
    have hagree : Agree (K.exiting f) K.execve (run (K.exiting f) pid fds l).started := by
      intro p hp hfate
      rcases hfate with hfate | hfate
      · obtain ⟨w, hw⟩ := Option.ne_none_iff_exists'.mp (h p hp hfate)
        rw [Kernel.exiting_execve, hw, Option.getD_some]
      · exact absurd ((run_fate l p hp).comesBack hfate) (by simp [Kernel.exiting_execve])
    have heq : run K pid fds l = run (K.exiting f) pid fds l := cmdLineExec_congr l hagree
    refine ⟨fun p hp hback => ?_, fun place => by rw [heq]⟩
    rw [heq] at hp
    exact absurd ((run_fate l p hp).comesBack hback) (by simp [Kernel.exiting_execve])

/-- The commands of the line `a;b`. -/
def twoWords : List Command :=
  [⟨[[97]], fun _ => none, [], .cmdSemicolon⟩, ⟨[[98]], fun _ => none, [], .cmdEnd⟩]

/-- If there is no program `a`, the line `a;b` starts `b` twice. -/
theorem missing_program_starts_twice :
    ¬ ∀ K f pid fds line l, Cmdparse.Returns line l → l ≠ [] → (∀ p, f p ≠ 0) →
      OnlyTheShell K f pid fds l := by
  intro h
  have hreturns : Cmdparse.Returns [97, 59, 98] twoWords := ⟨8, ⟨[], some []⟩, rfl⟩
  have honly := h ⟨fun pid => if pid = [0] then none else some 0, fun _ _ => true, fun _ => true,
    fun _ => true, fun _ => 0, fun _ => 0⟩ (fun _ => 127) [] ⟨[]⟩ _ _ hreturns
    (by simp [twoWords]) (fun _ => by decide)
  exact absurd (honly.starts [1]) (by decide)

end SystemsProjects.Cmdrun
