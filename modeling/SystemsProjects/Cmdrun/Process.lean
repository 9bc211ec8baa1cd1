import SystemsProjects.Lib.Decimal
import SystemsProjects.Lib.Descriptors
import SystemsProjects.Cmdrun.Status

/-!
# The processes of a command line

`cmd_exec`, `subshell_exec` and `cmd_line_exec` (`cmdrun.c`) with the processes they fork. A run
lists every process that is forked, by the shell, by subshells and by children in which `execve`
came back. `fork` and `pipe` succeed; how other system calls end is given by a `Kernel`. The
strings in `path`, `cwd` and `redirect_filepath` have no part in what is listed.
-/

namespace SystemsProjects.Cmdrun
open SystemsProjects.Cmdparse (Command ControlOp)
open SystemsProjects.Lib

/-- What a descriptor refers to. A pipe is named by the process forked behind the `pipe` call. -/
inductive File where
  | inherited (n : Nat)
  | opened (pid : Pid) (n : Fin 3)
  | readEnd (pid : Pid)
  | writeEnd (pid : Pid)
  deriving DecidableEq

/-- How the system calls of each process end. -/
structure Kernel where
  /-- `execve`: the exit status of the program, or `none` where the call fails and returns. -/
  execve : Pid → Option UInt8
  /-- `open` for redirection `n`. -/
  opens : Pid → Fin 3 → Bool
  /-- `chdir` in the child of a `cd`. -/
  chdir : Pid → Bool
  /-- `getcwd` in the child of an `our_pwd`. -/
  getcwd : Pid → Bool
  /-- The status in `wp_status` before the first `waitpid` of a process. -/
  unset : Pid → UInt8
  /-- The exit status of a process that goes back to `main` and reads more lines there. -/
  later : Pid → UInt8

/-- The variables of `cmd_line_exec`, and the process it runs in. `pipefd` is what `pass_pipefd`
points to; of `wp_status` only the exit status is kept. -/
structure LineState where
  pid : Pid
  fds : Descriptors File
  pipefd : Nat
  wpStatus : UInt8
  cmdStatus : UInt8

/-- A call of `cmd_line_exec`. -/
def LineState.start (K : Kernel) (pid : Pid) (fds : Descriptors File) : LineState :=
  ⟨pid, fds, 0, K.unset pid, 0⟩

/-- What becomes of a forked process. -/
inductive Fate where
  /-- It ends as `cd` or `our_pwd`. -/
  | builtin
  /-- It calls `cmd_line_exec` for the list in parentheses. -/
  | subshell
  /-- `execve` succeeds. -/
  | program
  /-- `execve` fails, and it returns from `cmd_exec` into `cmd_line_exec`. -/
  | comesBack
  deriving DecidableEq

/-- A forked process: the position of its command in the tree of lists, the command, the process
and the command that the call of `cmd_exec` before this one was about, and the descriptors with
which it calls `execve` or `cmd_line_exec`. -/
structure Started where
  pid : Pid
  place : Pid
  cmd : Command
  prev : Option (Pid × Command)
  fds : Descriptors File
  fate : Fate

/-- How a process leaves `cmd_line_exec`: it returns, or `exit` or a signal ends it there. -/
inductive Ending where
  | returned (s : LineState)
  | exited (status : UInt8)

structure Run where
  started : List Started
  ending : Ending

/-- The exit status of a process; at the top `cmd_line_exec` returns to `main`. -/
def Ending.code (K : Kernel) (top : Bool) : Ending → UInt8
  | .returned s => if top then K.later s.pid else s.cmdStatus
  | .exited status => status

/-! ## The parts of `cmd_exec` -/

/-- `pipe (pipefd)`, where the command is followed by `|`. -/
def pipeFor (pid : Pid) (op : ControlOp) (t : Descriptors File) :
    (Nat × Nat) × Descriptors File :=
  if op = .cmdPipe then t.pipe (.readEnd pid) (.writeEnd pid) else ((0, 1), t)

/-- The block of a redirection: `open`, `dup2` onto descriptor `n`, `close`. -/
def redirect (K : Kernel) (pid : Pid) (cmd : Command) (n : Fin 3) (t : Descriptors File) :
    Descriptors File :=
  if (cmd.redirectFilename n).isSome && K.opens pid n then
    (t.alloc (.opened pid n)).2.moveTo (t.alloc (.opened pid n)).1 n
  else t

/-- The block of the left side of a pipe. -/
def leftSide (pipefd : Nat × Nat) (t : Descriptors File) : Descriptors File :=
  (t.close pipefd.1).moveTo pipefd.2 1

/-- The `else if` chain of a simple command: its input is redirected, or else it is the left side of
a pipe. -/
def inputOrLeftSide (K : Kernel) (pid : Pid) (cmd : Command) (pipefd : Nat × Nat)
    (t : Descriptors File) : Descriptors File :=
  if (cmd.redirectFilename 0).isSome then redirect K pid cmd 0 t
  else if cmd.controlop = .cmdPipe then leftSide pipefd t
  else t

/-- The block of the right side of a pipe. -/
def rightSide (passPipefd : Nat) (t : Descriptors File) : Descriptors File :=
  if passPipefd ≠ 0 then t.moveTo passPipefd 0 else t

/-- The descriptors of a simple command's process at `execve` (`cmdrun.c:231-257`). -/
def cmdFds (K : Kernel) (pid : Pid) (cmd : Command) (pipefd : Nat × Nat) (passPipefd : Nat)
    (t : Descriptors File) : Descriptors File :=
  rightSide passPipefd
    (inputOrLeftSide K pid cmd pipefd (redirect K pid cmd 2 (redirect K pid cmd 1 t)))

/-- The descriptors of a subshell's process when it calls `cmd_line_exec` (`cmdrun.c:130-152`). -/
def subshellFds (K : Kernel) (pid : Pid) (cmd : Command) (pipefd : Nat × Nat)
    (t : Descriptors File) : Descriptors File :=
  let t := redirect K pid cmd 2 (redirect K pid cmd 0 (redirect K pid cmd 1 t))
  if cmd.controlop = .cmdPipe then leftSide pipefd t else t

/-- The end of `cmd_exec` and of `subshell_exec`, in the parent. -/
def parentPart (op : ControlOp) (pipefd : Nat × Nat) (s : LineState) : LineState :=
  if op = .cmdPipe then { s with pipefd := pipefd.1, fds := s.fds.close pipefd.2 }
  else { s with pipefd := 0 }

/-- The call of `waitpid` in `cmd_line_exec`, when it leaves `w` in `wp_status`. -/
def waited (op : ControlOp) (w : UInt8) (s : LineState) : LineState :=
  { s with
    wpStatus := if isWaitCmd op then w else s.wpStatus
    cmdStatus := statusAfter op w s.cmdStatus }

/-- What `cmd_exec` does with the words of a simple command. -/
inductive Action where
  /-- `strcmp` of a null pointer. -/
  | fault
  | exit (status : UInt8)
  | ourPwd
  | cd
  | execve

def action : List (List UInt8) → Action
  | [] => .fault
  | name :: args =>
    -- "exit" with more than one argument goes on like any other word
    if name = [101, 120, 105, 116] ∧ args.length ≤ 1 then
      .exit (args.head?.elim 0 fun arg => UInt8.ofNat (atoiInt arg).toNat)
    else if name = [111, 117, 114, 95, 112, 119, 100] then .ourPwd
    else if name = [99, 100] then .cd
    else .execve

/-! ## One turn of the loop -/

/-- The state of the shell behind `cmd_exec` and `waitpid`, when the child exits with `w`. -/
def parentAfter (s : LineState) (k : Nat) (cmd : Command) (w : UInt8) : LineState :=
  let (pipefd, t) := pipeFor (k :: s.pid) cmd.controlop s.fds
  waited cmd.controlop w (parentPart cmd.controlop pipefd { s with fds := t })

/-- The descriptors of the child at `execve`, or where it calls `cmd_line_exec`. -/
def childFds (K : Kernel) (s : LineState) (k : Nat) (cmd : Command) : Descriptors File :=
  let (pipefd, t) := pipeFor (k :: s.pid) cmd.controlop s.fds
  if cmd.subshell.isEmpty then cmdFds K (k :: s.pid) cmd pipefd s.pipefd t
  else subshellFds K (k :: s.pid) cmd pipefd t

/-- The state of a child in which `execve` has failed, behind `cmd_exec` and `waitpid`: it has no
child to wait for, and `wp_status` stays as it is. -/
def childAfter (K : Kernel) (s : LineState) (k : Nat) (cmd : Command) : LineState :=
  let (pipefd, _) := pipeFor (k :: s.pid) cmd.controlop s.fds
  waited cmd.controlop s.wpStatus
    (parentPart cmd.controlop pipefd { s with pid := k :: s.pid, fds := childFds K s k cmd })

section

variable {K : Kernel} {s : LineState} {k : Nat} {cmd : Command}

theorem parentAfter_pipe (hop : cmd.controlop = .cmdPipe) (w : UInt8) :
    (parentAfter s k cmd w).fds = (pipeFor (k :: s.pid) .cmdPipe s.fds).2.close
        (pipeFor (k :: s.pid) .cmdPipe s.fds).1.2 ∧
      (parentAfter s k cmd w).pipefd = (pipeFor (k :: s.pid) .cmdPipe s.fds).1.1 := by
  simp [parentAfter, waited, parentPart, hop]

theorem parentAfter_noPipe (hop : cmd.controlop ≠ .cmdPipe) (w : UInt8) :
    (parentAfter s k cmd w).fds = s.fds ∧ (parentAfter s k cmd w).pipefd = 0 := by
  simp [parentAfter, waited, parentPart, pipeFor, hop]

theorem parentAfter_pid (w : UInt8) : (parentAfter s k cmd w).pid = s.pid := by
  by_cases hop : cmd.controlop = .cmdPipe <;> simp [parentAfter, waited, parentPart, hop]

theorem parentAfter_cmdStatus (w : UInt8) :
    (parentAfter s k cmd w).cmdStatus = statusAfter cmd.controlop w s.cmdStatus := by
  by_cases hop : cmd.controlop = .cmdPipe <;> simp [parentAfter, waited, parentPart, hop]

theorem childAfter_pipe (hop : cmd.controlop = .cmdPipe) :
    (childAfter K s k cmd).fds =
        (childFds K s k cmd).close (pipeFor (k :: s.pid) .cmdPipe s.fds).1.2 ∧
      (childAfter K s k cmd).pipefd = (pipeFor (k :: s.pid) .cmdPipe s.fds).1.1 := by
  simp [childAfter, waited, parentPart, hop]

theorem childAfter_noPipe (hop : cmd.controlop ≠ .cmdPipe) :
    (childAfter K s k cmd).fds = childFds K s k cmd ∧ (childAfter K s k cmd).pipefd = 0 := by
  simp [childAfter, waited, parentPart, hop]

theorem childAfter_pid : (childAfter K s k cmd).pid = k :: s.pid := by
  by_cases hop : cmd.controlop = .cmdPipe <;> simp [childAfter, waited, parentPart, hop]

end

/-- The process that a command is forked into. -/
def forked (K : Kernel) (place : Pid) (k : Nat) (prev : Option (Pid × Command)) (s : LineState)
    (cmd : Command) (fate : Fate) : Started :=
  ⟨k :: s.pid, k :: place, cmd, prev, childFds K s k cmd, fate⟩

/-- A run behind a forked process and the processes that this one forks. -/
def Run.behind (r : Run) (p : Started) (inner : List Started) : Run :=
  ⟨p :: inner ++ r.started, r.ending⟩

/-- One turn of the loop. `next` is the rest of the loop, `sub` the call of `cmd_line_exec` for the
list in parentheses. -/
def turn (K : Kernel) (top : Bool) (place : Pid) (k : Nat) (prev : Option (Pid × Command))
    (s : LineState) (cmd : Command) (sub next : LineState → Run) : Run :=
  let forked := forked K place k prev s cmd
  let parent (w : UInt8) : Run := next (parentAfter s k cmd w)
  if cmd.subshell.isEmpty then
    match action cmd.argv with
    | .fault => ⟨[], .exited 0⟩ -- `WEXITSTATUS` is 0 after a signal
    | .exit status => ⟨[], .exited status⟩
    | .ourPwd => (parent (if K.getcwd (k :: s.pid) then 0 else 1)).behind (forked .builtin) []
    | .cd => (parent (if K.chdir (k :: s.pid) then 0 else 255)).behind (forked .builtin) []
    | .execve =>
      match K.execve (k :: s.pid) with
      | some status => (parent status).behind (forked .program) []
      | none =>
        let child := next (childAfter K s k cmd)
        (parent (child.ending.code K top)).behind (forked .comesBack) child.started
  else
    let child := sub (.start K (k :: s.pid) (childFds K s k cmd))
    (parent (child.ending.code K false)).behind (forked .subshell) child.started

mutual

/-- The loop at a command, `next` being the rest of the loop. -/
def cmdExec (K : Kernel) (top : Bool) (place : Pid) (k : Nat) (prev : Option (Pid × Command))
    (s : LineState) (next : LineState → Run) : Command → Run
  | ⟨argv, redirectFilename, subshell, op⟩ =>
    turn K top place k prev s ⟨argv, redirectFilename, subshell, op⟩
      (fun s => cmdLineExec K false (k :: place) 0 none false s subshell) next

/-- The loop of `cmd_line_exec` from position `k` on. -/
def cmdLineExec (K : Kernel) (top : Bool) (place : Pid) (k : Nat) (prev : Option (Pid × Command))
    (skip : Bool) (s : LineState) : List Command → Run
  | [] => ⟨[], .returned s⟩
  | cmd :: rest =>
    if skip then cmdLineExec K top place (k + 1) prev false s rest
    else
      cmdExec K top place k prev s
        (fun s' => cmdLineExec K top place (k + 1) (some (k :: s.pid, cmd))
          (skips cmd.controlop s'.cmdStatus) s' rest)
        cmd

end

/-- The shell runs a command line. -/
def run (K : Kernel) (pid : Pid) (fds : Descriptors File) (l : List Command) : Run :=
  cmdLineExec K true [] 0 none false (.start K pid fds) l

section

variable (K : Kernel) (top : Bool) (place : Pid) (k : Nat) (prev : Option (Pid × Command))
  (s : LineState) (cmd : Command) (rest : List Command)

@[simp]
theorem cmdLineExec_nil (skip : Bool) :
    cmdLineExec K top place k prev skip s [] = ⟨[], .returned s⟩ := rfl

theorem cmdLineExec_start : cmdLineExec K top place k prev false s (cmd :: rest) =
    turn K top place k prev s cmd
      (fun s => cmdLineExec K false (k :: place) 0 none false s cmd.subshell)
      (fun s' => cmdLineExec K top place (k + 1) (some (k :: s.pid, cmd))
        (skips cmd.controlop s'.cmdStatus) s' rest) := by
  cases cmd
  rfl

end

/-! ## The cases of a turn -/

/-- The exit status of a builtin in its process. -/
def builtinStatus (K : Kernel) (pid : Pid) : Action → Option UInt8
  | .ourPwd => some (if K.getcwd pid then 0 else 1)
  | .cd => some (if K.chdir pid then 0 else 255)
  | _ => none

/-- What a turn of the loop can do. -/
inductive TurnCase (K : Kernel) (top : Bool) (place : Pid) (k : Nat)
    (prev : Option (Pid × Command)) (s : LineState) (cmd : Command)
    (sub next : LineState → Run) : Run → Prop
  | exited (status : UInt8) (simple : cmd.subshell = [])
      (act : action cmd.argv = .fault ∧ status = 0 ∨ action cmd.argv = .exit status) :
      TurnCase K top place k prev s cmd sub next ⟨[], .exited status⟩
  | builtin (w : UInt8) (simple : cmd.subshell = [])
      (act : builtinStatus K (k :: s.pid) (action cmd.argv) = some w) :
      TurnCase K top place k prev s cmd sub next
        ((next (parentAfter s k cmd w)).behind (forked K place k prev s cmd .builtin) [])
  | program (w : UInt8) (simple : cmd.subshell = []) (act : action cmd.argv = .execve)
      (succeeds : K.execve (k :: s.pid) = some w) :
      TurnCase K top place k prev s cmd sub next
        ((next (parentAfter s k cmd w)).behind (forked K place k prev s cmd .program) [])
  | comesBack (child : Run) (simple : cmd.subshell = []) (act : action cmd.argv = .execve)
      (fails : K.execve (k :: s.pid) = none) (hchild : child = next (childAfter K s k cmd)) :
      TurnCase K top place k prev s cmd sub next
        ((next (parentAfter s k cmd (child.ending.code K top))).behind
          (forked K place k prev s cmd .comesBack) child.started)
  | subshell (child : Run) (nested : cmd.subshell ≠ [])
      (hchild : child = sub (.start K (k :: s.pid) (childFds K s k cmd))) :
      TurnCase K top place k prev s cmd sub next
        ((next (parentAfter s k cmd (child.ending.code K false))).behind
          (forked K place k prev s cmd .subshell) child.started)

theorem turn_case (K : Kernel) (top : Bool) (place : Pid) (k : Nat) (prev : Option (Pid × Command))
    (s : LineState) (cmd : Command) (sub next : LineState → Run) :
    TurnCase K top place k prev s cmd sub next (turn K top place k prev s cmd sub next) := by
  unfold turn
  by_cases hsub : cmd.subshell = []
  · rw [if_pos (List.isEmpty_iff.mpr hsub)]
    cases hact : action cmd.argv with
    | fault => exact .exited 0 hsub (Or.inl ⟨hact, rfl⟩)
    | exit status => exact .exited status hsub (Or.inr hact)
    | ourPwd => exact .builtin _ hsub (by rw [hact]; rfl)
    | cd => exact .builtin _ hsub (by rw [hact]; rfl)
    | execve =>
      cases hexec : K.execve (k :: s.pid) with
      | some w => exact .program w hsub hact hexec
      | none => exact .comesBack _ hsub hact hexec rfl
  · rw [if_neg (fun h => hsub (List.isEmpty_iff.mp h))]
    exact .subshell _ hsub rfl

/-! ## Invariants of the loop -/

/-- The fate of a process goes with the outcome of `execve`. -/
structure FateOk (K : Kernel) (pid : Pid) (fate : Fate) : Prop where
  program : fate = .program → K.execve pid ≠ none
  comesBack : fate = .comesBack → K.execve pid = none

/-- `Inv` holds at the head of the loop in every process: the shell, a child that has come back
and a subshell. -/
structure Preserved (K : Kernel) (Inv : Nat → Option (Pid × Command) → LineState → Prop) :
    Prop where
  skip : ∀ {k prev s}, Inv k prev s → Inv (k + 1) prev s
  parent : ∀ {k prev s}, Inv k prev s → ∀ cmd w,
    Inv (k + 1) (some (k :: s.pid, cmd)) (parentAfter s k cmd w)
  child : ∀ {k prev s}, Inv k prev s → ∀ cmd, cmd.subshell = [] →
    Inv (k + 1) (some (k :: s.pid, cmd)) (childAfter K s k cmd)
  start : ∀ {k prev s}, Inv k prev s → ∀ cmd, cmd.subshell ≠ [] →
    Inv 0 none (.start K (k :: s.pid) (childFds K s k cmd))

/-- One turn: what holds of the process it forks and of the runs it leads to holds of its run. -/
theorem turn_started {K : Kernel} {top : Bool} {place : Pid} {k : Nat}
    {prev : Option (Pid × Command)} {s : LineState} {cmd : Command} {sub next : LineState → Run}
    {P : Started → Prop}
    (hforked : ∀ fate, FateOk K (k :: s.pid) fate → P (forked K place k prev s cmd fate))
    (hparent : ∀ w, ∀ p ∈ (next (parentAfter s k cmd w)).started, P p)
    (hchild : cmd.subshell = [] → ∀ p ∈ (next (childAfter K s k cmd)).started, P p)
    (hsub : cmd.subshell ≠ [] →
      ∀ p ∈ (sub (.start K (k :: s.pid) (childFds K s k cmd))).started, P p) :
    ∀ p ∈ (turn K top place k prev s cmd sub next).started, P p := by
  have hbehind : ∀ {r : Run} {fate : Fate} {inner : List Started},
      FateOk K (k :: s.pid) fate → (∀ p ∈ inner, P p) → (∀ p ∈ r.started, P p) →
      ∀ p ∈ (r.behind (forked K place k prev s cmd fate) inner).started, P p := by
    intro r fate inner hfate hinner hrest
    rw [Run.behind, List.cons_append, List.forall_mem_cons, List.forall_mem_append]
    exact ⟨hforked fate hfate, hinner, hrest⟩
  have hcase := turn_case K top place k prev s cmd sub next
  generalize turn K top place k prev s cmd sub next = r at hcase ⊢
  cases hcase with
  | exited => simp
  | builtin w simple =>
    exact hbehind ⟨by simp, by simp⟩ (by simp) (hparent w)
  | program w simple act succeeds =>
    exact hbehind ⟨by simp [succeeds], by simp⟩ (by simp) (hparent w)
  | comesBack child simple act fails hrun =>
    exact hbehind ⟨by simp, fun _ => fails⟩ (hrun ▸ hchild simple) (hparent _)
  | subshell child nested hrun =>
    exact hbehind ⟨by simp, by simp⟩ (hrun ▸ hsub nested) (hparent _)

/-- What holds of every process forked in one turn holds of all processes of a run. -/
theorem Preserved.started {K : Kernel}
    {Inv : Nat → Option (Pid × Command) → LineState → Prop} (hinv : Preserved K Inv) {P : Started → Prop}
    (hforked : ∀ {place k prev s cmd fate}, Inv k prev s → FateOk K (k :: s.pid) fate →
      P (forked K place k prev s cmd fate))
    (l : List Command) {top : Bool} {place : Pid} {k : Nat} {prev : Option (Pid × Command)}
    {skip : Bool} {s : LineState} (hs : Inv k prev s) :
    ∀ p ∈ (cmdLineExec K top place k prev skip s l).started, P p := by
  induction l using commands_induction generalizing top place k prev skip s with
  | nil => simp
  | cons cmd rest ihSub ihRest =>
    cases skip with
    | true => exact ihRest (hinv.skip hs)
    | false =>
      rw [cmdLineExec_start]
      refine turn_started (fun fate hfate => hforked hs hfate) (fun w => ?_) (fun simple => ?_)
        (fun nested => ?_)
      · exact ihRest (hinv.parent hs cmd w)
      · exact ihRest (hinv.child hs cmd simple)
      · exact ihSub (hinv.start hs cmd nested)

end SystemsProjects.Cmdrun
