import SystemsProjects.Cmdrun.Refine

/-!
# What a command list means

`&&` and `||` join pipelines from left to right: a pipeline that is held back keeps the status as it
is, and the operator behind it decides again. `cmd_line_exec` leaves out one command instead
(`cmdrun.c:335-338`). Both are the same evaluator with another rule for the next command.
-/

namespace SystemsProjects.Cmdrun
open SystemsProjects.Cmdparse (Command ControlOp)

/-- Whether the next command is run, by the operator, the status, and whether the command in front
of the operator was run. -/
abbrev Rule := ControlOp → UInt8 → Bool → Bool

/-- The rule of the operators. -/
def goesOn : Rule := fun op status runs =>
  match op with
  | .cmdAnd => status = 0
  | .cmdOr => status ≠ 0
  | .cmdPipe => runs
  | _ => true

/-- The rule of the code. -/
def codeGoesOn : Rule := fun op status runs => !(runs && skips op status)

mutual

/-- The processes that the process of a command starts, in order, and its exit status. -/
def processRun (goes : Rule) (σ : Pid → Command → UInt8) (pid : Pid) :
    Command → List Pid × UInt8
  | ⟨argv, redirectFilename, subshell, op⟩ =>
    if subshell.isEmpty then ([], σ pid ⟨argv, redirectFilename, subshell, op⟩)
    else lineRun goes σ pid 0 0 true subshell

/-- The processes that are started for a list, in order, and the status it has. -/
def lineRun (goes : Rule) (σ : Pid → Command → UInt8) (pid : Pid) (k : Nat) (status : UInt8)
    (runs : Bool) : List Command → List Pid × UInt8
  | [] => ([], status)
  | cmd :: rest =>
    if runs then
      let inner := processRun goes σ (k :: pid) cmd
      let status := statusAfter cmd.controlop inner.2 status
      let behind := lineRun goes σ pid (k + 1) status (goes cmd.controlop status true) rest
      ((k :: pid) :: (inner.1 ++ behind.1), behind.2)
    else lineRun goes σ pid (k + 1) status (goes cmd.controlop status false) rest

end

/-- The meaning of a list: the processes it starts and its status. -/
def meaning (σ : Pid → Command → UInt8) (pid : Pid) (l : List Command) : List Pid × UInt8 :=
  lineRun goesOn σ pid 0 0 true l

/-- When a command is left out and there is one behind it, it is followed neither by `|` nor by the
operator for which it was left out. -/
def NextJudged (op : ControlOp) (status : UInt8) (rest : List Command) : Prop :=
  skips op status = true → ∀ next behind, rest = next :: behind → behind ≠ [] →
    next.controlop ≠ .cmdPipe ∧ next.controlop ≠ op

mutual

/-- A command in whose subshell no command is misjudged. -/
def ProcessJudged (σ : Pid → Command → UInt8) (pid : Pid) : Command → Prop
  | ⟨_, _, subshell, _⟩ => LineJudged σ pid 0 0 true subshell

/-- No command of a list is misjudged, as the code runs it. -/
def LineJudged (σ : Pid → Command → UInt8) (pid : Pid) (k : Nat) (status : UInt8)
    (runs : Bool) : List Command → Prop
  | [] => True
  | cmd :: rest =>
    if runs then
      ProcessJudged σ (k :: pid) cmd ∧
      let status := statusAfter cmd.controlop (processRun codeGoesOn σ (k :: pid) cmd).2 status
      NextJudged cmd.controlop status rest ∧
      LineJudged σ pid (k + 1) status (codeGoesOn cmd.controlop status true) rest
    else LineJudged σ pid (k + 1) status (codeGoesOn cmd.controlop status false) rest

end

section
variable {goes : Rule} {σ : Pid → Command → UInt8} {pid : Pid} {k : Nat} {status : UInt8}
  {cmd : Command} {rest : List Command}

theorem processRun_eq : processRun goes σ pid cmd =
    if cmd.subshell.isEmpty then ([], σ pid cmd)
    else lineRun goes σ pid 0 0 true cmd.subshell := by
  cases cmd
  rfl

theorem processJudged_eq :
    ProcessJudged σ pid cmd ↔ LineJudged σ pid 0 0 true cmd.subshell := by
  cases cmd
  rfl

theorem lineRun_run {w : List Pid × UInt8} (hw : processRun goes σ (k :: pid) cmd = w) :
    lineRun goes σ pid k status true (cmd :: rest) =
      ((k :: pid) :: (w.1 ++ (lineRun goes σ pid (k + 1) (statusAfter cmd.controlop w.2 status)
        (goes cmd.controlop (statusAfter cmd.controlop w.2 status) true) rest).1),
      (lineRun goes σ pid (k + 1) (statusAfter cmd.controlop w.2 status)
        (goes cmd.controlop (statusAfter cmd.controlop w.2 status) true) rest).2) := by
  rw [← hw]
  rfl

theorem lineRun_skip : lineRun goes σ pid k status false (cmd :: rest) =
    lineRun goes σ pid (k + 1) status (goes cmd.controlop status false) rest := rfl

end

/-! ## Which process belongs to which command -/

/-- A process of a list is that of a command from position `k` on, or is started by it. -/
theorem lineRun_suffix {goes : Rule} {σ : Pid → Command → UInt8} (l : List Command)
    {pid p : Pid} {k : Nat} {status : UInt8} {runs : Bool}
    (hp : p ∈ (lineRun goes σ pid k status runs l).1) :
    ∃ j, k ≤ j ∧ (j :: pid) <:+ p := by
  induction l using commands_induction generalizing pid k status runs with
  | nil => exact absurd hp List.not_mem_nil
  | cons cmd rest ihSub ihRest =>
    have hbehind : ∀ {status runs}, p ∈ (lineRun goes σ pid (k + 1) status runs rest).1 →
        ∃ j, k ≤ j ∧ (j :: pid) <:+ p := by
      intro status runs h
      obtain ⟨j, hj, hsuf⟩ := ihRest h
      exact ⟨j, Nat.le_of_succ_le hj, hsuf⟩
    cases runs with
    | false => exact hbehind hp
    | true =>
      rw [lineRun_run rfl, List.mem_cons, List.mem_append] at hp
      rcases hp with rfl | hp | hp
      · exact ⟨k, le_refl k, List.suffix_refl _⟩
      · rw [processRun_eq] at hp
        split_ifs at hp with hsub
        · exact absurd hp List.not_mem_nil
        · obtain ⟨j, -, hsuf⟩ := ihSub hp
          exact ⟨k, le_refl k, (List.suffix_cons j (k :: pid)).trans hsuf⟩
      · exact hbehind hp

theorem processRun_suffix {goes : Rule} {σ : Pid → Command → UInt8} {cmd : Command}
    {pid p : Pid} (hp : p ∈ (processRun goes σ pid cmd).1) : pid <:+ p := by
  rw [processRun_eq] at hp
  split_ifs at hp
  · exact absurd hp List.not_mem_nil
  · obtain ⟨j, -, hsuf⟩ := lineRun_suffix cmd.subshell hp
    exact (List.suffix_cons j pid).trans hsuf

/-- Two positions in one list. -/
theorem position_eq {pid p : Pid} {i j : Nat} (hi : (i :: pid) <:+ p) (hj : (j :: pid) <:+ p) :
    i = j := by
  have h := List.suffix_of_suffix_length_le hi hj (le_refl _)
  exact (List.cons.inj (h.eq_of_length (by simp))).1

/-- The processes of a command and those of the commands behind it tell themselves apart. -/
theorem runs_inj {goes goes' : Rule} {σ : Pid → Command → UInt8} {cmd : Command}
    {rest : List Command} {pid : Pid} {k : Nat} {status status' : UInt8} {runs runs' : Bool}
    (h : (processRun goes σ (k :: pid) cmd).1 ++
        (lineRun goes σ pid (k + 1) status runs rest).1 =
      (processRun goes' σ (k :: pid) cmd).1 ++
        (lineRun goes' σ pid (k + 1) status' runs' rest).1) :
    (processRun goes σ (k :: pid) cmd).1 = (processRun goes' σ (k :: pid) cmd).1 ∧
      (lineRun goes σ pid (k + 1) status runs rest).1 =
        (lineRun goes' σ pid (k + 1) status' runs' rest).1 := by
  have hmine : ∀ goes, ∀ p ∈ (processRun goes σ (k :: pid) cmd).1, (k :: pid) <:+ p :=
    fun goes p hp => processRun_suffix hp
  have hother : ∀ goes status runs, ∀ p ∈ (lineRun goes σ pid (k + 1) status runs rest).1,
      ¬ (k :: pid) <:+ p := by
    intro goes status runs p hp hk
    obtain ⟨j, hj, hsuf⟩ := lineRun_suffix rest hp
    exact absurd (position_eq hk hsuf) (by omega)
  have hfilter := congrArg (List.filter fun p => decide ((k :: pid) <:+ p)) h
  have hkeep : ∀ goes, (processRun goes σ (k :: pid) cmd).1.filter
      (fun p => decide ((k :: pid) <:+ p)) = (processRun goes σ (k :: pid) cmd).1 :=
    fun goes => List.filter_eq_self.mpr fun p hp => decide_eq_true (hmine goes p hp)
  have hdrop : ∀ goes status runs, (lineRun goes σ pid (k + 1) status runs rest).1.filter
      (fun p => decide ((k :: pid) <:+ p)) = [] := by
    intro goes status runs
    refine List.filter_eq_nil_iff.mpr fun p hp => ?_
    rw [decide_eq_true_iff]
    exact hother goes status runs p hp
  rw [List.filter_append, List.filter_append, hkeep, hkeep, hdrop, hdrop, List.append_nil,
    List.append_nil] at hfilter
  rw [hfilter] at h
  exact ⟨hfilter, List.append_cancel_left h⟩

/-! ## The code against the meaning -/

/-- The rules agree behind a command that was run. -/
theorem goesOn_run (op : ControlOp) (status : UInt8) :
    goesOn op status true = codeGoesOn op status true := by
  cases op <;> simp [goesOn, codeGoesOn, skips]

theorem codeGoesOn_skip (op : ControlOp) (status : UInt8) : codeGoesOn op status false = true := rfl

/-- Behind a command that was left out for an operator. -/
theorem goesOn_skip_iff {op op' : ControlOp} {status : UInt8} (h : skips op status = true) :
    goesOn op' status false = true ↔ op' ≠ .cmdPipe ∧ op' ≠ op := by
  cases op <;> cases op' <;> simp_all [goesOn, skips]

/-- The code starts the processes of the meaning exactly when it misjudges no command. -/
def Faithful (σ : Pid → Command → UInt8) (l : List Command) : Prop :=
  ∀ pid k status, ((lineRun codeGoesOn σ pid k status true l).1 =
      (lineRun goesOn σ pid k status true l).1 ↔ LineJudged σ pid k status true l) ∧
    (LineJudged σ pid k status true l →
      lineRun codeGoesOn σ pid k status true l = lineRun goesOn σ pid k status true l)

theorem Faithful.process {σ : Pid → Command → UInt8} {cmd : Command}
    (h : Faithful σ cmd.subshell) (pid : Pid) :
    ((processRun codeGoesOn σ pid cmd).1 = (processRun goesOn σ pid cmd).1 ↔
      ProcessJudged σ pid cmd) ∧
    (ProcessJudged σ pid cmd →
      processRun codeGoesOn σ pid cmd = processRun goesOn σ pid cmd) := by
  rw [processRun_eq, processRun_eq, processJudged_eq]
  by_cases hsub : cmd.subshell = []
  · rw [hsub]
    simp [LineJudged]
  · rw [if_neg (mt List.isEmpty_iff.mp hsub), if_neg (mt List.isEmpty_iff.mp hsub)]
    exact h pid 0 0

section Cons
variable {σ : Pid → Command → UInt8} {cmd : Command} {rest : List Command}

theorem lineJudged_run {pid : Pid} {k : Nat} {status : UInt8} {w : List Pid × UInt8}
    (hw : processRun codeGoesOn σ (k :: pid) cmd = w) :
    LineJudged σ pid k status true (cmd :: rest) ↔ ProcessJudged σ (k :: pid) cmd ∧
      NextJudged cmd.controlop (statusAfter cmd.controlop w.2 status) rest ∧
      LineJudged σ pid (k + 1) (statusAfter cmd.controlop w.2 status)
        (codeGoesOn cmd.controlop (statusAfter cmd.controlop w.2 status) true) rest := by
  rw [← hw]
  rfl

/-- The commands behind an operator. -/
theorem behind_faithful (hrest : Faithful σ rest) (htail : Faithful σ rest.tail) (op : ControlOp)
    (pid : Pid) (k : Nat) (status : UInt8) :
    ((lineRun codeGoesOn σ pid k status (codeGoesOn op status true) rest).1 =
        (lineRun goesOn σ pid k status (goesOn op status true) rest).1 ↔
      NextJudged op status rest ∧ LineJudged σ pid k status (codeGoesOn op status true) rest) ∧
    (NextJudged op status rest ∧ LineJudged σ pid k status (codeGoesOn op status true) rest →
      lineRun codeGoesOn σ pid k status (codeGoesOn op status true) rest =
        lineRun goesOn σ pid k status (goesOn op status true) rest) := by
  rw [goesOn_run]
  cases hskip : skips op status with
  | false =>
    have hgo : codeGoesOn op status true = true := by simp [codeGoesOn, hskip]
    have hnext : NextJudged op status rest := fun h => absurd (hskip ▸ h) (by simp)
    rw [hgo]
    simpa only [hnext, true_and] using hrest pid k status
  | true =>
    have hstop : codeGoesOn op status true = false := by simp [codeGoesOn, hskip]
    rw [hstop]
    cases rest with
    | nil => simp [lineRun, LineJudged, NextJudged]
    | cons next behind =>
      rw [lineRun_skip, lineRun_skip, codeGoesOn_skip]
      have hjudged : LineJudged σ pid k status false (next :: behind) ↔
          LineJudged σ pid (k + 1) status true behind := Iff.rfl
      have hnext : NextJudged op status (next :: behind) ↔
          (behind ≠ [] → goesOn next.controlop status false = true) := by
        rw [goesOn_skip_iff hskip]
        constructor
        · exact fun h => h hskip next behind rfl
        · rintro h - next' behind' heq hne
          obtain ⟨rfl, rfl⟩ := List.cons.inj heq
          exact h hne
      rw [hjudged, hnext]
      cases hgo : goesOn next.controlop status false with
      | true => simpa using htail pid (k + 1) status
      | false =>
        cases behind with
        | nil => simp [lineRun, LineJudged]
        | cons cmd' rest' =>
          -- the code starts the next command, the meaning does not
          have hstart : (k + 1) :: pid ∈
              (lineRun codeGoesOn σ pid (k + 1) status true (cmd' :: rest')).1 := by
            rw [lineRun_run rfl]
            exact List.mem_cons_self
          have hnot : (k + 1) :: pid ∉
              (lineRun goesOn σ pid (k + 1) status false (cmd' :: rest')).1 := by
            intro hmem
            rw [lineRun_skip] at hmem
            obtain ⟨j, hj, hsuf⟩ := lineRun_suffix rest' hmem
            exact absurd (position_eq hsuf (List.suffix_refl _)) (by omega)
          refine ⟨iff_of_false (fun heq => hnot (heq ▸ hstart)) ?_, ?_⟩
          · simp
          · simp

theorem Faithful.cons (hsub : Faithful σ cmd.subshell) (hrest : Faithful σ rest)
    (htail : Faithful σ rest.tail) : Faithful σ (cmd :: rest) := by
  intro pid k status
  obtain ⟨hproc, hpair⟩ := hsub.process (k :: pid)
  obtain ⟨hbehind, hbehindPair⟩ := behind_faithful hrest htail cmd.controlop pid (k + 1)
    (statusAfter cmd.controlop (processRun codeGoesOn σ (k :: pid) cmd).2 status)
  rw [lineRun_run rfl, lineRun_run rfl, lineJudged_run rfl]
  constructor
  · constructor
    · intro h
      obtain ⟨hinner, hrest⟩ := runs_inj (List.cons.inj h).2
      have hjudged := hproc.mp hinner
      rw [← hpair hjudged] at hrest
      exact ⟨hjudged, hbehind.mp hrest⟩
    · rintro ⟨hjudged, hrest⟩
      dsimp only
      rw [← hpair hjudged, hbehind.mpr hrest]
  · rintro ⟨hjudged, hrest⟩
    rw [← hpair hjudged, hbehindPair hrest]

end Cons

theorem faithful (σ : Pid → Command → UInt8) (l : List Command) : Faithful σ l := by
  have hall : Faithful σ l ∧ Faithful σ l.tail := by
    induction l using commands_induction with
    | nil => exact ⟨fun _ _ _ => ⟨iff_of_true rfl trivial, fun _ => rfl⟩,
        fun _ _ _ => ⟨iff_of_true rfl trivial, fun _ => rfl⟩⟩
    | cons cmd rest ihSub ihRest => exact ⟨ihSub.1.cons ihRest.1 ihRest.2, ihRest.1⟩
  exact hall.1

/-! ## The processes of a run -/

section Run
variable {K : Kernel} (hexec : ∀ pid, K.execve pid ≠ none)

include hexec

/-- A turn of the loop starts the process of the command and what that one starts, and goes on with
the rest. -/
theorem turn_pids {top : Bool} {place : Pid} {k : Nat} {prev : Option (Pid × Command)}
    {s : LineState} {cmd : Command} (sub next : LineState → Run) (hplain : Plain cmd)
    (hsub : cmd.subshell ≠ [] → ∃ s',
      (sub (.start K (k :: s.pid) (childFds K s k cmd))).ending = .returned s' ∧
      ((sub (.start K (k :: s.pid) (childFds K s k cmd))).started.map Started.pid, s'.cmdStatus) =
        lineRun codeGoesOn (simpleStatus K) (k :: s.pid) 0 0 true cmd.subshell) :
    (turn K top place k prev s cmd sub next).started.map Started.pid =
        (k :: s.pid) :: ((processRun codeGoesOn (simpleStatus K) (k :: s.pid) cmd).1 ++
          (next (parentAfter s k cmd (processRun codeGoesOn (simpleStatus K)
            (k :: s.pid) cmd).2)).started.map Started.pid) ∧
      (turn K top place k prev s cmd sub next).ending =
        (next (parentAfter s k cmd
          (processRun codeGoesOn (simpleStatus K) (k :: s.pid) cmd).2)).ending := by
  have hcase := turn_case K top place k prev s cmd sub next
  generalize turn K top place k prev s cmd sub next = r at hcase ⊢
  rw [processRun_eq]
  cases hcase with
  | exited status simple act =>
    rcases act with ⟨hfault, -⟩ | hexit
    · exact absurd hfault (hplain simple).1
    · exact absurd hexit ((hplain simple).2 status)
  | builtin w simple act =>
    have hstatus : simpleStatus K (k :: s.pid) cmd = w := by
      unfold simpleStatus
      split
      · rename_i hact
        simp [hact, builtinStatus] at act
      · rw [act, Option.getD_some]
    rw [if_pos (List.isEmpty_iff.mpr simple), hstatus]
    exact ⟨rfl, rfl⟩
  | program w simple act succeeds =>
    have hstatus : simpleStatus K (k :: s.pid) cmd = w := by
      rw [simpleStatus, act, succeeds, Option.getD_some]
    rw [if_pos (List.isEmpty_iff.mpr simple), hstatus]
    exact ⟨rfl, rfl⟩
  | comesBack child simple act fails hrun => exact absurd fails (hexec _)
  | subshell child nested hrun =>
    obtain ⟨s', hend, hpair⟩ := hsub nested
    rw [if_neg (mt List.isEmpty_iff.mp nested), ← hpair, hrun, hend]
    refine ⟨?_, rfl⟩
    simp [Run.behind, forked, Ending.code]

/-- A run starts the processes that the evaluator has for the code, and returns its status. -/
theorem cmdLineExec_pids (l : List Command) (hplain : Everywhere Plain l) {top : Bool} {place : Pid}
    {k : Nat} {prev : Option (Pid × Command)} {skip : Bool} {s : LineState} :
    ∃ s', (cmdLineExec K top place k prev skip s l).ending = .returned s' ∧
      ((cmdLineExec K top place k prev skip s l).started.map Started.pid, s'.cmdStatus) =
        lineRun codeGoesOn (simpleStatus K) s.pid k s.cmdStatus (!skip) l := by
  induction l using commands_induction generalizing top place k prev skip s with
  | nil => exact ⟨s, rfl, rfl⟩
  | cons cmd rest ihSub ihRest =>
    cases skip with
    | true => exact ihRest hplain.tail
    | false =>
      rw [cmdLineExec_start]
      obtain ⟨hpids, hending⟩ := @turn_pids K hexec top place k prev s cmd
        (fun s => cmdLineExec K false (k :: place) 0 none false s cmd.subshell)
        (fun s' => cmdLineExec K top place (k + 1) (some (k :: s.pid, cmd))
          (skips cmd.controlop s'.cmdStatus) s' rest) hplain.head
        fun hne => ihSub (hplain.subshell hne)
      obtain ⟨s', hend, hpair⟩ :=
        @ihRest hplain.tail top place (k + 1) (some (k :: s.pid, cmd)) _
          (parentAfter s k cmd (processRun codeGoesOn (simpleStatus K) (k :: s.pid) cmd).2)
      refine ⟨s', hending.trans hend, ?_⟩
      rw [parentAfter_pid, parentAfter_cmdStatus] at hpair
      have hrule : ∀ op status, codeGoesOn op status true = !skips op status := fun _ _ => rfl
      rw [hpids, Bool.not_false, lineRun_run rfl, hrule, ← hpair, parentAfter_cmdStatus]

/-- For every list, nested ones included: the shell starts exactly the processes that the list
means, in the same order, if and only if it misjudges no command; and then it returns the same
status. -/
theorem run_meaning_iff (pid : Pid) (fds : Lib.Descriptors File) (l : List Command)
    (hplain : Everywhere Plain l) : ∃ s, (run K pid fds l).ending = .returned s ∧
      ((run K pid fds l).started.map Started.pid = (meaning (simpleStatus K) pid l).1 ↔
        LineJudged (simpleStatus K) pid 0 0 true l) ∧
      (LineJudged (simpleStatus K) pid 0 0 true l →
        s.cmdStatus = (meaning (simpleStatus K) pid l).2) := by
  obtain ⟨s, hend, hpair⟩ :=
    @cmdLineExec_pids K hexec l hplain true [] 0 none false (.start K pid fds)
  obtain ⟨hiff, hagree⟩ := faithful (simpleStatus K) l pid 0 0
  have hcode : ((run K pid fds l).started.map Started.pid, s.cmdStatus) =
      lineRun codeGoesOn (simpleStatus K) pid 0 0 true l := hpair
  refine ⟨s, hend, ?_, fun hjudged => ?_⟩
  · rw [meaning, ← hiff, ← hcode]
  · rw [meaning, ← hagree hjudged, ← hcode]

end Run

/-- The list of the line `a && b || c`. -/
def andThenOr : List Command :=
  [{ Cmdparse.cmdAlloc with argv := [[97]], controlop := .cmdAnd },
    { Cmdparse.cmdAlloc with argv := [[98]], controlop := .cmdOr },
    { Cmdparse.cmdAlloc with argv := [[99]] }]

/-- A kernel in which `a` fails. -/
def firstFails : Kernel where
  execve := fun pid => some (if pid = [0] then 1 else 0)
  opens := fun _ _ => true
  chdir := fun _ => true
  getcwd := fun _ => true
  unset := fun _ => 0
  later := fun _ => 0

theorem andThenOr_plain : Everywhere Plain andThenOr := by
  intro l' hnest
  rcases hnest.cases_head with rfl | ⟨cmd, hmem, hne, -⟩
  · simp [andThenOr, Plain, action, Cmdparse.cmdAlloc]
  · simp only [andThenOr, List.mem_cons, List.not_mem_nil, or_false] at hmem
    rcases hmem with rfl | rfl | rfl <;> exact absurd rfl hne

/-- `b` is left out, and the operator behind it lets `c` run. -/
theorem andThenOr_judged : LineJudged (simpleStatus firstFails) [] 0 0 true andThenOr := by
  refine (lineJudged_run rfl).mpr ⟨trivial, ?_, trivial, ?_, trivial⟩
  · rintro - next behind heq -
    obtain ⟨rfl, -⟩ := List.cons.inj heq
    exact ⟨by decide, by decide⟩
  · rintro - next behind heq
    cases heq

theorem run_meaning_iff_or :
    (run firstFails [] ⟨[]⟩ andThenOr).started.map Started.pid = [[0], [2]] := by
  have hexec : ∀ pid, firstFails.execve pid ≠ none := by simp [firstFails]
  obtain ⟨s, -, hiff, -⟩ := run_meaning_iff hexec [] ⟨[]⟩ andThenOr andThenOr_plain
  exact hiff.mpr andThenOr_judged

end SystemsProjects.Cmdrun
