import SystemsProjects.Cmdrun.Process

/-!
# The processes follow the loop

Where `execve` does not fail and `exit` is not used, the processes of a line do what the loop of
`Control` does with their exit statuses: the same commands are started and the same status is
returned.
-/

namespace SystemsProjects.Cmdrun
open SystemsProjects.Cmdparse (Command)

/-- The exit status of a simple command's process. -/
def simpleStatus (K : Kernel) (pid : Pid) (cmd : Command) : UInt8 :=
  match action cmd.argv with
  | .execve => (K.execve pid).getD 0
  | act => (builtinStatus K pid act).getD 0

/-- A command that is neither the `exit` builtin nor, in place of a name, nothing at all. -/
def Plain (cmd : Command) : Prop :=
  cmd.subshell = [] →
    action cmd.argv ≠ .fault ∧ ∀ status, action cmd.argv ≠ .exit status

/-- The run of a list at `place` returns the status of the loop and starts the commands of the list
that the loop starts. -/
structure Follows (place : Pid) (r : Run) (loop : List Nat × UInt8) : Prop where
  returns : ∃ s', r.ending = .returned s' ∧ s'.cmdStatus = loop.2
  starts : ∀ j, (∃ p ∈ r.started, p.place = j :: place) ↔ j ∈ loop.1

/-- The commands in a list in parentheses have longer positions than the list. -/
theorem length_lt_place {K : Kernel} (l : List Command) {top : Bool} {place : Pid} {k : Nat}
    {prev : Option (Pid × Command)} {skip : Bool} {s : LineState} :
    ∀ p ∈ (cmdLineExec K top place k prev skip s l).started, place.length < p.place.length := by
  induction l using commands_induction generalizing top place k prev skip s with
  | nil => simp
  | cons cmd rest ihSub ihRest =>
    cases skip with
    | true => exact ihRest
    | false =>
      rw [cmdLineExec_start]
      refine turn_started (fun fate _ => ?_) (fun w => ihRest) (fun _ => ihRest) (fun _ p hp => ?_)
      · exact Nat.lt_succ_self _
      · exact Nat.lt_of_succ_lt (ihSub p hp)

section

variable {K : Kernel} (hexec : ∀ pid, K.execve pid ≠ none)

include hexec

/-- A turn of the loop forks one process and goes on with the rest once that has exited. -/
theorem turn_run {top : Bool} {place : Pid} {k : Nat} {prev : Option (Pid × Command)}
    {s : LineState} {cmd : Command} (sub next : LineState → Run) (hplain : Plain cmd)
    (hsub : cmd.subshell ≠ [] →
      (sub (.start K (k :: s.pid) (childFds K s k cmd))).ending.code K false =
        lineStatus (simpleStatus K) (k :: s.pid) cmd.subshell) :
    ∃ fate inner, turn K top place k prev s cmd sub next =
        (next (parentAfter s k cmd (exitStatus (simpleStatus K) (k :: s.pid) cmd))).behind
          (forked K place k prev s cmd fate) inner ∧
      ∀ p ∈ inner, p ∈ (sub (.start K (k :: s.pid) (childFds K s k cmd))).started := by
  have hcase := turn_case K top place k prev s cmd sub next
  generalize turn K top place k prev s cmd sub next = r at hcase ⊢
  rw [exitStatus_eq]
  cases hcase with
  | exited status simple act =>
    rcases act with ⟨hfault, -⟩ | hexit
    · exact absurd hfault (hplain simple).1
    · exact absurd hexit ((hplain simple).2 status)
  | builtin w simple act =>
    have hstatus : simpleStatus K (k :: s.pid) cmd = w := by
      unfold simpleStatus
      split
      · rename_i hact
        simp [hact, builtinStatus] at act
      · rw [act, Option.getD_some]
    rw [if_pos (List.isEmpty_iff.mpr simple), hstatus]
    exact ⟨_, _, rfl, by simp⟩
  | program w simple act succeeds =>
    have hstatus : simpleStatus K (k :: s.pid) cmd = w := by
      rw [simpleStatus, act, succeeds, Option.getD_some]
    rw [if_pos (List.isEmpty_iff.mpr simple), hstatus]
    exact ⟨_, _, rfl, by simp⟩
  | comesBack child simple act fails hrun => exact absurd fails (hexec _)
  | subshell child nested hrun =>
    rw [if_neg (fun h => nested (List.isEmpty_iff.mp h)), ← hsub nested, hrun]
    exact ⟨_, _, rfl, fun _ hp => hp⟩

/-- The first command of a list, and the rest of the loop behind it. -/
theorem cmdLineExec_turn (top : Bool) (place : Pid) (k : Nat) (prev : Option (Pid × Command))
    (s : LineState) {cmd : Command} (rest : List Command) (hplain : Plain cmd)
    (hsub : cmd.subshell ≠ [] → ∃ s', (cmdLineExec K false (k :: place) 0 none false
        (.start K (k :: s.pid) (childFds K s k cmd)) cmd.subshell).ending = .returned s' ∧
      s'.cmdStatus = lineStatus (simpleStatus K) (k :: s.pid) cmd.subshell) :
    ∃ fate inner, cmdLineExec K top place k prev false s (cmd :: rest) =
        (cmdLineExec K top place (k + 1) (some (k :: s.pid, cmd))
          (skips cmd.controlop (statusAfter cmd.controlop
            (exitStatus (simpleStatus K) (k :: s.pid) cmd) s.cmdStatus))
          (parentAfter s k cmd (exitStatus (simpleStatus K) (k :: s.pid) cmd)) rest).behind
          (forked K place k prev s cmd fate) inner ∧
      ∀ p ∈ inner, place.length + 1 < p.place.length := by
  rw [cmdLineExec_start]
  obtain ⟨fate, inner, hrun, hinner⟩ := turn_run hexec
    (fun s => cmdLineExec K false (k :: place) 0 none false s cmd.subshell)
    (fun s' => cmdLineExec K top place (k + 1) (some (k :: s.pid, cmd))
      (skips cmd.controlop s'.cmdStatus) s' rest) hplain fun hne => by
    obtain ⟨s', hend, hstatus⟩ := hsub hne
    exact (congrArg (Ending.code K false) hend).trans hstatus
  refine ⟨fate, inner, ?_, fun p hp => length_lt_place cmd.subshell p (hinner p hp)⟩
  rw [hrun, parentAfter_cmdStatus]

/-- The run of a list goes through the states of the loop. -/
theorem cmdLineExec_follows (l : List Command) (hplain : Everywhere Plain l) {top : Bool}
    {place : Pid} {k : Nat} {prev : Option (Pid × Command)} {skip : Bool} {s : LineState} :
    Follows place (cmdLineExec K top place k prev skip s l)
      (execLoop k s.cmdStatus skip (exitStatuses (simpleStatus K) s.pid k l)) := by
  induction l using commands_induction generalizing top place k prev skip s with
  | nil => exact ⟨⟨s, rfl, rfl⟩, by simp [exitStatuses]⟩
  | cons cmd rest ihSub ihRest =>
    cases skip with
    | true => exact ihRest hplain.tail
    | false =>
      obtain ⟨fate, inner, hrun, hinner⟩ :=
        cmdLineExec_turn hexec top place k prev s rest hplain.head fun hne =>
          (ihSub (hplain.subshell hne)).returns
      obtain ⟨⟨s', hend, hstatus⟩, hstarts⟩ := @ihRest hplain.tail top place (k + 1)
        (some (k :: s.pid, cmd)) (skips cmd.controlop (statusAfter cmd.controlop
          (exitStatus (simpleStatus K) (k :: s.pid) cmd) s.cmdStatus))
        (parentAfter s k cmd (exitStatus (simpleStatus K) (k :: s.pid) cmd))
      rw [parentAfter_pid, parentAfter_cmdStatus] at hstatus hstarts
      rw [hrun, exitStatuses, execLoop_start]
      refine ⟨⟨s', hend, hstatus⟩, fun j => ?_⟩
      have hnone : ¬ ∃ p ∈ inner, p.place = j :: place := by
        rintro ⟨p, hp, hplace⟩
        have hlt := hinner p hp
        simp [hplace] at hlt
      rw [List.mem_cons, ← hstarts]
      simp only [Run.behind, List.cons_append, List.mem_cons, List.mem_append, or_and_right,
        exists_or, exists_eq_left, hnone, false_or]
      simp [forked, eq_comm]

end

end SystemsProjects.Cmdrun
