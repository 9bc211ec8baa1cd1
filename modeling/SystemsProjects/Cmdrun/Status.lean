import SystemsProjects.Cmdparse.Wellformed
import SystemsProjects.Cmdrun.Control

/-!
# Exit statuses of nested lists

A subshell's process runs `cmd_line_exec` over the list in parentheses and hands what it returns to
`exit` (`cmdrun.c:153-154`). The comment of `cmd_exec` specifies 0 or 5 (`cmdrun.c:54-60`).
-/

namespace SystemsProjects.Cmdrun
open SystemsProjects.Cmdparse (Command ControlOp Nested)

/-- Induction over the lists in a list of commands. -/
theorem commands_induction {P : List Command → Prop} (nil : P [])
    (cons : ∀ cmd rest, P cmd.subshell → P rest → P (cmd :: rest)) (l : List Command) :
    P l := by
  refine @Command.rec_1 (fun cmd => P cmd.subshell) P ?_ nil ?_ l
  · intro argv redirectFilename subshell op h
    exact h
  · intro cmd rest hsub hrest
    exact cons cmd rest hsub hrest

/-- A process: the positions of its command and of the subshells around it, innermost first. -/
abbrev Pid := List Nat

/-! ## The status the code returns -/

mutual

/-- The exit status of the process forked for a command; `σ` gives those of simple commands. -/
def exitStatus (σ : Pid → Command → UInt8) (pid : Pid) : Command → UInt8
  | ⟨argv, redirectFilename, subshell, op⟩ =>
    if subshell.isEmpty then σ pid ⟨argv, redirectFilename, subshell, op⟩
    else (execLoop 0 0 false (exitStatuses σ pid 0 subshell)).2

/-- The operators and exit statuses of a list, from position `k` on. -/
def exitStatuses (σ : Pid → Command → UInt8) (pid : Pid) (k : Nat) :
    List Command → List (ControlOp × UInt8)
  | [] => []
  | cmd :: rest => (cmd.controlop, exitStatus σ (k :: pid) cmd) :: exitStatuses σ pid (k + 1) rest

end

/-- What `cmd_line_exec` returns. -/
def lineStatus (σ : Pid → Command → UInt8) (pid : Pid) (l : List Command) : UInt8 :=
  (execLoop 0 0 false (exitStatuses σ pid 0 l)).2

/-! ## The documented status -/

mutual

/-- A subshell counts as 0 or 5. -/
def docStatus (σ : Pid → Command → UInt8) (pid : Pid) : Command → UInt8
  | ⟨argv, redirectFilename, subshell, op⟩ =>
    if subshell.isEmpty then σ pid ⟨argv, redirectFilename, subshell, op⟩
    else if docLine σ pid 0 subshell = 0 then 0 else 5

/-- The status of the last command, a command followed by `&` or `|` counting as 0. -/
def docLine (σ : Pid → Command → UInt8) (pid : Pid) (k : Nat) : List Command → UInt8
  | [] => 0
  | cmd :: rest =>
    if rest.isEmpty then
      if isContinueCmd cmd.controlop then 0 else docStatus σ (k :: pid) cmd
    else docLine σ pid (k + 1) rest

end

/-! ## The command that decides -/

mutual

/-- The simple command found by going from subshell to the last command in it, if none of them is
followed by `&` or `|`. -/
def innermost (pid : Pid) : Command → Option (Pid × Command)
  | ⟨argv, redirectFilename, subshell, op⟩ =>
    if subshell.isEmpty then some (pid, ⟨argv, redirectFilename, subshell, op⟩)
    else innermostOfLast pid 0 subshell

def innermostOfLast (pid : Pid) (k : Nat) : List Command → Option (Pid × Command)
  | [] => none
  | cmd :: rest =>
    if rest.isEmpty then
      if isContinueCmd cmd.controlop then none else innermost (k :: pid) cmd
    else innermostOfLast pid (k + 1) rest

end

section

variable (σ : Pid → Command → UInt8) (pid : Pid) (cmd : Command)

theorem exitStatus_eq : exitStatus σ pid cmd =
    if cmd.subshell.isEmpty then σ pid cmd else lineStatus σ pid cmd.subshell := by
  cases cmd
  rfl

theorem docStatus_eq : docStatus σ pid cmd =
    if cmd.subshell.isEmpty then σ pid cmd
    else if docLine σ pid 0 cmd.subshell = 0 then 0 else 5 := by
  cases cmd
  rfl

theorem innermost_eq : innermost pid cmd =
    if cmd.subshell.isEmpty then some (pid, cmd) else innermostOfLast pid 0 cmd.subshell := by
  cases cmd
  rfl

variable (k : Nat)

theorem docLine_singleton : docLine σ pid k [cmd] =
    if isContinueCmd cmd.controlop then 0 else docStatus σ (k :: pid) cmd := rfl

theorem innermostOfLast_singleton : innermostOfLast pid k [cmd] =
    if isContinueCmd cmd.controlop then none else innermost (k :: pid) cmd := rfl

theorem docLine_cons_cons (cmd' : Command) (rest : List Command) :
    docLine σ pid k (cmd :: cmd' :: rest) = docLine σ pid (k + 1) (cmd' :: rest) := rfl

theorem innermostOfLast_cons_cons (cmd' : Command) (rest : List Command) :
    innermostOfLast pid k (cmd :: cmd' :: rest) = innermostOfLast pid (k + 1) (cmd' :: rest) := rfl

end

/-- The status of that command, 0 where there is none. -/
def statusOf (σ : Pid → Command → UInt8) (r : Option (Pid × Command)) : UInt8 :=
  r.elim 0 fun r => σ r.1 r.2

/-! ## Lists without `&&` and `||` -/

/-- Every command of a list has a property, at every depth. -/
def Everywhere (P : Command → Prop) (l : List Command) : Prop :=
  ∀ l', Nested l l' → ∀ cmd ∈ l', P cmd

section

variable {P : Command → Prop} {cmd : Command} {rest : List Command}
  (h : Everywhere P (cmd :: rest))

include h

theorem Everywhere.head : P cmd := h _ .here cmd List.mem_cons_self

theorem Everywhere.subshell (hne : cmd.subshell ≠ []) : Everywhere P cmd.subshell := by
  intro l' hnest
  exact h l' ((Nested.here.sub List.mem_cons_self hne).trans hnest)

theorem Everywhere.tail : Everywhere P rest := by
  intro l' hnest cmd' hmem
  rcases hnest.cases_head with rfl | ⟨sub, hsub, hne, hnest'⟩
  · exact h _ .here cmd' (List.mem_cons_of_mem _ hmem)
  · exact h l' ((Nested.here.sub (List.mem_cons_of_mem _ hsub) hne).trans hnest') cmd' hmem

end

/-- Neither `&&` nor `||` at any depth. -/
def Sequential (l : List Command) : Prop :=
  Everywhere (fun cmd => cmd.controlop ≠ .cmdAnd ∧ cmd.controlop ≠ .cmdOr) l

theorem Sequential.skips {cmd : Command} {rest : List Command} (h : Sequential (cmd :: rest))
    (status : UInt8) : skips cmd.controlop status = false := by
  obtain ⟨hand, hor⟩ := h.head
  simp [Cmdrun.skips, hand, hor]

theorem statusAfter_eq (op : ControlOp) (w status : UInt8) :
    statusAfter op w status = if isContinueCmd op then 0 else w := by
  cases op <;> rfl

/-- The code hands the status of the innermost last command out through every subshell. -/
theorem execLoop_sequential (σ : Pid → Command → UInt8) (l : List Command)
    (hseq : Sequential l) (hne : l ≠ []) (pid : Pid) (k : Nat) (status : UInt8) :
    (execLoop k status false (exitStatuses σ pid k l)).2 =
      statusOf σ (innermostOfLast pid k l) := by
  induction l using commands_induction generalizing pid k status with
  | nil => exact absurd rfl hne
  | cons cmd rest ihSub ihRest =>
    rw [exitStatuses, execLoop_start, hseq.skips]
    cases rest with
    | nil =>
      rw [exitStatuses, execLoop_nil, innermostOfLast_singleton, statusAfter_eq]
      cases isContinueCmd cmd.controlop with
      | true => rfl
      | false =>
        simp only [Bool.false_eq_true, if_false, exitStatus_eq, innermost_eq, List.isEmpty_iff]
        by_cases hsub : cmd.subshell = []
        · rw [if_pos hsub, if_pos hsub]
          rfl
        · rw [if_neg hsub, if_neg hsub]
          exact ihSub (hseq.subshell hsub) hsub (k :: pid) 0 0
    | cons cmd' rest => exact ihRest hseq.tail (by simp) pid (k + 1) _

/-- The documented status is zero exactly when the status of the innermost last command is. -/
theorem docLine_eq_zero_iff (σ : Pid → Command → UInt8) (l : List Command) (pid : Pid)
    (k : Nat) :
    docLine σ pid k l = 0 ↔ statusOf σ (innermostOfLast pid k l) = 0 := by
  induction l using commands_induction generalizing pid k with
  | nil => exact iff_of_true rfl rfl
  | cons cmd rest ihSub ihRest =>
    cases rest with
    | nil =>
      rw [docLine_singleton, innermostOfLast_singleton]
      cases isContinueCmd cmd.controlop with
      | true => exact iff_of_true rfl rfl
      | false =>
        simp only [Bool.false_eq_true, if_false, docStatus_eq, innermost_eq, List.isEmpty_iff]
        by_cases hsub : cmd.subshell = []
        · rw [if_pos hsub, if_pos hsub]
          rfl
        · rw [if_neg hsub, if_neg hsub, ← ihSub (k :: pid) 0]
          split
          · exact iff_of_true rfl ‹_›
          · exact iff_of_false (by decide) ‹_›
    | cons cmd' rest => exact ihRest pid (k + 1)

/-- A list whose last command is a subshell that is waited for. -/
def EndsInSubshell (l : List Command) : Prop :=
  ∃ cmd, l.getLast? = some cmd ∧ cmd.subshell ≠ [] ∧ isContinueCmd cmd.controlop = false

theorem docLine_eq_iff (σ : Pid → Command → UInt8) (l : List Command) (pid : Pid) (k : Nat) :
    docLine σ pid k l = statusOf σ (innermostOfLast pid k l) ↔
      (EndsInSubshell l → ∀ r, innermostOfLast pid k l = some r →
        σ r.1 r.2 = 0 ∨ σ r.1 r.2 = 5) := by
  induction l generalizing k with
  | nil => simp [docLine, innermostOfLast, statusOf]
  | cons cmd rest ih =>
    cases rest with
    | nil =>
      have hends : EndsInSubshell [cmd] ↔
          cmd.subshell ≠ [] ∧ isContinueCmd cmd.controlop = false := by
        simp [EndsInSubshell]
      rw [hends, docLine_singleton, innermostOfLast_singleton]
      cases isContinueCmd cmd.controlop with
      | true => simp [statusOf]
      | false =>
        simp only [Bool.false_eq_true, if_false, docStatus_eq, innermost_eq, List.isEmpty_iff]
        by_cases hsub : cmd.subshell = []
        · simp [hsub, statusOf]
        · -- here the documented status is 0 or 5
          have hzero := docLine_eq_zero_iff σ cmd.subshell (k :: pid) 0
          simp only [hzero, hsub, ne_eq, not_false_eq_true, and_self, forall_const]
          cases innermostOfLast (k :: pid) 0 cmd.subshell with
          | none => simp [statusOf]
          | some r =>
            simp only [statusOf, Option.elim_some]
            by_cases hr : σ r.1 r.2 = 0
            · simp [hr]
            · simp [hr, eq_comm]
    | cons cmd' rest =>
      have hends : EndsInSubshell (cmd :: cmd' :: rest) ↔ EndsInSubshell (cmd' :: rest) := by
        simp [EndsInSubshell]
      rw [docLine_cons_cons, innermostOfLast_cons_cons, hends]
      exact ih (k + 1)

/-- The code returns the documented status exactly when the last command is not a subshell that it
waits for, or the command that decides exits with 0 or 5 where there is one. -/
theorem lineStatus_eq_doc_iff (σ : Pid → Command → UInt8) {l : List Command}
    (hseq : Sequential l) (pid : Pid) : lineStatus σ pid l = docLine σ pid 0 l ↔
      (EndsInSubshell l → ∀ r, innermostOfLast pid 0 l = some r →
        σ r.1 r.2 = 0 ∨ σ r.1 r.2 = 5) := by
  by_cases hne : l = []
  · rw [hne]
    exact iff_of_true rfl (by simp [EndsInSubshell])
  · rw [lineStatus, execLoop_sequential σ l hseq hne, eq_comm]
    exact docLine_eq_iff σ l pid 0

/-- The command of the line `(a)`. -/
def oneSubshell : List Command :=
  [{ Cmdparse.cmdAlloc with subshell := [{ Cmdparse.cmdAlloc with argv := [[97]] }] }]

theorem oneSubshell_sequential : Sequential oneSubshell := by
  intro l' hnest
  rcases hnest.cases_head with rfl | ⟨cmd, hmem, -, hnest⟩
  · simp [oneSubshell, Cmdparse.cmdAlloc]
  · obtain rfl := List.mem_singleton.mp hmem
    rcases hnest.cases_head with rfl | ⟨cmd, hmem, hne, -⟩
    · simp [Cmdparse.cmdAlloc]
    · obtain rfl := List.mem_singleton.mp hmem
      exact absurd rfl hne

theorem oneSubshell_five :
    lineStatus (fun _ _ => 5) [] oneSubshell = docLine (fun _ _ => 5) [] 0 oneSubshell :=
  (lineStatus_eq_doc_iff _ oneSubshell_sequential []).mpr fun _ _ _ => Or.inr rfl

/-- The line `(a)` with a command that exits with 1. -/
theorem subshell_status_one :
    ¬ ∀ line l, Cmdparse.Returns line l → l ≠ [] → Sequential l →
      ∀ σ pid, lineStatus σ pid l = docLine σ pid 0 l := by
  intro h
  have hreturns : Cmdparse.Returns [40, 97, 41] oneSubshell := ⟨8, ⟨[], some []⟩, rfl⟩
  have hstatus := h _ _ hreturns (by simp [oneSubshell]) oneSubshell_sequential (fun _ _ => 1) []
  exact absurd hstatus (by decide)

end SystemsProjects.Cmdrun
