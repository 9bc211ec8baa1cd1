import SystemsProjects.Cmdparse.Parser

/-!
# The control flow of `cmd_line_exec`

`cmd_exec` and `waitpid` are taken together as an exit status for each command. `execLoop` is the
loop of `cmd_line_exec` (`cmdrun.c:325-342`) over the operators and statuses of a list: it tells
which commands are started and what the call returns.
-/

namespace SystemsProjects.Cmdrun
open SystemsProjects.Cmdparse (Command ControlOp)

/-! ## The loop -/

/-- `is_wait_cmd` (`cmdrun.c:100-106`). -/
def isWaitCmd (op : ControlOp) : Bool :=
  op = .cmdAnd || op = .cmdOr || op = .cmdEnd || op = .cmdSemicolon

/-- `is_continue_cmd` (`cmdrun.c:108-110`). -/
def isContinueCmd (op : ControlOp) : Bool := op = .cmdPipe || op = .cmdBackground

/-- `cmd_status` behind a command that exits with `w`. -/
def statusAfter (op : ControlOp) (w status : UInt8) : UInt8 :=
  if isWaitCmd op then w else if isContinueCmd op then 0 else status

/-- The condition of line 335, under which the list pointer moves on once more. -/
def skips (op : ControlOp) (status : UInt8) : Bool :=
  (op = .cmdAnd && status ≠ 0) || (op = .cmdOr && status = 0)

/-- The loop from position `k` on: the positions of the commands that are started and the value
returned. With `skip` the pointer is on a command that it leaves at once. -/
def execLoop (k : Nat) (status : UInt8) (skip : Bool) :
    List (ControlOp × UInt8) → List Nat × UInt8
  | [] => ([], status)
  | (op, w) :: rest =>
    if skip then execLoop (k + 1) status false rest
    else
      let status := statusAfter op w status
      let r := execLoop (k + 1) status (skips op status) rest
      (k :: r.1, r.2)

section

variable {k : Nat} {status w : UInt8} {op : ControlOp} {rest : List (ControlOp × UInt8)}

@[simp]
theorem execLoop_nil {skip : Bool} : execLoop k status skip [] = ([], status) := rfl

@[simp]
theorem execLoop_skip :
    execLoop k status true ((op, w) :: rest) = execLoop (k + 1) status false rest := rfl

theorem execLoop_start : execLoop k status false ((op, w) :: rest) =
    (k :: (execLoop (k + 1) (statusAfter op w status) (skips op (statusAfter op w status)) rest).1,
      (execLoop (k + 1) (statusAfter op w status) (skips op (statusAfter op w status)) rest).2) :=
  rfl

end

/-- Commands are started in order. -/
theorem execLoop_ge {k j : Nat} {status : UInt8} {skip : Bool} {l : List (ControlOp × UInt8)}
    (h : j ∈ (execLoop k status skip l).1) : k ≤ j := by
  induction l generalizing k status skip with
  | nil => simp at h
  | cons cmd rest ih =>
    obtain ⟨op, w⟩ := cmd
    cases skip with
    | true =>
      rw [execLoop_skip] at h
      exact Nat.le_of_succ_le (ih h)
    | false =>
      rw [execLoop_start] at h
      rcases List.mem_cons.mp h with rfl | h
      · exact Nat.le_refl j
      · exact Nat.le_of_succ_le (ih h)

/-! ## Conditional chains -/

/-- The commands of `c1 && c2 && ... && cn`, or with another operator, and their statuses. -/
def chain (op : ControlOp) : List UInt8 → List (ControlOp × UInt8)
  | [] => []
  | [w] => [(.cmdEnd, w)]
  | w :: ws => (op, w) :: chain op ws

/-- The status with which a command of the chain lets the next one start. -/
def Passes (op : ControlOp) (w : UInt8) : Prop := if op = .cmdAnd then w = 0 else w ≠ 0

instance {op : ControlOp} {w : UInt8} : Decidable (Passes op w) :=
  inferInstanceAs (Decidable (if op = .cmdAnd then w = 0 else w ≠ 0))

section

variable {op : ControlOp} (hop : op = .cmdAnd ∨ op = .cmdOr)

include hop

end

end SystemsProjects.Cmdrun
