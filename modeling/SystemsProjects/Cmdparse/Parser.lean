import SystemsProjects.Cmdparse.Lexer
import Mathlib.Tactic.IntervalCases

/-!
# The parser of `cmdparse.c`

`cmd_parse` and `cmd_line_parse` call each other and do not return on every line, so both take
the number of loop iterations and calls they may still make; running out of it is `Stop.fuel`, a
failed assertion of `parse_ungettoken` is `Stop.abort`. The bodies of the two loops, apart from
the calls, are functions of their own (`cmdToken`, `connect`). Allocations succeed, and a
linked list of commands is a `List`, with `[]` for `NULL`.
-/

namespace SystemsProjects.Cmdparse

/-- `MAXTOKENS` (`cmdparse.h`). -/
def maxtokens : Nat := 512

/-- `controlop_t`. -/
inductive ControlOp where
  | cmdEnd
  | cmdSemicolon
  | cmdBackground
  | cmdPipe
  | cmdAnd
  | cmdOr
  deriving DecidableEq, Repr

/-- The file descriptors 0, 1 and 2 index the redirections. -/
instance neZero_fds : NeZero 3 := ⟨by decide⟩

/-- `command_t`; the list in `subshell` and the list a command is in stand for the `next`
pointers. -/
structure Command where
  argv : List (List UInt8)
  redirectFilename : Fin 3 → Option (List UInt8)
  subshell : List Command
  controlop : ControlOp

/-- `cmd_alloc` (`cmdparse.c:179-191`): all fields zero. -/
def cmdAlloc : Command := ⟨[], fun _ => none, [], .cmdEnd⟩

/-- Neither words nor a subshell: the test of lines 283 and 354. -/
def Command.isEmpty (cmd : Command) : Bool := cmd.argv.isEmpty && cmd.subshell.isEmpty

/-! ## The bodies of the loops -/

/-- How the `switch` in the loop of `cmd_parse` ends. -/
inductive CmdStep where
  /-- `break`: go on with the next token. -/
  | again (cmd : Command) (ps : ParseState)
  /-- call `cmd_line_parse (parsestate, 1)` and store the result in `subshell`. -/
  | paren (ps : ParseState)
  /-- return a command or `NULL`. -/
  | finish (cmd : Option Command) (ps : ParseState)
  /-- the assertion of `parse_ungettoken` failed. -/
  | abort

/-- The block at `done:` (`cmdparse.c:349-359`). -/
def cmdDone (cmd : Command) : Option Command := if cmd.isEmpty then none else some cmd

/-- The case of the three redirections (`cmdparse.c:278-293`). -/
def cmdRedirect (fd : Fin 3) (cmd : Command) (ps : ParseState) : CmdStep :=
  if cmd.isEmpty then .finish none ps
  else
    match parseGettoken ps with
    | (token, ps) =>
      if token.type ≠ .tokNormal then .finish none ps
      else
        let redirectFilename := Function.update cmd.redirectFilename fd (some token.buffer)
        .again { cmd with redirectFilename := redirectFilename } ps

/-- One iteration of the loop of `cmd_parse` (`cmdparse.c:257-347`). -/
def cmdToken (cmd : Command) (ps : ParseState) : CmdStep :=
  match parseGettoken ps with
  | (token, ps) =>
    match token.type with
    | .tokNormal =>
      if cmd.argv.length ≥ maxtokens ∨ ¬ cmd.subshell.isEmpty then .finish none ps
      else .again { cmd with argv := cmd.argv ++ [token.buffer] } ps
    | .tokLessThan => cmdRedirect 0 cmd ps
    | .tokGreaterThan => cmdRedirect 1 cmd ps
    | .tok2GreaterThan => cmdRedirect 2 cmd ps
    | .tokOpenParen => .paren ps
    | _ =>
      match parseUngettoken ps with
      | none => .abort
      | some ps => .finish (cmdDone cmd) ps

/-- How an iteration of the loop of `cmd_line_parse` ends. -/
inductive LineStep where
  /-- the command, with its operator, is followed by another one. -/
  | again (cmd : Command) (ps : ParseState)
  /-- return a list of commands or `NULL`. -/
  | finish (list : List Command) (ps : ParseState)
  /-- the assertion of `parse_ungettoken` failed. -/
  | abort

/-- The code at `ender:` and `done:` (`cmdparse.c:432-437, 444-452`). -/
def lineEnder (inParens : Bool) (head : List Command) (cmd : Command) (type : TokenType)
    (ps : ParseState) : LineStep :=
  if (type == .tokEnd) = inParens then .finish [] ps
  else if cmd.controlop ≠ .cmdEnd ∧ cmd.controlop ≠ .cmdSemicolon ∧
      cmd.controlop ≠ .cmdBackground then .finish [] ps
  else .finish (head ++ [cmd]) ps

/-- The cases `;` and `&` (`cmdparse.c:423-430`). -/
def connectSeparator (inParens : Bool) (head : List Command) (cmd : Command) (ps : ParseState) :
    LineStep :=
  match parseGettoken ps with
  | (token, ps) =>
    if token.type = .tokEnd ∨ token.type = .tokCloseParen then
      lineEnder inParens head cmd token.type ps
    else
      match parseUngettoken ps with
      | none => .abort
      | some ps => .again cmd ps

/-- What `cmd_line_parse` does after `cmd_parse` returned a command (`cmdparse.c:403-441`);
`head` holds the commands before it. -/
def connect (inParens : Bool) (head : List Command) (cmd : Command) (ps : ParseState) :
    LineStep :=
  match parseGettoken ps with
  | (token, ps) =>
    match token.type with
    | .tokDoubleamp => .again { cmd with controlop := .cmdAnd } ps
    | .tokDoublepipe => .again { cmd with controlop := .cmdOr } ps
    | .tokPipe => .again { cmd with controlop := .cmdPipe } ps
    | .tokSemicolon => connectSeparator inParens head { cmd with controlop := .cmdSemicolon } ps
    | .tokAmpersand => connectSeparator inParens head { cmd with controlop := .cmdBackground } ps
    | .tokEnd => lineEnder inParens head cmd .tokEnd ps
    | .tokCloseParen => lineEnder inParens head cmd .tokCloseParen ps
    | _ => .finish [] ps

/-! ## The recursion -/

/-- Why a call has no result. -/
inductive Stop where
  | fuel
  | abort
  deriving DecidableEq, Repr

mutual

/-- The loop of `cmd_parse` (`cmdparse.c:249-364`), with the command read so far. -/
def cmdParseLoop : Nat → Command → ParseState → Except Stop (Option Command × ParseState)
  | 0, _, _ => .error .fuel
  | fuel + 1, cmd, ps =>
    match cmdToken cmd ps with
    | .again cmd ps => cmdParseLoop fuel cmd ps
    | .paren ps =>
      match cmdLineLoop fuel true [] ps with
      | .ok (subcommand, ps) => cmdParseLoop fuel { cmd with subshell := subcommand } ps
      | .error s => .error s
    | .finish r ps => .ok (r, ps)
    | .abort => .error .abort

/-- The loop of `cmd_line_parse` (`cmdparse.c:378-457`), with the commands read so far. -/
def cmdLineLoop : Nat → Bool → List Command → ParseState →
    Except Stop (List Command × ParseState)
  | 0, _, _, _ => .error .fuel
  | fuel + 1, inParens, head, ps =>
    match cmdParseLoop fuel cmdAlloc ps with
    | .ok (none, ps) => .ok ([], ps)
    | .ok (some cmd, ps) =>
      match connect inParens head cmd ps with
      | .again cmd ps => cmdLineLoop fuel inParens (head ++ [cmd]) ps
      | .finish list ps => .ok (list, ps)
      | .abort => .error .abort
    | .error s => .error s

end

/-- `cmd_parse (parsestate)`. -/
def cmdParse (fuel : Nat) (ps : ParseState) : Except Stop (Option Command × ParseState) :=
  cmdParseLoop fuel cmdAlloc ps

/-- `cmd_line_parse (parsestate, in_parens)`. -/
def cmdLineParse (fuel : Nat) (ps : ParseState) (inParens : Bool) :
    Except Stop (List Command × ParseState) :=
  cmdLineLoop fuel inParens [] ps

/-- On `line`, `cmd_line_parse (parsestate, 0)` returns the list `l` after finitely many steps. -/
def Returns (line : List UInt8) (l : List Command) : Prop :=
  ∃ fuel ps, cmdLineParse fuel (parseInit line) false = .ok (l, ps)

/-! ## More fuel gives the same result -/

/-- What `cmd_parse` returns within `fuel`, it returns within one more. -/
def CmdMono (fuel : Nat) : Prop :=
  ∀ cmd ps r, cmdParseLoop fuel cmd ps = r → r ≠ .error .fuel →
    cmdParseLoop (fuel + 1) cmd ps = r

/-- The same for `cmd_line_parse`. -/
def LineMono (fuel : Nat) : Prop :=
  ∀ inParens head ps r, cmdLineLoop fuel inParens head ps = r → r ≠ .error .fuel →
    cmdLineLoop (fuel + 1) inParens head ps = r

theorem CmdMono.succ {fuel : Nat} (ihCmd : CmdMono fuel) (ihLine : LineMono fuel) :
    CmdMono (fuel + 1) := by
  intro cmd ps r h hne
  rw [cmdParseLoop] at h ⊢
  cases htok : cmdToken cmd ps with
  | again cmd' ps' =>
    simp only [htok] at h ⊢
    exact ihCmd _ _ _ h hne
  | paren ps' =>
    simp only [htok] at h ⊢
    cases hline : cmdLineLoop fuel true [] ps' with
    | ok q =>
      simp only [hline] at h
      rw [ihLine _ _ _ _ hline (by simp)]
      exact ihCmd _ _ _ h hne
    | error s =>
      simp only [hline] at h
      subst h
      rw [ihLine _ _ _ _ hline (by simpa using hne)]
  | finish r' ps' =>
    simp only [htok] at h ⊢
    exact h
  | abort =>
    simp only [htok] at h ⊢
    exact h

theorem LineMono.succ {fuel : Nat} (ihCmd : CmdMono fuel) (ihLine : LineMono fuel) :
    LineMono (fuel + 1) := by
  intro inParens head ps r h hne
  rw [cmdLineLoop] at h ⊢
  cases hcmd : cmdParseLoop fuel cmdAlloc ps with
  | error s =>
    simp only [hcmd] at h
    subst h
    rw [ihCmd _ _ _ hcmd (by simpa using hne)]
  | ok q =>
    obtain ⟨r', ps'⟩ := q
    simp only [hcmd] at h
    rw [ihCmd _ _ _ hcmd (by simp)]
    cases r' with
    | none => exact h
    | some cmd =>
      dsimp only at h ⊢
      cases hconn : connect inParens head cmd ps' with
      | again cmd' ps'' =>
        simp only [hconn] at h ⊢
        exact ihLine _ _ _ _ h hne
      | finish l ps'' =>
        simp only [hconn] at h ⊢
        exact h
      | abort =>
        simp only [hconn] at h ⊢
        exact h

theorem parse_mono (fuel : Nat) : CmdMono fuel ∧ LineMono fuel := by
  induction fuel with
  | zero =>
    constructor
    · intro cmd ps r h hne
      exact absurd (by rw [← h, cmdParseLoop]) hne
    · intro inParens head ps r h hne
      exact absurd (by rw [← h, cmdLineLoop]) hne
  | succ fuel ih => exact ⟨ih.1.succ ih.2, LineMono.succ ih.1 ih.2⟩

theorem cmdParseLoop_mono {fuel fuel' : Nat} (hle : fuel ≤ fuel') {cmd : Command}
    {ps : ParseState} {r : Except Stop (Option Command × ParseState)}
    (h : cmdParseLoop fuel cmd ps = r) (hne : r ≠ .error .fuel) :
    cmdParseLoop fuel' cmd ps = r := by
  induction hle with
  | refl => exact h
  | step _ ih => exact (parse_mono _).1 cmd ps r ih hne

theorem cmdLineLoop_mono {fuel fuel' : Nat} (hle : fuel ≤ fuel') {inParens : Bool}
    {head : List Command} {ps : ParseState} {r : Except Stop (List Command × ParseState)}
    (h : cmdLineLoop fuel inParens head ps = r) (hne : r ≠ .error .fuel) :
    cmdLineLoop fuel' inParens head ps = r := by
  induction hle with
  | refl => exact h
  | step _ ih => exact (parse_mono _).2 inParens head ps r ih hne

end SystemsProjects.Cmdparse
