import SystemsProjects.Cmdparse.Levels
import SystemsProjects.Lib.Decimal

/-!
# The assertions of the parser and the shape of its lists

`parse_ungettoken` asserts that there is a token to go back to; this fails on a line whose first
token is an error, and on no other. `cmd_print` asserts facts about the list it prints; they hold
of every list that `cmd_line_parse` returns, at every depth.
-/

namespace SystemsProjects.Cmdparse

open SystemsProjects.Lib

/-! ## `parse_ungettoken` -/

/-- The first token of a line is an error exactly when the stream has no token and no end. -/
theorem first_ne_error_iff (line : List UInt8) :
    (parseGettoken (parseInit line)).1.type ≠ .tokError ↔
      (tokens line).2 = .tokEnd ∨ types line ≠ [] := by
  rcases tokens_cases line with ⟨htoks, hget⟩ | ⟨htoks, hget⟩ | ⟨t, p', htoks, -, hne, hget⟩
  · simp [parseInit, hget, htoks]
  · simp [parseInit, hget, htoks, types]
  · simp [parseInit, hget, htoks, types, hne]

/-- A run of the parser that fails the assertion is a run of the machine that does. -/
theorem ends_aborted {line : List UInt8} {fuel : Nat}
    (h : cmdLineParse fuel (parseInit line) false = .error .abort) :
    Ends Config.step (.inl (Config.init line)) .aborted := by
  have hloop : cmdLineLoop fuel (!([] : List Frame).isEmpty) [] (parseInit line) =
      .error .abort := h
  apply (machine_of_parse fuel .aborted).2 [] [] (parseInit line)
  · rw [hloop]
    simp
  · rw [lineThen, hloop]
    exact ends_inr.mpr rfl

/-- The assertion of `parse_ungettoken` holds throughout a call of `cmd_line_parse` exactly when
the first token of the line is not an error. -/
theorem ungettoken_asserts_iff (line : List UInt8) :
    (∀ fuel, cmdLineParse fuel (parseInit line) false ≠ .error .abort) ↔
      (parseGettoken (parseInit line)).1.type ≠ .tokError := by
  constructor
  · intro h herror
    apply h 2
    have hget : parseGettoken (parseInit line) = (⟨.tokError, []⟩, parseInit line) := by
      rcases tokens_cases line with ⟨-, hget⟩ | ⟨-, hget⟩ | ⟨t, p', -, -, hne, hget⟩
      · rw [parseInit, hget] at herror
        exact absurd herror (by simp)
      · exact hget none
      · rw [parseInit, hget] at herror
        exact absurd herror hne.2
    have htok : cmdToken cmdAlloc (parseInit line) = .abort := by
      simp only [cmdToken, hget]
      rfl
    simp only [cmdLineParse, cmdLineLoop, cmdParseLoop, htok]
  · intro h fuel habort
    -- the simulation by the machine over token types has no failed assertion
    obtain ⟨ok, -, hres⟩ := (ends_aborted habort).sim
      (fun _ _ hsim => step_sim hsim) (.inl (sim_init ((first_ne_error_iff line).mp h)))
    exact hres

/-- A double quote alone. -/
theorem quote_aborts :
    ¬ ∀ line fuel, cmdLineParse fuel (parseInit line) false ≠ .error .abort := by
  intro h
  exact h [34] 2 rfl

/-! ## Well-formed lists -/

/-- What `cmd_line_parse` promises of a command: its words and the null pointer behind them fit in
`argv`, an array of `MAXTOKENS + 1` pointers, and it has words or a subshell. -/
structure CommandOk (cmd : Command) : Prop where
  args : cmd.argv.length ≤ maxtokens
  null : cmd.argv.length < maxtokens + 1 ∧ cmd.argv[cmd.argv.length]? = none
  nonempty : cmd.argv ≠ [] ∨ cmd.subshell ≠ []

/-- The operators between two commands. -/
def joiners : List ControlOp := [.cmdSemicolon, .cmdBackground, .cmdPipe, .cmdAnd, .cmdOr]

/-- The operators of the last command of a list. -/
def enders : List ControlOp := [.cmdEnd, .cmdSemicolon, .cmdBackground]

/-- What it promises of a list, at one depth. The commands of `l.dropLast` are those with a
successor. -/
structure ListOk (l : List Command) : Prop where
  commands : ∀ cmd ∈ l, CommandOk cmd
  joined : ∀ cmd ∈ l.dropLast, cmd.controlop ∈ joiners
  ended : ∀ cmd, l.getLast? = some cmd → cmd.controlop ∈ enders

/-- The lists in a list of commands: itself and, through any number of subshells, the lists in
parentheses. -/
inductive Nested (l : List Command) : List Command → Prop
  | here : Nested l l
  | sub {l' : List Command} {cmd : Command} : Nested l l' → cmd ∈ l' → cmd.subshell ≠ [] →
      Nested l cmd.subshell

/-- The promises hold at every depth. -/
def WellFormed (l : List Command) : Prop := ∀ l', Nested l l' → ListOk l'

theorem Nested.trans {l l' l'' : List Command} (h : Nested l l') (h' : Nested l' l'') :
    Nested l l'' := by
  induction h' with
  | here => exact h
  | sub _ hmem hne ih => exact ih.sub hmem hne

theorem Nested.cases_head {l l' : List Command} (h : Nested l l') :
    l' = l ∨ ∃ cmd ∈ l, cmd.subshell ≠ [] ∧ Nested cmd.subshell l' := by
  induction h with
  | here => exact Or.inl rfl
  | sub _ hmem hne ih =>
    rcases ih with rfl | ⟨cmd', hmem', hne', hnest⟩
    · exact Or.inr ⟨_, hmem, hne, .here⟩
    · exact Or.inr ⟨cmd', hmem', hne', hnest.sub hmem hne⟩

/-- The lists in parentheses of a command are well formed. -/
def SubOk (cmd : Command) : Prop := cmd.subshell ≠ [] → WellFormed cmd.subshell

theorem wellFormed_iff {l : List Command} :
    WellFormed l ↔ ListOk l ∧ ∀ cmd ∈ l, SubOk cmd := by
  constructor
  · intro h
    refine ⟨h l .here, ?_⟩
    intro cmd hmem hne l' hnest
    exact h l' ((Nested.here.sub hmem hne).trans hnest)
  · rintro ⟨hlist, hsub⟩ l' hnest
    rcases hnest.cases_head with rfl | ⟨cmd, hmem, hne, hnest'⟩
    · exact hlist
    · exact hsub cmd hmem hne l' hnest'

/-! ## What the loops build -/

/-- The command of `cmd_parse` while it reads. -/
structure Reading (cmd : Command) : Prop where
  args : cmd.argv.length ≤ maxtokens
  op : cmd.controlop = .cmdEnd
  sub : SubOk cmd

/-- The commands of `cmd_line_parse` before the one being read. -/
def HeadOk (head : List Command) : Prop :=
  ∀ cmd ∈ head, CommandOk cmd ∧ SubOk cmd ∧ cmd.controlop ∈ joiners

/-- A redirection is an error or gives the command file names. -/
theorem cmdRedirect_cases (fd : Fin 3) (cmd : Command) (ps : ParseState) :
    (∃ ps', cmdRedirect fd cmd ps = .finish none ps') ∨
      ∃ files ps', cmdRedirect fd cmd ps = .again { cmd with redirectFilename := files } ps' := by
  unfold cmdRedirect
  split
  · exact Or.inl ⟨_, rfl⟩
  · dsimp only
    split
    · exact Or.inl ⟨_, rfl⟩
    · exact Or.inr ⟨_, _, rfl⟩

/-- What one token does to the command. -/
theorem cmdToken_again {cmd cmd' : Command} {ps ps' : ParseState}
    (h : cmdToken cmd ps = .again cmd' ps') :
    (∃ w, cmd.argv.length < maxtokens ∧ cmd' = { cmd with argv := cmd.argv ++ [w] }) ∨
      ∃ files, cmd' = { cmd with redirectFilename := files } := by
  have hredirect : ∀ fd ps, cmdRedirect fd cmd ps = .again cmd' ps' →
      ∃ files, cmd' = { cmd with redirectFilename := files } := by
    intro fd ps h
    rcases cmdRedirect_cases fd cmd ps with ⟨_, hnone⟩ | ⟨files, _, hagain⟩
    · rw [hnone] at h
      exact absurd h (by simp)
    · rw [hagain] at h
      exact ⟨files, (CmdStep.again.inj h).1.symm⟩
  unfold cmdToken at h
  dsimp only at h
  split at h
  · split at h
    · exact absurd h (by simp)
    · rename_i hfull
      exact Or.inl ⟨_, by omega, (CmdStep.again.inj h).1.symm⟩
  · exact Or.inr (hredirect _ _ h)
  · exact Or.inr (hredirect _ _ h)
  · exact Or.inr (hredirect _ _ h)
  · exact absurd h (by simp)
  · split at h
    · exact absurd h (by simp)
    · exact absurd h (by simp)

/-- A command that `cmd_parse` returns is the one it has read, and is not empty. -/
theorem cmdToken_finish {cmd r : Command} {ps ps' : ParseState}
    (h : cmdToken cmd ps = .finish (some r) ps') : r = cmd ∧ cmd.isEmpty = false := by
  have hredirect : ∀ fd ps, cmdRedirect fd cmd ps ≠ .finish (some r) ps' := by
    intro fd ps h
    rcases cmdRedirect_cases fd cmd ps with ⟨_, hnone⟩ | ⟨_, _, hagain⟩
    · rw [hnone] at h
      exact absurd h (by simp)
    · rw [hagain] at h
      exact absurd h (by simp)
  unfold cmdToken at h
  dsimp only at h
  split at h
  · split at h
    · exact absurd h (by simp)
    · exact absurd h (by simp)
  · exact absurd h (hredirect _ _)
  · exact absurd h (hredirect _ _)
  · exact absurd h (hredirect _ _)
  · exact absurd h (by simp)
  · split at h
    · exact absurd h (by simp)
    · have hdone := (CmdStep.finish.inj h).1
      unfold cmdDone at hdone
      split at hdone
      · exact absurd hdone (by simp)
      · rename_i hempty
        exact ⟨(Option.some.inj hdone).symm, by simpa using hempty⟩

/-- A list that ends here has the last command's operator checked. -/
theorem lineEnder_finish {inParens : Bool} {head l : List Command} {cmd : Command}
    {type : TokenType} {ps ps' : ParseState}
    (h : lineEnder inParens head cmd type ps = .finish l ps') :
    l = [] ∨ cmd.controlop ∈ enders ∧ l = head ++ [cmd] := by
  unfold lineEnder at h
  split at h
  · exact Or.inl (LineStep.finish.inj h).1.symm
  · split at h
    · exact Or.inl (LineStep.finish.inj h).1.symm
    · rename_i hop
      refine Or.inr ⟨?_, (LineStep.finish.inj h).1.symm⟩
      cases hc : cmd.controlop <;> simp [hc, enders] at hop ⊢

theorem lineEnder_ne_again {inParens : Bool} {head : List Command} {cmd cmd' : Command}
    {type : TokenType} {ps ps' : ParseState} :
    lineEnder inParens head cmd type ps ≠ .again cmd' ps' := by
  unfold lineEnder
  split
  · simp
  · split
    · simp
    · simp

/-- The command goes on the list with an operator that joins it to the next. -/
theorem connect_again {inParens : Bool} {head : List Command} {cmd cmd' : Command}
    {ps ps' : ParseState} (h : connect inParens head cmd ps = .again cmd' ps') :
    ∃ op ∈ joiners, cmd' = { cmd with controlop := op } := by
  have hsep : ∀ c ps, connectSeparator inParens head c ps = .again cmd' ps' → cmd' = c := by
    intro c ps h
    unfold connectSeparator at h
    dsimp only at h
    split at h
    · exact absurd h lineEnder_ne_again
    · split at h
      · exact absurd h (by simp)
      · exact (LineStep.again.inj h).1.symm
  unfold connect at h
  dsimp only at h
  split at h
  · exact ⟨.cmdAnd, by decide, (LineStep.again.inj h).1.symm⟩
  · exact ⟨.cmdOr, by decide, (LineStep.again.inj h).1.symm⟩
  · exact ⟨.cmdPipe, by decide, (LineStep.again.inj h).1.symm⟩
  · exact ⟨.cmdSemicolon, by decide, hsep _ _ h⟩
  · exact ⟨.cmdBackground, by decide, hsep _ _ h⟩
  · exact absurd h lineEnder_ne_again
  · exact absurd h lineEnder_ne_again
  · exact absurd h (by simp)

/-- The command ends the list with an operator that may end it, or no list is returned. -/
theorem connect_finish {inParens : Bool} {head l : List Command} {cmd : Command}
    {ps ps' : ParseState} (h : connect inParens head cmd ps = .finish l ps') :
    l = [] ∨ ∃ op ∈ enders, l = head ++ [{ cmd with controlop := op }] := by
  have hend : ∀ c type ps, lineEnder inParens head c type ps = .finish l ps' →
      (∃ op, c = { cmd with controlop := op }) →
      l = [] ∨ ∃ op ∈ enders, l = head ++ [{ cmd with controlop := op }] := by
    rintro c type ps h ⟨op, rfl⟩
    rcases lineEnder_finish h with hnil | ⟨hop, hl⟩
    · exact Or.inl hnil
    · exact Or.inr ⟨op, hop, hl⟩
  have hsep : ∀ op ps, connectSeparator inParens head { cmd with controlop := op } ps =
      .finish l ps' → l = [] ∨ ∃ op ∈ enders, l = head ++ [{ cmd with controlop := op }] := by
    intro op ps h
    unfold connectSeparator at h
    dsimp only at h
    split at h
    · exact hend _ _ _ h ⟨op, rfl⟩
    · split at h
      · exact absurd h (by simp)
      · exact absurd h (by simp)
  unfold connect at h
  dsimp only at h
  split at h
  · exact absurd h (by simp)
  · exact absurd h (by simp)
  · exact absurd h (by simp)
  · exact hsep _ _ h
  · exact hsep _ _ h
  · exact hend _ _ _ h ⟨cmd.controlop, by cases cmd; rfl⟩
  · exact hend _ _ _ h ⟨cmd.controlop, by cases cmd; rfl⟩
  · exact Or.inl (LineStep.finish.inj h).1.symm

theorem Reading.again {cmd cmd' : Command} {ps ps' : ParseState} (hr : Reading cmd)
    (h : cmdToken cmd ps = .again cmd' ps') : Reading cmd' := by
  rcases cmdToken_again h with ⟨w, hlen, rfl⟩ | ⟨files, rfl⟩
  · refine ⟨?_, hr.op, hr.sub⟩
    rw [List.length_append]
    exact hlen
  · exact ⟨hr.args, hr.op, hr.sub⟩

/-- A command that was read, with the operator behind it. -/
theorem Reading.commandOk {cmd : Command} (hr : Reading cmd) (hempty : cmd.isEmpty = false)
    (op : ControlOp) : CommandOk { cmd with controlop := op } where
  args := hr.args
  null := ⟨Nat.lt_succ_of_le hr.args, List.getElem?_eq_none (Nat.le_refl _)⟩
  nonempty := by
    rw [← not_and_or]
    rintro ⟨hargv, hsub⟩
    simp only [Command.isEmpty] at hempty
    rw [show cmd.argv = [] from hargv, show cmd.subshell = [] from hsub] at hempty
    exact absurd hempty (by simp)

theorem HeadOk.snoc {head : List Command} {cmd : Command} (hhead : HeadOk head)
    (hr : Reading cmd) (hempty : cmd.isEmpty = false) {op : ControlOp} (hop : op ∈ joiners) :
    HeadOk (head ++ [{ cmd with controlop := op }]) := by
  intro c hc
  rcases List.mem_append.mp hc with hc | hc
  · exact hhead c hc
  · rw [List.mem_singleton.mp hc]
    exact ⟨hr.commandOk hempty op, hr.sub, hop⟩

theorem HeadOk.wellFormed {head : List Command} {cmd : Command} (hhead : HeadOk head)
    (hr : Reading cmd) (hempty : cmd.isEmpty = false) {op : ControlOp} (hop : op ∈ enders) :
    WellFormed (head ++ [{ cmd with controlop := op }]) := by
  refine wellFormed_iff.mpr ⟨⟨?_, ?_, ?_⟩, ?_⟩
  · intro c hc
    rcases List.mem_append.mp hc with hc | hc
    · exact (hhead c hc).1
    · rw [List.mem_singleton.mp hc]
      exact hr.commandOk hempty op
  · intro c hc
    rw [List.dropLast_concat] at hc
    exact (hhead c hc).2.2
  · intro c hc
    rw [List.getLast?_concat] at hc
    rw [← Option.some.inj hc]
    exact hop
  · intro c hc
    rcases List.mem_append.mp hc with hc | hc
    · exact (hhead c hc).2.1
    · rw [List.mem_singleton.mp hc]
      exact hr.sub

/-- Within `fuel`, `cmd_parse` returns a command that is read and not empty, or none. -/
def CmdWellRead (fuel : Nat) : Prop :=
  ∀ cmd ps r ps', Reading cmd → cmdParseLoop fuel cmd ps = .ok (some r, ps') →
    Reading r ∧ r.isEmpty = false

/-- Within `fuel`, `cmd_line_parse` returns a well-formed list or none. -/
def LineWellFormed (fuel : Nat) : Prop :=
  ∀ inParens head ps l ps', HeadOk head → cmdLineLoop fuel inParens head ps = .ok (l, ps') →
    l ≠ [] → WellFormed l

theorem CmdWellRead.succ {fuel : Nat} (ihCmd : CmdWellRead fuel) (ihLine : LineWellFormed fuel) :
    CmdWellRead (fuel + 1) := by
  intro cmd ps r ps' hr h
  rw [cmdParseLoop] at h
  cases htok : cmdToken cmd ps with
  | again cmd' ps₁ =>
    simp only [htok] at h
    exact ihCmd _ _ _ _ (hr.again htok) h
  | paren ps₁ =>
    simp only [htok] at h
    cases hline : cmdLineLoop fuel true [] ps₁ with
    | error e =>
      simp only [hline] at h
      exact absurd h (by simp)
    | ok p =>
      simp only [hline] at h
      -- the new subshell is well formed, or there is none
      have hsub : SubOk { cmd with subshell := p.1 } :=
        ihLine true [] ps₁ p.1 p.2 (by simp [HeadOk]) hline
      have hr' : Reading { cmd with subshell := p.1 } := ⟨hr.args, hr.op, hsub⟩
      exact ihCmd _ _ _ _ hr' h
  | finish o ps₁ =>
    simp only [htok] at h
    obtain ⟨rfl, -⟩ := Prod.mk.inj (Except.ok.inj h)
    obtain ⟨rfl, hempty⟩ := cmdToken_finish htok
    exact ⟨hr, hempty⟩
  | abort =>
    simp only [htok] at h
    exact absurd h (by simp)

theorem LineWellFormed.succ {fuel : Nat} (ihCmd : CmdWellRead fuel) (ihLine : LineWellFormed fuel) :
    LineWellFormed (fuel + 1) := by
  intro inParens head ps l ps' hhead h hne
  rw [cmdLineLoop] at h
  cases hcmd : cmdParseLoop fuel cmdAlloc ps with
  | error e =>
    simp only [hcmd] at h
    exact absurd h (by simp)
  | ok p =>
    obtain ⟨r, ps₁⟩ := p
    simp only [hcmd] at h
    cases r with
    | none => exact absurd (Prod.mk.inj (Except.ok.inj h)).1.symm hne
    | some cmd =>
      have halloc : Reading cmdAlloc := ⟨Nat.zero_le _, rfl, fun hne => absurd rfl hne⟩
      obtain ⟨hr, hempty⟩ := ihCmd _ _ _ _ halloc hcmd
      dsimp only at h
      cases hconn : connect inParens head cmd ps₁ with
      | again cmd' ps₂ =>
        simp only [hconn] at h
        obtain ⟨op, hop, rfl⟩ := connect_again hconn
        exact ihLine _ _ _ _ _ (hhead.snoc hr hempty hop) h hne
      | finish l' ps₂ =>
        simp only [hconn] at h
        obtain ⟨rfl, -⟩ := Prod.mk.inj (Except.ok.inj h)
        rcases connect_finish hconn with hnil | ⟨op, hop, rfl⟩
        · exact absurd hnil hne
        · exact hhead.wellFormed hr hempty hop
      | abort =>
        simp only [hconn] at h
        exact absurd h (by simp)

theorem parse_wellFormed (fuel : Nat) : CmdWellRead fuel ∧ LineWellFormed fuel := by
  induction fuel with
  | zero =>
    constructor
    · intro cmd ps r ps' _ h
      exact absurd h (by simp [cmdParseLoop])
    · intro inParens head ps l ps' _ h
      exact absurd h (by simp [cmdLineLoop])
  | succ fuel ih => exact ⟨ih.1.succ ih.2, LineWellFormed.succ ih.1 ih.2⟩

/-- Every list of commands that the parser returns is well formed. -/
theorem Returns.wellFormed {line : List UInt8} {l : List Command} (h : Returns line l)
    (hne : l ≠ []) : WellFormed l := by
  obtain ⟨fuel, ps, hparse⟩ := h
  exact (parse_wellFormed fuel).2 false [] (parseInit line) l ps (by simp [HeadOk]) hparse hne

/-! ## `cmd_print` -/

/-- The bytes of a text. -/
def text (s : String) : List UInt8 := s.toUTF8.toList

/-- `%*s` with an empty string. -/
def pad (indent : Nat) : List UInt8 := List.replicate indent 32

/-- The count of the words (`cmdparse.c:476-477`). -/
def argCount (cmd : Command) : Nat := min maxtokens cmd.argv.length

/-- The words and redirections of a command (`cmdparse.c:482-492`). -/
def printWords (cmd : Command) (indent : Nat) : List UInt8 :=
  let file (fd : Fin 3) (sign : String) : List UInt8 :=
    match cmd.redirectFilename fd with
    | none => []
    | some name => text sign ++ name
  pad indent ++ text "[" ++ decimal (argCount cmd) ++ text " args" ++
    (cmd.argv.take (argCount cmd)).flatMap (fun w => text " \"" ++ w ++ text "\"") ++
    file 0 " <" ++ file 1 " >" ++ file 2 " 2>"

/-- The sign of an operator (`cmdparse.c:501-523`). -/
def ControlOp.sign : ControlOp → String
  | .cmdSemicolon => ";"
  | .cmdBackground => "&"
  | .cmdPipe => "|"
  | .cmdAnd => "&&"
  | .cmdOr => "||"
  | .cmdEnd => "."

mutual

/-- The part of `cmd_print` for the subshell (`cmdparse.c:494-498`). -/
def printSubshell : Command → Nat → Option (List UInt8)
  | ⟨_, _, [], _⟩, _ => some []
  | ⟨_, _, cmd :: next, _⟩, indent => do return text "\n" ++ (← cmdPrint (cmd :: next) (indent + 2))

/-- `cmd_print` (`cmdparse.c:466-536`); `none` is a failed assertion. -/
def cmdPrint : List Command → Nat → Option (List UInt8)
  | [], indent => some (pad indent ++ text "[NULL]\n")
  | cmd :: next, indent => do
    guard (argCount cmd ≤ maxtokens)
    let subshell ← printSubshell cmd indent
    let line := printWords cmd indent ++ subshell ++ text "] " ++ text cmd.controlop.sign ++
      text "\n"
    guard (next ≠ [] ∨ cmd.controlop = .cmdEnd ∨ cmd.controlop = .cmdBackground ∨
      cmd.controlop = .cmdSemicolon)
    if next.isEmpty then return line else return line ++ (← cmdPrint next indent)

end

/-- What `cmd_print` asserts about a list: its last operator may end it, and the lists in
parentheses are well formed. -/
def Printable (l : List Command) : Prop :=
  (∀ cmd, l.getLast? = some cmd → cmd.controlop ∈ enders) ∧ ∀ cmd ∈ l, SubOk cmd

theorem WellFormed.printable {l : List Command} (h : WellFormed l) : Printable l :=
  ⟨(wellFormed_iff.mp h).1.ended, (wellFormed_iff.mp h).2⟩

theorem Printable.next {cmd : Command} {next : List Command} (h : Printable (cmd :: next))
    (hne : next ≠ []) : Printable next := by
  refine ⟨?_, fun c hc => h.2 c (List.mem_cons_of_mem cmd hc)⟩
  intro c hc
  exact h.1 c (by rw [List.getLast?_cons_of_ne_nil hne, hc])

mutual

theorem printSubshell_isSome : ∀ (cmd : Command) (indent : Nat), SubOk cmd →
    (printSubshell cmd indent).isSome
  | ⟨_, _, [], _⟩, _, _ => rfl
  | ⟨_, _, cmd :: next, _⟩, indent, h => by
    have hsome := cmdPrint_isSome (cmd :: next) (indent + 2) (h (by simp)).printable
    obtain ⟨out, hout⟩ := Option.isSome_iff_exists.mp hsome
    simp [printSubshell, hout]

theorem cmdPrint_isSome : ∀ (l : List Command) (indent : Nat), Printable l →
    (cmdPrint l indent).isSome
  | [], _, _ => rfl
  | cmd :: next, indent, h => by
    have hsub := printSubshell_isSome cmd indent (h.2 cmd List.mem_cons_self)
    obtain ⟨sub, hsub⟩ := Option.isSome_iff_exists.mp hsub
    have hcount : argCount cmd ≤ maxtokens := Nat.min_le_left _ _
    by_cases hnil : next = []
    · subst hnil
      have hop : cmd.controlop ∈ enders := h.1 cmd rfl
      have hlast : cmd.controlop = .cmdEnd ∨ cmd.controlop = .cmdBackground ∨
          cmd.controlop = .cmdSemicolon := by
        cases hc : cmd.controlop <;> simp [hc, enders] at hop ⊢
      simp [cmdPrint, hcount, hsub, guard, hlast]
    · have hrest := cmdPrint_isSome next indent (h.next hnil)
      obtain ⟨rest, hrest⟩ := Option.isSome_iff_exists.mp hrest
      simp [cmdPrint, hcount, hsub, guard, hnil, hrest]

end

/-- A list that the parser returns is well formed at every depth; `cmd_print` fails no assertion on
it, and a command without a subshell has a first word for `cmd_exec` to compare. -/
theorem returns_wellFormed {line : List UInt8} {l : List Command} (h : Returns line l)
    (hne : l ≠ []) :
    WellFormed l ∧ (∀ indent, (cmdPrint l indent).isSome) ∧
      ∀ l', Nested l l' → ∀ cmd ∈ l', cmd.subshell = [] → cmd.argv[0]? ≠ none := by
  have hwf := h.wellFormed hne
  refine ⟨hwf, fun indent => cmdPrint_isSome l indent hwf.printable, ?_⟩
  intro l' hnest cmd hcmd hsub hnone
  have hargv : cmd.argv = [] := List.length_eq_zero_iff.mp (by simpa using hnone)
  rcases ((hwf l' hnest).commands cmd hcmd).nonempty with hne' | hne'
  · exact hne' hargv
  · exact hne' hsub

/-- The commands of the line `(a);b`. -/
def subshellThenWord : List Command :=
  [{ cmdAlloc with subshell := [{ cmdAlloc with argv := [[97]] }], controlop := .cmdSemicolon },
    { cmdAlloc with argv := [[98]] }]

theorem returns_wellFormed_subshell :
    Returns [40, 97, 41, 59, 98] subshellThenWord ∧ WellFormed subshellThenWord := by
  have h : Returns [40, 97, 41, 59, 98] subshellThenWord := ⟨8, ⟨[], some []⟩, rfl⟩
  exact ⟨h, (returns_wellFormed h (by simp [subshellThenWord])).1⟩

end SystemsProjects.Cmdparse
