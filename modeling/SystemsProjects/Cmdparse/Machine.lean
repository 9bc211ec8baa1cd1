import SystemsProjects.Cmdparse.Parser
import SystemsProjects.Lib.Halting

/-!
# The parser as a machine with a stack

The calls of `cmd_line_parse` that are open at one time form a stack of frames, one for each
parenthesis that is being read. A step of the machine is one iteration of the loop of `cmd_parse`
in the top frame, together with what `cmd_line_parse` does when the command ends there. The
machine halts exactly when the recursion of `cmdparse.c` returns (or fails its assertion), and
with the same result.
-/

namespace SystemsProjects.Cmdparse

open SystemsProjects.Lib

/-- A call of `cmd_line_parse` in progress: the commands it has and the one being read. -/
structure Frame where
  head : List Command
  cmd : Command

/-- The open calls, innermost first, and the parse state. -/
structure Config where
  top : Frame
  outer : List Frame
  ps : ParseState

/-- How a parse ends. -/
inductive Result where
  | returned (list : List Command) (ps : ParseState)
  | aborted

/-- The innermost call returns `list`: to the loop of `cmd_parse` that called it, or to the
caller of the parser. -/
def resume (outer : List Frame) (list : List Command) (ps : ParseState) : Config ⊕ Result :=
  match outer with
  | [] => .inr (.returned list ps)
  | f :: outer => .inl ⟨{ f with cmd := { f.cmd with subshell := list } }, outer, ps⟩

/-- `cmd_line_parse` connected a command to what follows. -/
def afterConnect (head : List Command) (outer : List Frame) : LineStep → Config ⊕ Result
  | .again cmd ps => .inl ⟨⟨head ++ [cmd], cmdAlloc⟩, outer, ps⟩
  | .finish list ps => resume outer list ps
  | .abort => .inr .aborted

/-- `cmd_parse` returned in the top frame. -/
def afterCmd (head : List Command) (outer : List Frame) (r : Option Command) (ps : ParseState) :
    Config ⊕ Result :=
  match r with
  | none => resume outer [] ps
  | some cmd => afterConnect head outer (connect (!outer.isEmpty) head cmd ps)

/-- The loop of `cmd_parse` took a token in the top frame. -/
def afterToken (top : Frame) (outer : List Frame) : CmdStep → Config ⊕ Result
  | .again cmd ps => .inl ⟨{ top with cmd := cmd }, outer, ps⟩
  | .paren ps => .inl ⟨⟨[], cmdAlloc⟩, top :: outer, ps⟩
  | .finish r ps => afterCmd top.head outer r ps
  | .abort => .inr .aborted

/-- One step. -/
def Config.step (c : Config) : Config ⊕ Result :=
  afterToken c.top c.outer (cmdToken c.top.cmd c.ps)

/-- The machine before the first token of a line. -/
def Config.init (line : List UInt8) : Config := ⟨⟨[], cmdAlloc⟩, [], parseInit line⟩

/-! ## The recursion against the machine -/

/-- The machine after a call of the recursion. -/
def andThen {α : Type} (q : Except Stop α) (k : α → Config ⊕ Result) : Config ⊕ Result :=
  match q with
  | .ok a => k a
  | .error _ => .inr .aborted

/-- After a call of `cmd_parse` in the frame `head`. -/
def cmdThen (fuel : Nat) (f : Frame) (outer : List Frame) (ps : ParseState) : Config ⊕ Result :=
  andThen (cmdParseLoop fuel f.cmd ps) fun p => afterCmd f.head outer p.1 p.2

/-- After a call of `cmd_line_parse` inside the frames `outer`. -/
def lineThen (fuel : Nat) (head : List Command) (outer : List Frame) (ps : ParseState) :
    Config ⊕ Result :=
  andThen (cmdLineLoop fuel (!outer.isEmpty) head ps) fun p => resume outer p.1 p.2

/-- What a call of `cmd_parse` within `fuel` computes, the machine computes. -/
def CmdRuns (o : Result) (fuel : Nat) : Prop :=
  ∀ f outer ps, cmdParseLoop fuel f.cmd ps ≠ .error .fuel →
    Ends Config.step (cmdThen fuel f outer ps) o → Ends Config.step (.inl ⟨f, outer, ps⟩) o

/-- The same for a call of `cmd_line_parse`. -/
def LineRuns (o : Result) (fuel : Nat) : Prop :=
  ∀ head outer ps, cmdLineLoop fuel (!outer.isEmpty) head ps ≠ .error .fuel →
    Ends Config.step (lineThen fuel head outer ps) o →
    Ends Config.step (.inl ⟨⟨head, cmdAlloc⟩, outer, ps⟩) o

theorem CmdRuns.succ {o : Result} {fuel : Nat} (ihCmd : CmdRuns o fuel) (ihLine : LineRuns o fuel) :
    CmdRuns o (fuel + 1) := by
  intro f outer ps hne hends
  rw [ends_inl, Config.step]
  dsimp only [afterToken]
  rw [cmdThen, cmdParseLoop] at hends
  rw [cmdParseLoop] at hne
  cases htok : cmdToken f.cmd ps with
  | again cmd' ps' =>
    simp only [htok] at hends hne ⊢
    exact ihCmd _ _ _ hne hends
  | paren ps' =>
    simp only [htok] at hends hne ⊢
    -- the inner call, then the loop again with its result
    apply ihLine [] (f :: outer) ps'
    · intro h
      simp only [List.isEmpty_cons, Bool.not_false] at h
      exact hne (by rw [h])
    · cases hline : cmdLineLoop fuel true [] ps' with
      | ok p =>
        simp only [hline, lineThen, List.isEmpty_cons, Bool.not_false, andThen, resume]
          at hends hne ⊢
        exact ihCmd _ _ _ hne hends
      | error e =>
        simp only [hline, lineThen, List.isEmpty_cons, Bool.not_false, andThen] at hends ⊢
        exact hends
  | finish r ps' =>
    simp only [htok, andThen] at hends ⊢
    exact hends
  | abort =>
    simp only [htok, andThen] at hends ⊢
    exact hends

theorem LineRuns.succ {o : Result} {fuel : Nat} (ihCmd : CmdRuns o fuel)
    (ihLine : LineRuns o fuel) : LineRuns o (fuel + 1) := by
  intro head outer ps hne hends
  rw [lineThen, cmdLineLoop] at hends
  rw [cmdLineLoop] at hne
  apply ihCmd ⟨head, cmdAlloc⟩ outer ps
  · intro h
    exact hne (by rw [h])
  · cases hcmd : cmdParseLoop fuel cmdAlloc ps with
    | error e =>
      simp only [hcmd, cmdThen, andThen] at hends ⊢
      exact hends
    | ok p =>
      obtain ⟨r, ps'⟩ := p
      simp only [hcmd, cmdThen, andThen] at hends hne ⊢
      cases r with
      | none => exact hends
      | some cmd =>
        dsimp only [afterCmd, afterConnect] at hends hne ⊢
        cases hconn : connect (!outer.isEmpty) head cmd ps' with
        | again cmd' ps'' =>
          simp only [hconn] at hends hne ⊢
          exact ihLine _ _ _ hne hends
        | finish l ps'' =>
          simp only [hconn] at hends ⊢
          exact hends
        | abort =>
          simp only [hconn] at hends ⊢
          exact hends

/-- What the recursion computes, the machine computes. -/
theorem machine_of_parse (fuel : Nat) (o : Result) : CmdRuns o fuel ∧ LineRuns o fuel := by
  induction fuel with
  | zero =>
    constructor
    · intro f outer ps hne _
      exact absurd (by rw [cmdParseLoop]) hne
    · intro head outer ps hne _
      exact absurd (by rw [cmdLineLoop]) hne
  | succ fuel ih => exact ⟨ih.1.succ ih.2, LineRuns.succ ih.1 ih.2⟩

/-- A run of `n` steps that starts in a call of `cmd_parse`: with enough fuel the call returns, and
the rest of the run is shorter. -/
def CmdReturns (o : Result) (n : Nat) : Prop :=
  ∀ f outer ps, EndsIn Config.step n (.inl ⟨f, outer, ps⟩) o →
    ∃ fuel m, m < n ∧ cmdParseLoop fuel f.cmd ps ≠ .error .fuel ∧
      EndsIn Config.step m (cmdThen fuel f outer ps) o

/-- The same for a call of `cmd_line_parse`. -/
def LineReturns (o : Result) (n : Nat) : Prop :=
  ∀ head outer ps, EndsIn Config.step n (.inl ⟨⟨head, cmdAlloc⟩, outer, ps⟩) o →
    ∃ fuel m, m < n ∧ cmdLineLoop fuel (!outer.isEmpty) head ps ≠ .error .fuel ∧
      EndsIn Config.step m (lineThen fuel head outer ps) o

/-- One step in `cmd_parse`, and after an opening parenthesis the inner call and the loop again. -/
theorem cmdReturns_of_lt {o : Result} {n : Nat} (ihCmd : ∀ k < n, CmdReturns o k)
    (ihLine : ∀ k < n, LineReturns o k) : CmdReturns o n := by
  intro f outer ps hends
  obtain ⟨k, hk, hends⟩ : ∃ k, n = k + 1 ∧
      EndsIn Config.step k (Config.step ⟨f, outer, ps⟩) o := by
    cases hends with
    | next h => exact ⟨_, rfl, h⟩
  have hlt : k < n := by omega
  cases htok : cmdToken f.cmd ps with
  | again cmd' ps' =>
    simp only [Config.step, afterToken, htok] at hends
    obtain ⟨fuel, m, hm, hne, hrest⟩ := ihCmd k hlt _ _ _ hends
    refine ⟨fuel + 1, m, Nat.lt_trans hm hlt, ?_, ?_⟩
    · simpa only [cmdParseLoop, htok] using hne
    · simpa only [cmdThen, cmdParseLoop, htok] using hrest
  | paren ps' =>
    simp only [Config.step, afterToken, htok] at hends
    obtain ⟨fuel₁, m₁, hm₁, hne₁, hrest₁⟩ := ihLine k hlt _ _ _ hends
    simp only [List.isEmpty_cons, Bool.not_false] at hne₁
    simp only [lineThen, List.isEmpty_cons, Bool.not_false] at hrest₁
    cases hline : cmdLineLoop fuel₁ true [] ps' with
    | error e =>
      refine ⟨fuel₁ + 1, m₁, Nat.lt_trans hm₁ hlt, ?_, ?_⟩
      · rw [hline] at hne₁
        simp only [cmdParseLoop, htok, hline]
        simpa using hne₁
      · simpa only [cmdThen, cmdParseLoop, htok, hline, andThen] using hrest₁
    | ok p =>
      simp only [hline, andThen, resume] at hrest₁
      obtain ⟨fuel₂, m₂, hm₂, hne₂, hrest₂⟩ := ihCmd m₁ (by omega) _ _ _ hrest₁
      -- enough fuel for both calls
      have h₁ := cmdLineLoop_mono (Nat.le_max_left fuel₁ fuel₂) hline (by simp)
      have h₂ := cmdParseLoop_mono (Nat.le_max_right fuel₁ fuel₂) rfl hne₂
      refine ⟨max fuel₁ fuel₂ + 1, m₂, by omega, ?_, ?_⟩
      · simp only [cmdParseLoop, htok, h₁]
        rw [h₂]
        exact hne₂
      · simp only [cmdThen, cmdParseLoop, htok, h₁]
        rw [h₂]
        exact hrest₂
  | finish r ps' =>
    simp only [Config.step, afterToken, htok] at hends
    refine ⟨1, k, hlt, by simp [cmdParseLoop, htok], ?_⟩
    simpa only [cmdThen, cmdParseLoop, htok, andThen] using hends
  | abort =>
    simp only [Config.step, afterToken, htok] at hends
    refine ⟨1, k, hlt, by simp [cmdParseLoop, htok], ?_⟩
    simpa only [cmdThen, cmdParseLoop, htok, andThen] using hends

/-- A command, what connects it, and the rest of the line. -/
theorem lineReturns_of_lt {o : Result} {n : Nat} (hcmd : CmdReturns o n)
    (ihLine : ∀ k < n, LineReturns o k) : LineReturns o n := by
  intro head outer ps hends
  obtain ⟨fuel₁, m₁, hm₁, hne₁, hrest₁⟩ := hcmd _ _ _ hends
  simp only [cmdThen] at hrest₁ hne₁
  cases hc : cmdParseLoop fuel₁ cmdAlloc ps with
  | error e =>
    refine ⟨fuel₁ + 1, m₁, hm₁, ?_, ?_⟩
    · rw [hc] at hne₁
      simp only [cmdLineLoop, hc]
      simpa using hne₁
    · simpa only [lineThen, cmdLineLoop, hc, andThen] using hrest₁
  | ok p =>
    obtain ⟨r, ps'⟩ := p
    simp only [hc, andThen] at hrest₁
    cases r with
    | none =>
      refine ⟨fuel₁ + 1, m₁, hm₁, by simp [cmdLineLoop, hc], ?_⟩
      simpa only [lineThen, cmdLineLoop, hc, andThen, afterCmd] using hrest₁
    | some cmd =>
      dsimp only [afterCmd, afterConnect] at hrest₁
      cases hconn : connect (!outer.isEmpty) head cmd ps' with
      | again cmd' ps'' =>
        simp only [hconn] at hrest₁
        obtain ⟨fuel₂, m₂, hm₂, hne₂, hrest₂⟩ := ihLine m₁ hm₁ _ _ _ hrest₁
        have h₁ := cmdParseLoop_mono (Nat.le_max_left fuel₁ fuel₂) hc (by simp)
        have h₂ := cmdLineLoop_mono (Nat.le_max_right fuel₁ fuel₂) rfl hne₂
        refine ⟨max fuel₁ fuel₂ + 1, m₂, by omega, ?_, ?_⟩
        · simp only [cmdLineLoop, h₁, hconn]
          rw [h₂]
          exact hne₂
        · simp only [lineThen, cmdLineLoop, h₁, hconn]
          rw [h₂]
          exact hrest₂
      | finish l ps'' =>
        simp only [hconn] at hrest₁
        refine ⟨fuel₁ + 1, m₁, hm₁, by simp [cmdLineLoop, hc, hconn], ?_⟩
        simpa only [lineThen, cmdLineLoop, hc, hconn, andThen] using hrest₁
      | abort =>
        simp only [hconn] at hrest₁
        refine ⟨fuel₁ + 1, m₁, hm₁, by simp [cmdLineLoop, hc, hconn], ?_⟩
        simpa only [lineThen, cmdLineLoop, hc, hconn, andThen] using hrest₁

/-- What the machine computes, the recursion computes with enough fuel. -/
theorem parse_of_machine (o : Result) (n : Nat) : CmdReturns o n ∧ LineReturns o n := by
  induction n using Nat.strongRecOn with
  | ind n ih =>
    have hcmd : CmdReturns o n := cmdReturns_of_lt (fun k hk => (ih k hk).1) fun k hk => (ih k hk).2
    exact ⟨hcmd, lineReturns_of_lt hcmd fun k hk => (ih k hk).2⟩

/-- `cmd_line_parse` returns a list exactly when the machine halts with it. -/
theorem returns_iff_ends (line : List UInt8) (l : List Command) :
    Returns line l ↔
      ∃ ps, Ends Config.step (.inl (Config.init line)) (.returned l ps) := by
  constructor
  · rintro ⟨fuel, ps, h⟩
    refine ⟨ps, (machine_of_parse fuel _).2 [] [] (parseInit line) ?_ ?_⟩
    · rw [show cmdLineLoop fuel (!([] : List Frame).isEmpty) [] (parseInit line) = _ from h]
      simp
    · rw [lineThen, show cmdLineLoop fuel (!([] : List Frame).isEmpty) [] (parseInit line) = _
        from h]
      exact ends_inr.mpr rfl
  · rintro ⟨ps, n, h⟩
    obtain ⟨fuel, m, -, hne, hrest⟩ := (parse_of_machine _ n).2 [] [] (parseInit line) h
    cases hq : cmdLineLoop fuel (!([] : List Frame).isEmpty) [] (parseInit line) with
    | error e =>
      simp only [lineThen, hq, andThen] at hrest
      exact absurd (ends_inr.mp ⟨m, hrest⟩) (by simp)
    | ok p =>
      simp only [lineThen, hq, andThen, resume] at hrest
      have heq := ends_inr.mp ⟨m, hrest⟩
      simp only [Result.returned.injEq] at heq
      refine ⟨fuel, p.2, ?_⟩
      rw [heq.1]
      exact hq

end SystemsProjects.Cmdparse
