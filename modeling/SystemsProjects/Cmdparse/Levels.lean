import SystemsProjects.Cmdparse.Machine

/-!
# The machine over token types

Which way the parser goes depends on the types of the tokens and, for each open parenthesis, on
the number of words and the presence of a subshell in the command being read: a `Level`. The
machine of this module has a stack of levels and the types of the tokens that are left. It also
covers `TOK_ERROR`: reading it leaves `last_position` at the token before, so that
`parse_ungettoken` moves the parser back in front of that token.
-/

namespace SystemsProjects.Cmdparse

open SystemsProjects.Lib

/-! ## Levels and moves -/

/-- What is known of the command being read at one open parenthesis. -/
structure Level where
  words : Nat
  sub : Bool
  deriving DecidableEq, Repr

/-- A command of which nothing has been read. -/
def Level.blank : Level := ⟨0, false⟩

def Level.isEmpty (f : Level) : Bool := f.words == 0 && !f.sub

/-- The level of a command. -/
def Command.level (cmd : Command) : Level := ⟨cmd.argv.length, !cmd.subshell.isEmpty⟩

theorem Command.level_isEmpty (cmd : Command) : cmd.level.isEmpty = cmd.isEmpty := by
  unfold Command.level Level.isEmpty Command.isEmpty
  cases cmd.argv <;> cases cmd.subshell <;> rfl

/-- What one step does: go on at the same level, open a level, or end the level, with or without
a list of commands. -/
inductive Effect where
  | again (f : Level) (rest : List TokenType)
  | push (rest : List TokenType)
  | ret (ok : Bool) (rest : List TokenType)

/-- `cmd_line_parse` after the token `t`, one of `;` and `&`. The stream ends with `TOK_END` when
`e` is `none`, and with `TOK_ERROR` behind a token of type `tn` when `e` is `some tn`. -/
def separatorMove (e : Option TokenType) (nested : Bool) (t : TokenType) :
    List TokenType → Effect
  | [] => if e.isNone then .ret (!nested) [] else .again .blank [t]
  | t' :: rest => if t' = .tokCloseParen then .ret nested rest else .again .blank (t' :: rest)

/-- `cmd_line_parse` after a command, on the token `t`. -/
def connectMove (e : Option TokenType) (nested : Bool) (t : TokenType) (rest : List TokenType) :
    Effect :=
  match t with
  | .tokDoubleamp | .tokDoublepipe | .tokPipe => .again .blank rest
  | .tokSemicolon | .tokAmpersand => separatorMove e nested t rest
  | .tokCloseParen => .ret nested rest
  | _ => .ret false rest

/-- A redirection: the next token has to be its file name. -/
def redirectMove (f : Level) (rest : List TokenType) : Effect :=
  if f.isEmpty then .ret false rest
  else
    match rest with
    | [] => .ret false []
    | t' :: rest => if t' = .tokNormal then .again f rest else .ret false rest

/-- One iteration of the loop of `cmd_parse`, and `connectMove` when the command ends. -/
def move (e : Option TokenType) (nested : Bool) (f : Level) : List TokenType → Effect
  | [] =>
    match e with
    | none => .ret (!f.isEmpty && !nested) []
    | some tn => if f.isEmpty then .ret false [tn] else connectMove e nested tn []
  | t :: rest =>
    match t with
    | .tokNormal =>
      if f.words ≥ maxtokens ∨ f.sub then .ret false rest
      else .again { f with words := f.words + 1 } rest
    | .tokLessThan | .tokGreaterThan | .tok2GreaterThan => redirectMove f rest
    | .tokOpenParen => .push rest
    | _ => if f.isEmpty then .ret false (t :: rest) else connectMove e nested t rest

/-- The levels, innermost first, and the types of the tokens that are left. -/
structure Stack where
  top : Level
  outer : List Level
  rest : List TokenType

/-- The innermost level ends. -/
def Stack.resume (outer : List Level) (ok : Bool) (rest : List TokenType) : Stack ⊕ Bool :=
  match outer with
  | [] => .inr ok
  | g :: outer => .inl ⟨{ g with sub := ok }, outer, rest⟩

/-- The levels after an effect. -/
def Effect.after (top : Level) (outer : List Level) : Effect → Stack ⊕ Bool
  | .again f rest => .inl ⟨f, outer, rest⟩
  | .push rest => .inl ⟨.blank, top :: outer, rest⟩
  | .ret ok rest => Stack.resume outer ok rest

/-- One step; the result says whether a list of commands is returned. -/
def Stack.step (e : Option TokenType) (a : Stack) : Stack ⊕ Bool :=
  (move e (!a.outer.isEmpty) a.top a.rest).after a.top a.outer

/-! ## Parse states and streams of token types -/

/-- The type of the token that ends the stream. -/
def ending : Option TokenType → TokenType
  | none => .tokEnd
  | some _ => .tokError

/-- The parse state stands before tokens of the types `rest`. Behind the last token of a stream
that ends in an error, `last_position` is the position of that token. -/
structure Stream (e : Option TokenType) (ps : ParseState) (rest : List TokenType) : Prop where
  toks : ∃ ts, tokens ps.position = (ts, ending e) ∧ ts.map Token.type = rest
  last : ∀ tn, e = some tn → rest = [] →
    ∃ q t, ps.lastPosition = some q ∧ tokens q = ([t], .tokError) ∧ t.type = tn
  final : ∀ tn, e = some tn → rest ≠ [] → rest.getLast? = some tn

variable {e : Option TokenType} {ps : ParseState} {t : TokenType} {rest : List TokenType}

/-- Before a token, `last_position` does not matter. -/
theorem Stream.rewind (h : Stream e ps (t :: rest)) (last : Option (List UInt8)) :
    Stream e ⟨ps.position, last⟩ (t :: rest) where
  toks := h.toks
  last := by
    intro _ _ hnil
    exact absurd hnil (by simp)
  final := h.final

/-- Reading a token, and reading it back. -/
theorem Stream.token (h : Stream e ps (t :: rest)) :
    ∃ tok ps', parseGettoken ps = (tok, ps') ∧ tok.type = t ∧ Stream e ps' rest ∧
      parseUngettoken ps' = some ⟨ps.position, none⟩ ∧ t ≠ .tokEnd ∧ t ≠ .tokError := by
  obtain ⟨ts, hts, hmap⟩ := h.toks
  cases ts with
  | nil => exact absurd hmap (by simp)
  | cons tok ts =>
    obtain ⟨htype, hrest⟩ := List.cons.inj hmap
    obtain ⟨p', hp', hget⟩ := parseGettoken_token hts
    have hproper : t ≠ .tokEnd ∧ t ≠ .tokError := by
      rw [← htype]
      exact (tokens_proper ps.position).2 tok (by rw [hts]; exact List.mem_cons_self)
    refine ⟨tok, ⟨p', some ps.position⟩, hget ps.lastPosition, htype,
      ⟨⟨ts, hp', hrest⟩, ?_, ?_⟩, rfl, hproper⟩
    · intro tn he hnil
      have htn := h.final tn he (by simp)
      subst hnil
      obtain rfl := List.map_eq_nil_iff.mp hrest
      refine ⟨ps.position, tok, rfl, ?_, ?_⟩
      · rw [hts, he]
        rfl
      · rw [htype]
        simpa using htn
    · intro tn he hne
      have htn := h.final tn he (by simp)
      rwa [List.getLast?_cons_of_ne_nil hne] at htn

/-- At the end of the line nothing moves. -/
theorem Stream.atEnd (h : Stream none ps []) :
    ∃ ps', parseGettoken ps = (⟨.tokEnd, []⟩, ps') ∧ Stream none ps' [] ∧
      parseUngettoken ps' = some ⟨ps.position, none⟩ ∧ Stream none ⟨ps.position, none⟩ [] := by
  obtain ⟨ts, hts, hmap⟩ := h.toks
  obtain rfl := List.map_eq_nil_iff.mp hmap
  have hstream : ∀ last, Stream none ⟨ps.position, last⟩ [] := by
    intro last
    exact ⟨⟨[], hts, rfl⟩, fun _ he => absurd he (by simp), fun _ he => absurd he (by simp)⟩
  exact ⟨_, parseGettoken_end hts ps.lastPosition, hstream _, rfl, hstream none⟩

/-- At an error, `parse_ungettoken` goes back before the last token. -/
theorem Stream.atError {tn : TokenType} (h : Stream (some tn) ps []) :
    parseGettoken ps = (⟨.tokError, []⟩, ps) ∧
      ∃ ps', parseUngettoken ps = some ps' ∧ Stream (some tn) ps' [tn] := by
  obtain ⟨ts, hts, hmap⟩ := h.toks
  obtain rfl := List.map_eq_nil_iff.mp hmap
  obtain ⟨q, tok, hlast, hq, htype⟩ := h.last tn rfl rfl
  refine ⟨parseGettoken_error hts ps.lastPosition, ⟨q, none⟩, ?_, ⟨⟨[tok], hq, ?_⟩, ?_, ?_⟩⟩
  · simp only [parseUngettoken, hlast]
  · simp [htype]
  · intro _ _ hnil
    exact absurd hnil (by simp)
  · intro tn' he _
    rw [Option.some.inj he]
    rfl

/-! ## The parser takes the moves -/

/-- The status `x`, reached in one step from the frames `top :: outer`, is what the effect says. -/
def Realises (e : Option TokenType) (top : Frame) (outer : List Frame) (x : Config ⊕ Result) :
    Effect → Prop
  | .again f rest => ∃ c, x = .inl c ∧ c.outer = outer ∧ c.top.cmd.level = f ∧
      c.top.cmd.controlop = .cmdEnd ∧ Stream e c.ps rest
  | .push rest => ∃ ps, x = .inl ⟨⟨[], cmdAlloc⟩, top :: outer, ps⟩ ∧ Stream e ps rest
  | .ret ok rest => ∃ l ps, x = resume outer l ps ∧ (!l.isEmpty) = ok ∧ Stream e ps rest

variable {top : Frame} {outer : List Frame} {cmd : Command} {head : List Command}

/-- The test at the end of a line: nested lines end with a parenthesis, others with the line. -/
theorem lineEnder_eq (inParens : Bool) (head : List Command) (type : TokenType) (ps : ParseState)
    (hops : cmd.controlop = .cmdEnd ∨ cmd.controlop = .cmdSemicolon ∨
      cmd.controlop = .cmdBackground) :
    lineEnder inParens head cmd type ps =
      .finish (if (type == .tokEnd) = inParens then [] else head ++ [cmd]) ps := by
  unfold lineEnder
  by_cases h : (type == .tokEnd) = inParens
  · simp only [if_pos h]
  · simp only [if_neg h]
    rcases hops with hop | hop | hop <;> simp [hop]

theorem realises_close (hs : Stream e ps rest) (head : List Command)
    (hops : cmd.controlop = .cmdEnd ∨ cmd.controlop = .cmdSemicolon ∨
      cmd.controlop = .cmdBackground) :
    Realises e top outer
      (afterConnect head outer (lineEnder (!outer.isEmpty) head cmd .tokCloseParen ps))
      (.ret (!outer.isEmpty) rest) := by
  rw [lineEnder_eq _ _ _ _ hops]
  refine ⟨_, ps, rfl, ?_, hs⟩
  cases outer <;> simp

theorem realises_end (hs : Stream none ps []) (head : List Command)
    (hops : cmd.controlop = .cmdEnd ∨ cmd.controlop = .cmdSemicolon ∨
      cmd.controlop = .cmdBackground) :
    Realises none top outer
      (afterConnect head outer (lineEnder (!outer.isEmpty) head cmd .tokEnd ps))
      (.ret (!(!outer.isEmpty)) []) := by
  rw [lineEnder_eq _ _ _ _ hops]
  refine ⟨_, ps, rfl, ?_, hs⟩
  cases outer <;> simp

/-- `;` and `&`, after the token `t` itself was read. -/
theorem connectSeparator_realises (hs : Stream e ps rest)
    (hfinal : ∀ tn, e = some tn → (t :: rest).getLast? = some tn)
    (head : List Command)
    (hops : cmd.controlop = .cmdSemicolon ∨ cmd.controlop = .cmdBackground) :
    Realises e top outer
      (afterConnect head outer (connectSeparator (!outer.isEmpty) head cmd ps))
      (separatorMove e (!outer.isEmpty) t rest) := by
  cases rest with
  | nil =>
    cases e with
    | none =>
      obtain ⟨ps', hget, hs', -, -⟩ := hs.atEnd
      simp only [connectSeparator, separatorMove, hget, true_or, if_true, Option.isNone_none]
      exact realises_end hs' head (Or.inr hops)
    | some tn =>
      obtain ⟨hget, ps', hunget, hs'⟩ := hs.atError
      obtain rfl : t = tn := by simpa using hfinal tn rfl
      simp only [connectSeparator, separatorMove, hget, hunget]
      exact ⟨_, rfl, rfl, rfl, rfl, hs'⟩
  | cons t' rest =>
    obtain ⟨tok, ps', hget, htype, hs', hunget, hproper, -⟩ := hs.token
    by_cases hclose : t' = .tokCloseParen
    · subst hclose
      simp only [connectSeparator, separatorMove, hget, htype, or_true, if_true]
      exact realises_close hs' head (Or.inr hops)
    · have hno : ¬ (tok.type = .tokEnd ∨ tok.type = .tokCloseParen) := by
        rw [htype]
        exact not_or.mpr ⟨hproper, hclose⟩
      simp only [connectSeparator, separatorMove, hget, if_neg hno, hunget, if_neg hclose]
      exact ⟨_, rfl, rfl, rfl, rfl, hs.rewind none⟩

/-- `cmd_line_parse` after a command. -/
theorem connect_realises (hs : Stream e ps (t :: rest)) (head : List Command)
    (hops : cmd.controlop = .cmdEnd) :
    Realises e top outer (afterConnect head outer (connect (!outer.isEmpty) head cmd ps))
      (connectMove e (!outer.isEmpty) t rest) := by
  obtain ⟨tok, ps', hget, htype, hs', -, hend, herror⟩ := hs.token
  have hfinal : ∀ tn, e = some tn → (t :: rest).getLast? = some tn :=
    fun tn he => hs.final tn he (by simp)
  cases t with
  | tokEnd => exact absurd rfl hend
  | tokError => exact absurd rfl herror
  | tokDoubleamp | tokDoublepipe | tokPipe =>
    simp only [connect, hget, htype, connectMove]
    exact ⟨_, rfl, rfl, rfl, rfl, hs'⟩
  | tokSemicolon =>
    simp only [connect, hget, htype]
    exact connectSeparator_realises hs' hfinal head (Or.inl rfl)
  | tokAmpersand =>
    simp only [connect, hget, htype]
    exact connectSeparator_realises hs' hfinal head (Or.inr rfl)
  | tokCloseParen =>
    simp only [connect, hget, htype, connectMove]
    exact realises_close hs' head (Or.inl hops)
  | tokNormal | tokLessThan | tokGreaterThan | tok2GreaterThan | tokOpenParen =>
    simp only [connect, hget, htype, connectMove]
    exact ⟨[], ps', rfl, rfl, hs'⟩

/-- The loop of `cmd_parse` stops at a token that it puts back. -/
theorem realises_done (hs : Stream e ps (t :: rest)) (hops : top.cmd.controlop = .cmdEnd) :
    Realises e top outer (afterCmd top.head outer (cmdDone top.cmd) ps)
      (if top.cmd.level.isEmpty then .ret false (t :: rest)
        else connectMove e (!outer.isEmpty) t rest) := by
  rw [Command.level_isEmpty, cmdDone]
  by_cases hempty : top.cmd.isEmpty = true
  · simp only [hempty, if_true, afterCmd]
    exact ⟨[], ps, rfl, rfl, hs⟩
  · simp only [hempty, afterCmd]
    exact connect_realises hs top.head hops

/-- A redirection, after its sign was read. -/
theorem redirect_realises (hs : Stream e ps rest) (fd : Fin 3)
    (hops : top.cmd.controlop = .cmdEnd) :
    Realises e top outer (afterToken top outer (cmdRedirect fd top.cmd ps))
      (redirectMove top.cmd.level rest) := by
  unfold redirectMove cmdRedirect
  rw [Command.level_isEmpty]
  by_cases hempty : top.cmd.isEmpty = true
  · simp only [hempty, if_true]
    exact ⟨[], ps, rfl, rfl, hs⟩
  · simp only [hempty]
    cases rest with
    | nil =>
      cases e with
      | none =>
        obtain ⟨ps', hget, hs', -⟩ := hs.atEnd
        simp only [hget]
        exact ⟨[], ps', rfl, rfl, hs'⟩
      | some tn =>
        obtain ⟨hget, -⟩ := hs.atError
        simp only [hget]
        exact ⟨[], ps, rfl, rfl, hs⟩
    | cons t' rest =>
      obtain ⟨tok, ps', hget, htype, hs', -⟩ := hs.token
      by_cases hnormal : t' = .tokNormal
      · have hno : ¬ tok.type ≠ .tokNormal := by simp [htype, hnormal]
        simp only [hget, if_neg hno, if_pos hnormal]
        exact ⟨_, rfl, rfl, rfl, hops, hs'⟩
      · have hno : tok.type ≠ .tokNormal := by rw [htype]; exact hnormal
        simp only [hget, if_pos hno, if_neg hnormal]
        exact ⟨[], ps', rfl, rfl, hs'⟩

/-- Every step of the parser is the move of its level. -/
theorem step_realises (c : Config) (hs : Stream e c.ps rest)
    (hops : c.top.cmd.controlop = .cmdEnd) :
    Realises e c.top c.outer c.step (move e (!c.outer.isEmpty) c.top.cmd.level rest) := by
  rw [Config.step]
  cases rest with
  | nil =>
    cases e with
    | none =>
      obtain ⟨ps', hget, -, hunget, hs'⟩ := hs.atEnd
      simp only [cmdToken, hget, hunget, afterToken, move, Command.level_isEmpty, cmdDone]
      by_cases hempty : c.top.cmd.isEmpty = true
      · simp only [hempty, if_true, afterCmd]
        exact ⟨[], _, rfl, rfl, hs'⟩
      · obtain ⟨ps'', hget', hs'', -⟩ := hs'.atEnd
        simp only [hempty, afterCmd, connect, hget']
        simpa using realises_end hs'' c.top.head (Or.inl hops)
    | some tn =>
      obtain ⟨hget, ps', hunget, hs'⟩ := hs.atError
      simp only [cmdToken, hget, hunget, afterToken, move]
      exact realises_done hs' hops
  | cons t rest =>
    obtain ⟨tok, ps', hget, htype, hs', hunget, hend, herror⟩ := hs.token
    cases t with
    | tokEnd => exact absurd rfl hend
    | tokError => exact absurd rfl herror
    | tokNormal =>
      simp only [cmdToken, hget, htype, move]
      by_cases hfull : c.top.cmd.argv.length ≥ maxtokens ∨ ¬ c.top.cmd.subshell.isEmpty
      · have hfull' : c.top.cmd.level.words ≥ maxtokens ∨ c.top.cmd.level.sub = true := by
          simpa [Command.level] using hfull
        rw [if_pos hfull, if_pos hfull']
        exact ⟨[], ps', rfl, rfl, hs'⟩
      · have hfull' : ¬ (c.top.cmd.level.words ≥ maxtokens ∨ c.top.cmd.level.sub = true) := by
          simpa [Command.level] using hfull
        rw [if_neg hfull, if_neg hfull']
        exact ⟨_, rfl, rfl, by simp [Command.level], hops, hs'⟩
    | tokLessThan =>
      simp only [cmdToken, hget, htype, move]
      exact redirect_realises hs' 0 hops
    | tokGreaterThan =>
      simp only [cmdToken, hget, htype, move]
      exact redirect_realises hs' 1 hops
    | tok2GreaterThan =>
      simp only [cmdToken, hget, htype, move]
      exact redirect_realises hs' 2 hops
    | tokOpenParen =>
      simp only [cmdToken, hget, htype, move]
      exact ⟨ps', rfl, hs'⟩
    | tokSemicolon | tokAmpersand | tokPipe | tokDoubleamp | tokDoublepipe | tokCloseParen =>
      simp only [cmdToken, hget, htype, hunget, move, afterToken]
      exact realises_done (hs.rewind none) hops

/-! ## The two machines run together -/

/-- The stack of levels of a configuration. -/
structure Sim (e : Option TokenType) (c : Config) (a : Stack) : Prop where
  top : c.top.cmd.level = a.top
  outer : c.outer.map (fun f => f.cmd.level) = a.outer
  opsTop : c.top.cmd.controlop = .cmdEnd
  opsOuter : ∀ f ∈ c.outer, f.cmd.controlop = .cmdEnd
  stream : Stream e c.ps a.rest

/-- The result of a parse, as a list of commands or none. -/
def ResultIs : Result → Bool → Prop
  | .returned l _, ok => (!l.isEmpty) = ok
  | .aborted, _ => False

theorem resume_sim {l : List Command} {ok : Bool} {outer' : List Level}
    (houter : outer.map (fun f => f.cmd.level) = outer')
    (hops : ∀ f ∈ outer, f.cmd.controlop = .cmdEnd) (hl : (!l.isEmpty) = ok)
    (hs : Stream e ps rest) :
    Sum.LiftRel (Sim e) ResultIs (resume outer l ps) (Stack.resume outer' ok rest) := by
  subst houter
  cases outer with
  | nil => exact .inr hl
  | cons f outer =>
    obtain ⟨hf, houter⟩ := List.forall_mem_cons.mp hops
    refine .inl ⟨?_, rfl, hf, houter, hs⟩
    simp only [Command.level, hl]

/-- A step of the parser is a step of the machine over token types. -/
theorem step_sim {c : Config} {a : Stack} (h : Sim e c a) :
    Sum.LiftRel (Sim e) ResultIs c.step (a.step e) := by
  have hreal := step_realises c h.stream h.opsTop
  have hnested : (!c.outer.isEmpty) = (!a.outer.isEmpty) := by
    rw [← h.outer]
    cases c.outer <;> rfl
  rw [hnested, h.top] at hreal
  unfold Stack.step
  cases hmove : move e (!a.outer.isEmpty) a.top a.rest with
  | again f rest =>
    rw [hmove] at hreal
    obtain ⟨c', hx, houter, hlevel, hops, hs⟩ := hreal
    rw [hx]
    exact .inl ⟨hlevel, houter ▸ h.outer, hops, houter ▸ h.opsOuter, hs⟩
  | push rest =>
    rw [hmove] at hreal
    obtain ⟨ps', hx, hs⟩ := hreal
    rw [hx]
    refine .inl ⟨rfl, ?_, rfl, List.forall_mem_cons.mpr ⟨h.opsTop, h.opsOuter⟩, hs⟩
    simp only [List.map_cons, h.top, h.outer]
  | ret ok rest =>
    rw [hmove] at hreal
    obtain ⟨l, ps', hx, hl, hs⟩ := hreal
    rw [hx]
    exact resume_sim h.outer h.opsOuter hl hs

/-- The types of the tokens of a line, up to `TOK_END` or `TOK_ERROR`. -/
def types (line : List UInt8) : List TokenType := (tokens line).1.map Token.type

/-- How the token stream of a line ends. -/
def lineEnd (line : List UInt8) : Option TokenType :=
  if (tokens line).2 = .tokEnd then none else (types line).getLast?

/-- The machine over token types at the start of a line. -/
def Stack.init (ts : List TokenType) : Stack := ⟨.blank, [], ts⟩

theorem sim_init {line : List UInt8} (h : (tokens line).2 = .tokEnd ∨ types line ≠ []) :
    Sim (lineEnd line) (Config.init line) (Stack.init (types line)) := by
  refine ⟨rfl, rfl, rfl, by simp [Config.init], ⟨⟨(tokens line).1, ?_, rfl⟩, ?_, ?_⟩⟩
  · by_cases hend : (tokens line).2 = .tokEnd
    · rw [lineEnd, if_pos hend]
      exact Prod.ext rfl hend
    · have herror := (tokens_proper line).1.resolve_left hend
      have hne : types line ≠ [] := h.resolve_left hend
      obtain ⟨tn, htn⟩ := Option.ne_none_iff_exists'.mp (mt List.getLast?_eq_none_iff.mp hne)
      rw [lineEnd, if_neg hend, htn]
      exact Prod.ext rfl herror
  · intro tn he hnil
    by_cases hend : (tokens line).2 = .tokEnd
    · simp [lineEnd, hend] at he
    · exact absurd hnil (h.resolve_left hend)
  · intro tn he _
    by_cases hend : (tokens line).2 = .tokEnd
    · simp [lineEnd, hend] at he
    · rw [lineEnd, if_neg hend] at he
      exact he

/-- Unless the first token is an error, the parser returns when the machine over token types
halts, and the result of that machine says whether it returns a list of commands. -/
theorem returns_iff_stack {line : List UInt8} (h : (tokens line).2 = .tokEnd ∨ types line ≠ [])
    (ok : Bool) :
    (∃ l, Returns line l ∧ (!l.isEmpty) = ok) ↔
      Ends (Stack.step (lineEnd line)) (.inl (Stack.init (types line))) ok := by
  have hstep : ∀ c a, Sim (lineEnd line) c a →
      Sum.LiftRel (Sim (lineEnd line)) ResultIs c.step (a.step (lineEnd line)) :=
    fun c a hsim => step_sim hsim
  have hinit : Sum.LiftRel (Sim (lineEnd line)) ResultIs (.inl (Config.init line))
      (.inl (Stack.init (types line))) := .inl (sim_init h)
  constructor
  · rintro ⟨l, hl, rfl⟩
    obtain ⟨ps, hends⟩ := (returns_iff_ends line l).mp hl
    obtain ⟨ok, hok, rfl⟩ := hends.sim hstep hinit
    exact hok
  · intro hends
    obtain ⟨r, hr, hres⟩ := hends.sim_symm hstep hinit
    cases r with
    | returned l ps => exact ⟨l, (returns_iff_ends line l).mpr ⟨ps, hr⟩, hres⟩
    | aborted => exact hres.elim

/-- On an error as the first token, the assertion of `parse_ungettoken` fails. -/
theorem not_returns_of_error {line : List UInt8} (hend : (tokens line).2 ≠ .tokEnd)
    (hnil : types line = []) (l : List Command) : ¬ Returns line l := by
  rw [returns_iff_ends]
  rintro ⟨ps, hends⟩
  have htoks : tokens line = ([], .tokError) := by
    have herror := (tokens_proper line).1.resolve_left hend
    exact Prod.ext (List.map_eq_nil_iff.mp hnil) herror
  have hstep : (Config.init line).step = .inr .aborted := by
    simp only [Config.step, Config.init, parseInit, cmdToken, parseGettoken_error htoks,
      parseUngettoken, afterToken]
  rw [ends_inl, hstep, ends_inr] at hends
  exact absurd hends (by simp)

end SystemsProjects.Cmdparse
