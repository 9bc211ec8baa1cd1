import SystemsProjects.Cmdparse.Render

/-!
# Parsing undoes rendering

The two functions of the parser as relations between a parse state and what they return, with
one rule for each way an iteration of their loops can end. By these rules the parser reads the
tokens of a command tree, with the tree as the structure of the derivation.
-/

namespace SystemsProjects.Cmdparse

/-! ## The parser as a relation -/

/-- The loop of `cmd_parse` returns. -/
def CmdReads (cmd : Command) (ps : ParseState) (r : Option Command) (ps' : ParseState) : Prop :=
  ∃ fuel, cmdParseLoop fuel cmd ps = .ok (r, ps')

/-- The loop of `cmd_line_parse` returns. -/
def LineReads (inParens : Bool) (head : List Command) (ps : ParseState) (l : List Command)
    (ps' : ParseState) : Prop :=
  ∃ fuel, cmdLineLoop fuel inParens head ps = .ok (l, ps')

variable {cmd cmd' : Command} {ps ps₁ ps₂ ps' : ParseState} {r : Option Command}
  {inParens : Bool} {head l sub : List Command}

theorem CmdReads.again (htok : cmdToken cmd ps = .again cmd' ps₁) (h : CmdReads cmd' ps₁ r ps') :
    CmdReads cmd ps r ps' := by
  obtain ⟨fuel, hrun⟩ := h
  refine ⟨fuel + 1, ?_⟩
  rw [cmdParseLoop]
  simp only [htok, hrun]

theorem CmdReads.paren (htok : cmdToken cmd ps = .paren ps₁) (hsub : LineReads true [] ps₁ sub ps₂)
    (h : CmdReads { cmd with subshell := sub } ps₂ r ps') : CmdReads cmd ps r ps' := by
  obtain ⟨fuel₁, hline⟩ := hsub
  obtain ⟨fuel₂, hrun⟩ := h
  refine ⟨max fuel₁ fuel₂ + 1, ?_⟩
  rw [cmdParseLoop]
  simp only [htok, cmdLineLoop_mono (Nat.le_max_left fuel₁ fuel₂) hline (by simp),
    cmdParseLoop_mono (Nat.le_max_right fuel₁ fuel₂) hrun (by simp)]

theorem CmdReads.finish (htok : cmdToken cmd ps = .finish r ps') : CmdReads cmd ps r ps' :=
  ⟨1, by rw [cmdParseLoop]; simp only [htok]⟩

theorem LineReads.again (hcmd : CmdReads cmdAlloc ps (some cmd) ps₁)
    (hconn : connect inParens head cmd ps₁ = .again cmd' ps₂)
    (h : LineReads inParens (head ++ [cmd']) ps₂ l ps') : LineReads inParens head ps l ps' := by
  obtain ⟨fuel₁, hrun⟩ := hcmd
  obtain ⟨fuel₂, hline⟩ := h
  refine ⟨max fuel₁ fuel₂ + 1, ?_⟩
  rw [cmdLineLoop]
  simp only [cmdParseLoop_mono (Nat.le_max_left fuel₁ fuel₂) hrun (by simp), hconn,
    cmdLineLoop_mono (Nat.le_max_right fuel₁ fuel₂) hline (by simp)]

theorem LineReads.finish (hcmd : CmdReads cmdAlloc ps (some cmd) ps₁)
    (hconn : connect inParens head cmd ps₁ = .finish l ps') :
    LineReads inParens head ps l ps' := by
  obtain ⟨fuel, hrun⟩ := hcmd
  refine ⟨fuel + 1, ?_⟩
  rw [cmdLineLoop]
  simp only [hrun, hconn]

/-! ## One token -/

/-- The stream from a parse state on: the tokens `ts` and then the end of the line. -/
def Ahead (ps : ParseState) (ts : List Token) : Prop := tokens ps.position = (ts, .tokEnd)

variable {ts : List Token} {t : Token}

theorem Ahead.next (h : Ahead ps (t :: ts)) :
    ∃ ps', parseGettoken ps = (t, ps') ∧ Ahead ps' ts ∧
      ∃ back, parseUngettoken ps' = some back ∧ Ahead back (t :: ts) := by
  obtain ⟨p, last⟩ := ps
  obtain ⟨p', hrest, hget⟩ := parseGettoken_token h
  exact ⟨⟨p', some p⟩, hget last, hrest, ⟨p, none⟩, rfl, h⟩

theorem Ahead.end (h : Ahead ps []) :
    ∃ ps', parseGettoken ps = (⟨.tokEnd, []⟩, ps') ∧
      ∃ back, parseUngettoken ps' = some back ∧ Ahead back [] := by
  obtain ⟨p, last⟩ := ps
  exact ⟨⟨p, some p⟩, parseGettoken_end h last, ⟨p, none⟩, rfl, h⟩

/-- A word is added to the command. -/
theorem cmdToken_word (cmd : Command) {w : List UInt8} (h : Ahead ps (⟨.tokNormal, w⟩ :: ts))
    (hfits : cmd.argv.length < maxtokens) (hsub : cmd.subshell = []) :
    ∃ ps', cmdToken cmd ps = .again { cmd with argv := cmd.argv ++ [w] } ps' ∧ Ahead ps' ts := by
  obtain ⟨ps', hget, hrest, -⟩ := h.next
  refine ⟨ps', ?_, hrest⟩
  have hok : ¬ (cmd.argv.length ≥ maxtokens ∨ ¬ cmd.subshell.isEmpty = true) := by
    rw [not_or, not_not, hsub]
    exact ⟨Nat.not_le.mpr hfits, rfl⟩
  simp only [cmdToken, hget, if_neg hok]

theorem redirect_cases (fd : Fin 3) : fd = 0 ∨ fd = 1 ∨ fd = 2 := by
  revert fd
  decide

/-- A redirection sets its file name. -/
theorem cmdToken_redirect (cmd : Command) {w : List UInt8} (fd : Fin 3)
    (h : Ahead ps ((Piece.bare (redirectSign fd)).token :: ⟨.tokNormal, w⟩ :: ts))
    (hcmd : cmd.isEmpty = false) :
    ∃ ps', cmdToken cmd ps = .again { cmd with
      redirectFilename := Function.update cmd.redirectFilename fd (some w) } ps' ∧
      Ahead ps' ts := by
  obtain ⟨ps₁, hget₁, hrest₁, -⟩ := h.next
  obtain ⟨ps', hget, hrest, -⟩ := hrest₁.next
  refine ⟨ps', ?_, hrest⟩
  have hfile : cmdRedirect fd cmd ps₁ = .again { cmd with
      redirectFilename := Function.update cmd.redirectFilename fd (some w) } ps' := by
    simp only [cmdRedirect, hcmd, hget, Bool.false_eq_true, if_false, ne_eq, not_true_eq_false]
  rw [← hfile]
  rcases redirect_cases fd with rfl | rfl | rfl
  · simp only [cmdToken, hget₁]
    rfl
  · simp only [cmdToken, hget₁]
    rfl
  · simp only [cmdToken, hget₁]
    rfl

/-- A token that ends the command before it. -/
def Stops (t : TokenType) : Prop :=
  t = .tokSemicolon ∨ t = .tokAmpersand ∨ t = .tokPipe ∨ t = .tokDoubleamp ∨
    t = .tokDoublepipe ∨ t = .tokCloseParen

/-- The command ends before what is ahead. -/
def Stopped (ts : List Token) : Prop := ∀ t, ts.head? = some t → Stops t.type

/-- The end of a command is left for `cmd_line_parse`. -/
theorem cmdToken_stopped (cmd : Command) (h : Ahead ps ts) (hts : Stopped ts) :
    ∃ ps', cmdToken cmd ps = .finish (cmdDone cmd) ps' ∧ Ahead ps' ts := by
  cases ts with
  | nil =>
    obtain ⟨ps₁, hget, ps', hback, hrest⟩ := h.end
    exact ⟨ps', by simp only [cmdToken, hget, hback], hrest⟩
  | cons t ts =>
    obtain ⟨ps₁, hget, -, ps', hback, hrest⟩ := h.next
    refine ⟨ps', ?_, hrest⟩
    obtain ⟨type, buffer⟩ := t
    rcases hts _ rfl with rfl | rfl | rfl | rfl | rfl | rfl
    all_goals simp only [cmdToken, hget, hback]

/-! ## One command -/

/-- The loop of `cmd_parse` gets from `cmd` to `cmd'`: what it returns from there, it returns. -/
def Takes (cmd : Command) (ps : ParseState) (cmd' : Command) (ps' : ParseState) : Prop :=
  ∀ r last, CmdReads cmd' ps' r last → CmdReads cmd ps r last

theorem Takes.trans {cmd'' : Command} (h : Takes cmd ps cmd' ps₁) (h' : Takes cmd' ps₁ cmd'' ps₂) :
    Takes cmd ps cmd'' ps₂ := fun r last hread => h r last (h' r last hread)

theorem Takes.of_token (h : cmdToken cmd ps = .again cmd' ps') : Takes cmd ps cmd' ps' :=
  fun _ _ hread => CmdReads.again h hread

/-- The words of a command. -/
theorem takes_words (ws : List Word) :
    ∀ (cmd : Command) {ps : ParseState}, Ahead ps ((ws.map .quoted).map Piece.token ++ ts) →
      cmd.argv.length + ws.length ≤ maxtokens → cmd.subshell = [] →
      ∃ ps', Takes cmd ps { cmd with argv := cmd.argv ++ ws.map Word.chars } ps' ∧
        Ahead ps' ts := by
  induction ws with
  | nil =>
    intro cmd ps h _ _
    refine ⟨ps, ?_, h⟩
    obtain ⟨argv, files, sub, op⟩ := cmd
    rw [List.map_nil, List.append_nil]
    exact fun _ _ hread => hread
  | cons w ws ih =>
    intro cmd ps h hfits hsub
    rw [List.length_cons] at hfits
    obtain ⟨ps₁, htok, hahead⟩ := cmdToken_word cmd h (by omega) hsub
    obtain ⟨ps', htakes, hrest⟩ := ih { cmd with argv := cmd.argv ++ [w.chars] } hahead
      (by rw [List.length_append, List.length_singleton]; omega) hsub
    refine ⟨ps', ?_, hrest⟩
    rw [List.append_assoc] at htakes
    exact (Takes.of_token htok).trans htakes

/-- One redirection, if it is there. -/
theorem takes_file (files : Files) (fd : Fin 3) (names : Fin 3 → Option (List UInt8))
    (h : Ahead ps ((Files.piece files fd).map Piece.token ++ ts)) (hcmd : cmd.isEmpty = false)
    (hnone : names fd = none) :
    ∃ ps', Takes { cmd with redirectFilename := names } ps { cmd with
      redirectFilename := Function.update names fd (Files.names files fd) } ps' ∧
      Ahead ps' ts := by
  unfold Files.piece at h
  unfold Files.names
  cases hfile : files fd with
  | none =>
    rw [hfile] at h
    refine ⟨ps, ?_, h⟩
    rw [Option.map_none, ← hnone, Function.update_eq_self]
    exact fun _ _ hread => hread
  | some w =>
    rw [hfile] at h
    obtain ⟨ps', htok, hahead⟩ :=
      cmdToken_redirect { cmd with redirectFilename := names } fd h hcmd
    exact ⟨ps', Takes.of_token htok, hahead⟩

/-- The redirections of a command, and its end. -/
theorem reads_files (files : Files) (h : Ahead ps ((Files.pieces files).map Piece.token ++ ts))
    (hcmd : cmd.isEmpty = false) (hts : Stopped ts) :
    ∃ ps', CmdReads { cmd with redirectFilename := fun _ => none } ps
      (some { cmd with redirectFilename := Files.names files }) ps' ∧ Ahead ps' ts := by
  unfold Files.pieces at h
  rw [List.map_append, List.map_append, List.append_assoc, List.append_assoc] at h
  let names₁ := Function.update (fun _ => none) (0 : Fin 3) (Files.names files 0)
  let names₂ := Function.update names₁ 1 (Files.names files 1)
  obtain ⟨ps₁, h₁, ha₁⟩ := takes_file files 0 (fun _ => none) h hcmd rfl
  obtain ⟨ps₂, h₂, ha₂⟩ := takes_file files 1 names₁ ha₁ hcmd rfl
  obtain ⟨ps₃, h₃, ha₃⟩ := takes_file files 2 names₂ ha₂ hcmd rfl
  have hall : Function.update names₂ 2 (Files.names files 2) = Files.names files := by
    funext fd
    rcases redirect_cases fd with rfl | rfl | rfl <;> rfl
  rw [hall] at h₃
  obtain ⟨ps', htok, ha'⟩ := cmdToken_stopped { cmd with
    redirectFilename := Files.names files } ha₃ hts
  have hdone : cmdDone { cmd with redirectFilename := Files.names files } =
      some { cmd with redirectFilename := Files.names files } := by
    rw [cmdDone, if_neg]
    exact Bool.eq_false_iff.mp hcmd
  rw [hdone] at htok
  exact ⟨ps', (h₁.trans (h₂.trans h₃)) _ _ (CmdReads.finish htok), ha'⟩

/-! ## Trees -/

/-- What `cmd_line_parse` expects behind a list: a closing parenthesis, or the end of the line. -/
def closing (inParens : Bool) (ts : List Token) : List Token :=
  if inParens then (Piece.bare .closeParen).token :: ts else []

/-- `cmd_parse` reads a command. -/
def CmdOk (c : Cmd) : Prop :=
  ∀ ps ts, Ahead ps (c.pieces.map Piece.token ++ ts) → Stopped ts →
    ∃ ps', CmdReads cmdAlloc ps (some c.command) ps' ∧ Ahead ps' ts

/-- `cmd_line_parse` reads a list of commands. -/
def TreeOk (t : Tree) : Prop :=
  ∀ inParens head ps ts, Ahead ps (t.pieces.map Piece.token ++ closing inParens ts) →
    ∃ ps', LineReads inParens head ps (head ++ t.commands) ps' ∧ (inParens = true → Ahead ps' ts)

theorem cmdOk_words (ws : List Word) (hne : ws ≠ []) (hfits : ws.length ≤ maxtokens)
    (files : Files) : CmdOk (.words ws hne hfits files) := by
  intro ps ts h hts
  rw [Cmd.pieces, List.map_append, List.append_assoc] at h
  obtain ⟨ps₁, htakes, h₁⟩ := takes_words ws cmdAlloc h
    (by rw [cmdAlloc, List.length_nil, Nat.zero_add]; exact hfits) rfl
  have hwords : Command.isEmpty { cmdAlloc with argv := cmdAlloc.argv ++ ws.map Word.chars } =
      false := by
    obtain ⟨w, ws, rfl⟩ := List.exists_cons_of_ne_nil hne
    rfl
  obtain ⟨ps', hread, h'⟩ := reads_files files h₁ hwords hts
  exact ⟨ps', htakes _ _ hread, h'⟩

theorem Tree.commands_ne_nil (t : Tree) : t.commands ≠ [] := by
  cases t with
  | last c e => exact List.cons_ne_nil _ _
  | join c j t => exact List.cons_ne_nil _ _

theorem cmdToken_paren (cmd : Command) (h : Ahead ps ((Piece.bare .openParen).token :: ts)) :
    ∃ ps', cmdToken cmd ps = .paren ps' ∧ Ahead ps' ts := by
  obtain ⟨ps', hget, hrest, -⟩ := h.next
  exact ⟨ps', by simp only [cmdToken, hget, Piece.token, Sign.type], hrest⟩

theorem cmdOk_subshell (t : Tree) (files : Files) (ht : TreeOk t) : CmdOk (.subshell t files) := by
  intro ps ts h hts
  rw [Cmd.pieces, List.map_append, List.cons_append, List.map_cons, List.map_append,
    List.append_assoc, List.cons_append, List.append_assoc] at h
  obtain ⟨ps₁, htok, h₁⟩ := cmdToken_paren cmdAlloc h
  obtain ⟨ps₂, hline, h₂⟩ := ht true [] ps₁ _ h₁
  have hsub : Command.isEmpty { cmdAlloc with subshell := t.commands } = false := by
    obtain ⟨c, cs, hcs⟩ := List.exists_cons_of_ne_nil t.commands_ne_nil
    rw [hcs]
    rfl
  obtain ⟨ps', hread, h'⟩ := reads_files files (h₂ rfl) hsub hts
  exact ⟨ps', CmdReads.paren htok hline hread, h'⟩

/-- At the end of a list `cmd_line_parse` returns it. -/
theorem lineEnder_closing (head : List Command) {c : Command}
    (hop : c.controlop = .cmdEnd ∨ c.controlop = .cmdSemicolon ∨
      c.controlop = .cmdBackground) (h : Ahead ps (closing inParens ts)) :
    ∃ token ps', parseGettoken ps = (token, ps') ∧
      (token.type = .tokEnd ∨ token.type = .tokCloseParen) ∧
      lineEnder inParens head c token.type ps' = .finish (head ++ [c]) ps' ∧
      (inParens = true → Ahead ps' ts) := by
  have hok : ¬ (c.controlop ≠ .cmdEnd ∧ c.controlop ≠ .cmdSemicolon ∧
      c.controlop ≠ .cmdBackground) := by
    intro hne
    rcases hop with h | h | h
    · exact hne.1 h
    · exact hne.2.1 h
    · exact hne.2.2 h
  cases inParens with
  | false =>
    obtain ⟨ps', hget, -⟩ := h.end
    refine ⟨_, ps', hget, Or.inl rfl, ?_, nofun⟩
    rw [lineEnder, if_neg (by decide), if_neg hok]
  | true =>
    obtain ⟨ps', hget, hrest, -⟩ := h.next
    refine ⟨_, ps', hget, Or.inr rfl, ?_, fun _ => hrest⟩
    rw [lineEnder, if_neg (by decide), if_neg hok]

theorem stopped_cons {x : Sign} (hx : Stops x.type) : Stopped ((Piece.bare x).token :: ts) := by
  intro t ht
  obtain rfl := Option.some.inj ht
  exact hx

theorem stopped_closing : Stopped (closing inParens ts) := by
  cases inParens with
  | false => exact fun t ht => nomatch ht
  | true => exact stopped_cons (by unfold Stops; decide)

/-- The sign of `;` and `&`, with the operator it stands for. -/
def Separates (x : Sign) (op : ControlOp) : Prop :=
  (x = .semicolon ∧ op = .cmdSemicolon) ∨ (x = .ampersand ∧ op = .cmdBackground)

theorem Separates.stops {x : Sign} {op : ControlOp} (hx : Separates x op) : Stops x.type := by
  rcases hx with ⟨rfl, -⟩ | ⟨rfl, -⟩
  · exact Or.inl rfl
  · exact Or.inr (Or.inl rfl)

/-- `cmd_line_parse` looks behind a separator. -/
theorem Separates.connect {x : Sign} {op : ControlOp} (hx : Separates x op)
    (h : Ahead ps ((Piece.bare x).token :: ts)) :
    ∃ ps', Cmdparse.connect inParens head cmd ps =
      connectSeparator inParens head { cmd with controlop := op } ps' ∧ Ahead ps' ts := by
  obtain ⟨ps', hget, hrest, -⟩ := h.next
  refine ⟨ps', ?_, hrest⟩
  rcases hx with ⟨rfl, rfl⟩ | ⟨rfl, rfl⟩
  · simp only [Cmdparse.connect, hget, Piece.token, Sign.type]
  · simp only [Cmdparse.connect, hget, Piece.token, Sign.type]

/-- A separator behind the last command. -/
theorem Separates.last {x : Sign} {op : ControlOp} (hx : Separates x op)
    (hcmd : CmdReads cmdAlloc ps (some cmd) ps₁)
    (h : Ahead ps₁ ((Piece.bare x).token :: closing inParens ts)) :
    ∃ ps', LineReads inParens head ps (head ++ [{ cmd with controlop := op }]) ps' ∧
      (inParens = true → Ahead ps' ts) := by
  obtain ⟨ps₂, hconn, h₂⟩ := hx.connect h
  have hop : op = .cmdEnd ∨ op = .cmdSemicolon ∨ op = .cmdBackground :=
    Or.inr (hx.imp And.right And.right)
  obtain ⟨token, ps', hget, htype, hender, hrest⟩ := lineEnder_closing head
    (c := { cmd with controlop := op }) hop h₂
  refine ⟨ps', LineReads.finish hcmd (hconn.trans ?_), hrest⟩
  simp only [connectSeparator, hget, if_pos htype, hender]

theorem treeOk_last (c : Cmd) (e : Ender) (hc : CmdOk c) : TreeOk (.last c e) := by
  intro inParens head ps ts h
  rw [Tree.pieces, List.map_append, List.append_assoc] at h
  cases e with
  | nothing =>
    obtain ⟨ps₁, hread, h₁⟩ := hc ps _ h stopped_closing
    have hend : c.command.controlop = .cmdEnd := by cases c <;> rfl
    have hcmd : { c.command with controlop := Ender.controlop .nothing } = c.command := by
      cases c <;> rfl
    obtain ⟨token, ps', hget, htype, hender, hrest⟩ := lineEnder_closing head (Or.inl hend) h₁
    refine ⟨ps', LineReads.finish hread ?_, hrest⟩
    rw [Tree.commands, hcmd, ← hender]
    rcases htype with ht | ht <;> simp only [connect, hget, ht]
  | semicolon =>
    have hx : Separates .semicolon .cmdSemicolon := Or.inl ⟨rfl, rfl⟩
    obtain ⟨ps₁, hread, h₁⟩ := hc ps _ h (stopped_cons hx.stops)
    exact hx.last hread h₁
  | background =>
    have hx : Separates .ampersand .cmdBackground := Or.inr ⟨rfl, rfl⟩
    obtain ⟨ps₁, hread, h₁⟩ := hc ps _ h (stopped_cons hx.stops)
    exact hx.last hread h₁

/-- A tree starts with a word or an opening parenthesis. -/
def Opens (t : TokenType) : Prop := t = .tokNormal ∨ t = .tokOpenParen

theorem Cmd.pieces_cons (c : Cmd) : ∃ x ps, c.pieces = x :: ps ∧ Opens x.token.type := by
  cases c with
  | words ws hne hfits files =>
    obtain ⟨w, ws, rfl⟩ := List.exists_cons_of_ne_nil hne
    exact ⟨.quoted w, _, rfl, Or.inl rfl⟩
  | subshell t files => exact ⟨.bare .openParen, _, rfl, Or.inr rfl⟩

theorem Tree.pieces_cons (t : Tree) : ∃ x ps, t.pieces = x :: ps ∧ Opens x.token.type := by
  cases t with
  | last c e =>
    obtain ⟨x, ps, hx, hopens⟩ := c.pieces_cons
    exact ⟨x, ps ++ e.pieces, by rw [Tree.pieces, hx, List.cons_append], hopens⟩
  | join c j t =>
    obtain ⟨x, ps, hx, hopens⟩ := c.pieces_cons
    exact ⟨x, _, by rw [Tree.pieces, hx, List.cons_append], hopens⟩

/-- Behind a separator that is not the end the parser goes on with the next command. -/
theorem connectSeparator_again (head : List Command) (cmd : Command)
    (h : Ahead ps (t :: ts)) (ht : Opens t.type) :
    ∃ ps', connectSeparator inParens head cmd ps = .again cmd ps' ∧ Ahead ps' (t :: ts) := by
  obtain ⟨ps₁, hget, -, ps', hback, h'⟩ := h.next
  have hno : ¬ (t.type = .tokEnd ∨ t.type = .tokCloseParen) := by
    rcases ht with ht | ht <;> rw [ht] <;> decide
  exact ⟨ps', by simp only [connectSeparator, hget, if_neg hno, hback], h'⟩

/-- Any operator between two commands. -/
theorem connect_joiner (inParens : Bool) (head : List Command) (cmd : Command) (j : Joiner)
    (h : Ahead ps ((Piece.bare j.sign).token :: t :: ts)) (ht : Opens t.type) :
    ∃ ps', connect inParens head cmd ps = .again { cmd with controlop := j.controlop } ps' ∧
      Ahead ps' (t :: ts) := by
  have hsep : Separates j.sign j.controlop → ∃ ps', connect inParens head cmd ps =
      .again { cmd with controlop := j.controlop } ps' ∧ Ahead ps' (t :: ts) := by
    intro hx
    obtain ⟨ps₁, hconn, h₁⟩ := hx.connect h
    obtain ⟨ps', hagain, h'⟩ := connectSeparator_again head _ h₁ ht
    exact ⟨ps', hconn.trans hagain, h'⟩
  obtain ⟨ps', hget, hrest, -⟩ := h.next
  cases j with
  | semicolon => exact hsep (Or.inl ⟨rfl, rfl⟩)
  | background => exact hsep (Or.inr ⟨rfl, rfl⟩)
  | pipe => exact ⟨ps', by simp only [connect, hget]; rfl, hrest⟩
  | and => exact ⟨ps', by simp only [connect, hget]; rfl, hrest⟩
  | or => exact ⟨ps', by simp only [connect, hget]; rfl, hrest⟩

theorem Joiner.stops (j : Joiner) : Stops j.sign.type := by
  unfold Stops
  cases j <;> decide

theorem treeOk_join (c : Cmd) (j : Joiner) (t : Tree) (hc : CmdOk c) (ht : TreeOk t) :
    TreeOk (.join c j t) := by
  intro inParens head ps ts h
  rw [Tree.pieces, List.map_append, List.append_assoc, List.map_cons, List.cons_append] at h
  obtain ⟨ps₁, hread, h₁⟩ := hc ps _ h (stopped_cons j.stops)
  obtain ⟨x, xs, hxs, hopens⟩ := t.pieces_cons
  rw [hxs, List.map_cons, List.cons_append] at h₁
  obtain ⟨ps₂, hconn, h₂⟩ := connect_joiner inParens head c.command j h₁ hopens
  rw [← List.cons_append, ← List.map_cons, ← hxs] at h₂
  obtain ⟨ps', hline, hrest⟩ := ht inParens (head ++ [{ c.command with controlop := j.controlop }])
    ps₂ ts h₂
  rw [List.append_assoc] at hline
  exact ⟨ps', LineReads.again hread hconn hline, hrest⟩

mutual

theorem cmdOk (c : Cmd) : CmdOk c := by
  cases c with
  | words ws hne hfits files => exact cmdOk_words ws hne hfits files
  | subshell t files => exact cmdOk_subshell t files (treeOk t)

theorem treeOk (t : Tree) : TreeOk t := by
  cases t with
  | last c e => exact treeOk_last c e (cmdOk c)
  | join c j t => exact treeOk_join c j t (cmdOk c) (treeOk t)

end

/-- The parser returns the command list of every tree on the line of the tree. -/
theorem cmdLineParse_render (t : Tree) : Returns (render t) t.commands := by
  have h : Ahead (parseInit (render t)) (t.pieces.map Piece.token ++ closing false []) := by
    rw [Ahead, closing, if_neg Bool.false_ne_true, List.append_nil]
    exact tokens_joinPieces t.pieces (render t) (Or.inl rfl)
  obtain ⟨ps', ⟨fuel, hrun⟩, -⟩ := treeOk t false [] _ _ h
  exact ⟨fuel, ps', hrun⟩

end SystemsProjects.Cmdparse
