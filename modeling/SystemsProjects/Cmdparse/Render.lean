import SystemsProjects.Cmdparse.Parser

/-!
# Command trees and their text

A `Tree` is a list of commands as a user means it, and `render` writes it as a line: words and file
names in double quotes, everything else bare, single spaces between. The tokens of the line are
the pieces of the text.
-/

namespace SystemsProjects.Cmdparse

/-- A word or file name that fits a token and that double quotes keep as it is. -/
structure Word where
  chars : List UInt8
  short : chars.length ≤ tokensize - 1
  noQuote : 34 ∉ chars
  noBackquote : 96 ∉ chars
  noNul : 0 ∉ chars

/-- What joins two commands. -/
inductive Joiner where
  | semicolon
  | background
  | pipe
  | and
  | or
  deriving DecidableEq, Repr

/-- What follows the last command. -/
inductive Ender where
  | nothing
  | semicolon
  | background
  deriving DecidableEq, Repr

/-- The file names for `<`, `>` and `2>`. -/
abbrev Files := Fin 3 → Option Word

mutual

/-- A command: words, or a subshell. -/
inductive Cmd where
  | words (ws : List Word) (nonempty : ws ≠ []) (fits : ws.length ≤ maxtokens) (files : Files)
  | subshell (t : Tree) (files : Files)

/-- A list of commands. -/
inductive Tree where
  | last (c : Cmd) (e : Ender)
  | join (c : Cmd) (j : Joiner) (t : Tree)

end

/-! ## The command list that is meant -/

/-- `controlop` of a joined command. -/
def Joiner.controlop : Joiner → ControlOp
  | .semicolon => .cmdSemicolon
  | .background => .cmdBackground
  | .pipe => .cmdPipe
  | .and => .cmdAnd
  | .or => .cmdOr

/-- `controlop` of the last command. -/
def Ender.controlop : Ender → ControlOp
  | .nothing => .cmdEnd
  | .semicolon => .cmdSemicolon
  | .background => .cmdBackground

/-- The strings of `redirect_filename`. -/
def Files.names (files : Files) (fd : Fin 3) : Option (List UInt8) := (files fd).map Word.chars

mutual

/-- The command `cmd_parse` is to return. -/
def Cmd.command : Cmd → Command
  | .words ws _ _ files => ⟨ws.map Word.chars, Files.names files, [], .cmdEnd⟩
  | .subshell t files => ⟨[], Files.names files, t.commands, .cmdEnd⟩

/-- The list `cmd_line_parse` is to return. -/
def Tree.commands : Tree → List Command
  | .last c e => [{ c.command with controlop := e.controlop }]
  | .join c j t => { c.command with controlop := j.controlop } :: t.commands

end

/-! ## The text -/

/-- What is written bare. -/
inductive Sign where
  | lessThan
  | greaterThan
  | twoGreaterThan
  | semicolon
  | ampersand
  | pipe
  | doubleamp
  | doublepipe
  | openParen
  | closeParen
  deriving DecidableEq, Repr

/-- A piece of the text. -/
inductive Piece where
  | quoted (w : Word)
  | bare (s : Sign)

def Sign.text : Sign → List UInt8
  | .lessThan => [60]
  | .greaterThan => [62]
  | .twoGreaterThan => [50, 62]
  | .semicolon => [59]
  | .ampersand => [38]
  | .pipe => [124]
  | .doubleamp => [38, 38]
  | .doublepipe => [124, 124]
  | .openParen => [40]
  | .closeParen => [41]

def Piece.text : Piece → List UInt8
  | .quoted w => 34 :: w.chars ++ [34]
  | .bare s => s.text

def Joiner.sign : Joiner → Sign
  | .semicolon => .semicolon
  | .background => .ampersand
  | .pipe => .pipe
  | .and => .doubleamp
  | .or => .doublepipe

def Ender.pieces : Ender → List Piece
  | .nothing => []
  | .semicolon => [.bare .semicolon]
  | .background => [.bare .ampersand]

/-- The sign of the file descriptor `fd`. -/
def redirectSign (fd : Fin 3) : Sign :=
  if fd = 0 then .lessThan else if fd = 1 then .greaterThan else .twoGreaterThan

/-- One redirection, if there is a file name for it. -/
def Files.piece (files : Files) (fd : Fin 3) : List Piece :=
  match files fd with
  | none => []
  | some w => [.bare (redirectSign fd), .quoted w]

def Files.pieces (files : Files) : List Piece :=
  Files.piece files 0 ++ Files.piece files 1 ++ Files.piece files 2

mutual

def Cmd.pieces : Cmd → List Piece
  | .words ws _ _ files => ws.map .quoted ++ Files.pieces files
  | .subshell t files => .bare .openParen :: t.pieces ++ [.bare .closeParen] ++ Files.pieces files

def Tree.pieces : Tree → List Piece
  | .last c e => c.pieces ++ e.pieces
  | .join c j t => c.pieces ++ .bare j.sign :: t.pieces

end

/-- Pieces with single spaces between. -/
def joinPieces : List Piece → List UInt8
  | [] => []
  | [p] => p.text
  | p :: ps => p.text ++ 32 :: joinPieces ps

/-- The line of a tree. -/
def render (t : Tree) : List UInt8 := joinPieces t.pieces

/-! ## The tokens of the text -/

def Sign.type : Sign → TokenType
  | .lessThan => .tokLessThan
  | .greaterThan => .tokGreaterThan
  | .twoGreaterThan => .tok2GreaterThan
  | .semicolon => .tokSemicolon
  | .ampersand => .tokAmpersand
  | .pipe => .tokPipe
  | .doubleamp => .tokDoubleamp
  | .doublepipe => .tokDoublepipe
  | .openParen => .tokOpenParen
  | .closeParen => .tokCloseParen

def Piece.token : Piece → Token
  | .quoted w => ⟨.tokNormal, w.chars⟩
  | .bare s => ⟨s.type, s.text⟩

/-- The rest of a line behind a piece: nothing, or a space first. -/
def Cut (s : List UInt8) : Prop := s = [] ∨ ∃ s', s = 32 :: s'

/-- Between the quotes every character goes to the token. -/
theorem scanToken_quoted {s : List UInt8} (hs : Cut s) (w : List UInt8) :
    ∀ buffer, buffer.length + w.length ≤ tokensize - 1 → 34 ∉ w → 96 ∉ w →
      scanToken (w ++ 34 :: s) buffer 1 true = some ⟨s, buffer ++ w, 0, true⟩ := by
  induction w with
  | nil =>
    intro buffer _ _ _
    have hq : scanToken (34 :: s) buffer 1 true = scanToken s buffer 0 true := by
      simp only [scanToken]
      rfl
    rw [List.nil_append, hq, List.append_nil]
    rcases hs with rfl | ⟨s', rfl⟩
    · rfl
    · rfl
  | cons c w ih =>
    intro buffer hlen hquote hback
    rw [List.length_cons] at hlen
    obtain ⟨hc, hquote⟩ := not_or.mp (mt List.mem_cons.mpr hquote)
    obtain ⟨hb, hback⟩ := not_or.mp (mt List.mem_cons.mpr hback)
    have hroom : ¬ buffer.length ≥ tokensize - 1 := by omega
    have hstep : scanToken (c :: (w ++ 34 :: s)) buffer 1 true =
        scanToken (w ++ 34 :: s) (buffer ++ [c]) 1 true := by
      simp only [scanToken, Nat.one_ne_zero, false_and, if_false, if_neg (Ne.symm hc),
        if_neg (Ne.symm hb), if_neg hroom, and_false]
    rw [List.cons_append, hstep, ih (buffer ++ [c]) _ hquote hback, List.append_assoc]
    · rfl
    · rw [List.length_append, List.length_singleton]
      omega

/-- A sign in front of a space or the end of the line is a token. -/
theorem scanToken_sign {s : List UInt8} (hs : Cut s) (x : Sign) :
    scanToken (x.text ++ s) [] 0 false = some ⟨s, x.text, 0, false⟩ := by
  rcases hs with rfl | ⟨s', rfl⟩
  · cases x <;> rfl
  · cases x <;> rfl

theorem tokenType_sign (x : Sign) : tokenType false x.text = x.type := by
  cases x <;> decide

theorem Piece.token_proper (x : Piece) :
    x.token.type ≠ .tokEnd ∧ x.token.type ≠ .tokError := by
  cases x with
  | quoted w => exact ⟨TokenType.noConfusion, TokenType.noConfusion⟩
  | bare x => cases x <;> exact ⟨TokenType.noConfusion, TokenType.noConfusion⟩

/-- The loop of `parse_gettoken` reads one piece. -/
theorem scanToken_piece {s : List UInt8} (hs : Cut s) (x : Piece) :
    ∃ quotes, scanToken (x.text ++ s) [] 0 false = some ⟨s, x.token.buffer, 0, quotes⟩ ∧
      tokenType quotes x.token.buffer = x.token.type := by
  cases x with
  | quoted w =>
    refine ⟨true, ?_, rfl⟩
    have hopen : scanToken ((Piece.quoted w).text ++ s) [] 0 false =
        scanToken (w.chars ++ 34 :: s) [] 1 true := by
      rw [Piece.text, List.cons_append, List.cons_append, List.append_assoc]
      rfl
    rw [hopen]
    apply scanToken_quoted hs w.chars [] _ w.noQuote w.noBackquote
    rw [List.length_nil, Nat.zero_add]
    exact w.short
  | bare x => exact ⟨false, scanToken_sign hs x, tokenType_sign x⟩

/-- A piece starts with a character that is not skipped. -/
theorem Piece.text_cons (x : Piece) : ∃ c t, x.text = c :: t ∧ isspace c = false := by
  cases x with
  | quoted w => exact ⟨34, w.chars ++ [34], rfl, by decide⟩
  | bare x => cases x <;> exact ⟨_, _, rfl, by decide⟩

/-- `parse_gettoken` reads a piece, also behind a space. -/
theorem parseGettoken_piece {s p : List UInt8} (hs : Cut s) (x : Piece)
    (hp : p = x.text ++ s ∨ p = 32 :: (x.text ++ s)) (last : Option (List UInt8)) :
    parseGettoken ⟨p, last⟩ = (x.token, ⟨s, some p⟩) := by
  obtain ⟨c, t, htext, hc⟩ := x.text_cons
  have hskip : p.dropWhile isspace = x.text ++ s := by
    have hstay : (x.text ++ s).dropWhile isspace = x.text ++ s := by
      rw [htext, List.cons_append,
        List.dropWhile_cons_of_neg (by rw [hc]; exact Bool.false_ne_true)]
    rcases hp with rfl | rfl
    · exact hstay
    · rw [List.dropWhile_cons_of_pos (by decide), hstay]
  obtain ⟨quotes, hscan, htype⟩ := scanToken_piece hs x
  rw [htext, List.cons_append] at hskip hscan
  simp only [parseGettoken, hskip, hscan, ne_eq, not_true_eq_false, if_false, htype]

/-- The tokens of the text are its pieces. -/
theorem tokens_joinPieces (ps : List Piece) :
    ∀ p, (p = joinPieces ps ∨ p = 32 :: joinPieces ps) →
      tokens p = (ps.map Piece.token, .tokEnd) := by
  induction ps with
  | nil =>
    intro p hp
    rcases hp with rfl | rfl
    · decide
    · decide
  | cons x ps ih =>
    intro p hp
    -- what is left behind the first piece
    obtain ⟨s, hs, hcut, hrest⟩ : ∃ s, joinPieces (x :: ps) = x.text ++ s ∧ Cut s ∧
        tokens s = (ps.map Piece.token, .tokEnd) := by
      cases ps with
      | nil => exact ⟨[], (List.append_nil _).symm, Or.inl rfl, ih [] (Or.inl rfl)⟩
      | cons y ps => exact ⟨32 :: joinPieces (y :: ps), rfl, Or.inr ⟨_, rfl⟩, ih _ (Or.inr rfl)⟩
    rw [hs] at hp
    rw [tokens_of_parseGettoken (parseGettoken_piece hcut x hp none) x.token_proper, hrest]
    rfl

end SystemsProjects.Cmdparse
