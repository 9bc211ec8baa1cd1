import SystemsProjects.Cmdparse.Levels

/-!
# Reading a line from left to right

An automaton over the types of the tokens of a line, with one level for each parenthesis that is
open. It takes one token at a time and looks neither ahead nor back. When the command of the top
level refuses a token, the level is given up and the command around it goes on without a subshell,
since `cmd_parse` does not test the result of `cmd_line_parse` (`cmdparse.c:339-341`).
-/

namespace SystemsProjects.Cmdparse

open SystemsProjects.Lib

/-! ## The automaton -/

/-- What the automaton expects: more of a command, the file name of a redirection, or, behind `;`
or `&`, a command or the end. -/
inductive Mode where
  | command
  | file
  | separator
  deriving DecidableEq, Repr

/-- The level of the innermost open parenthesis, the levels around it, and the mode. -/
structure Reader where
  top : Level
  outer : List Level
  mode : Mode
  deriving DecidableEq, Repr

/-- A command that cannot go on with the token: a word behind a subshell or too many words, or
anything but a word or a parenthesis at the start. -/
def Level.refuses (f : Level) : TokenType → Bool
  | .tokNormal => f.words ≥ maxtokens || f.sub
  | .tokOpenParen => false
  | _ => f.isEmpty

def Reader.refuses (s : Reader) (t : TokenType) : Bool :=
  match s.mode with
  | .command => s.top.refuses t
  | .file => t != .tokNormal
  | .separator => t != .tokCloseParen && s.top.refuses t

/-- A command without its subshell. -/
def Level.drop (f : Level) : Level := { f with sub := false }

/-- A token that is not refused. -/
def Reader.take (s : Reader) (t : TokenType) : Option Reader :=
  if s.mode = .file then some { s with mode := .command }
  else
    match t with
    | .tokNormal => some ⟨{ s.top with words := s.top.words + 1 }, s.outer, .command⟩
    | .tokLessThan | .tokGreaterThan | .tok2GreaterThan => some { s with mode := .file }
    | .tokOpenParen => some ⟨.blank, s.top :: s.outer, .command⟩
    | .tokCloseParen =>
      match s.outer with
      | [] => none
      | g :: outer => some ⟨{ g with sub := true }, outer, .command⟩
    | .tokSemicolon | .tokAmpersand => some ⟨.blank, s.outer, .separator⟩
    | _ => some ⟨.blank, s.outer, .command⟩

/-- A refused token that is not read again: what stands for a file name, a word, a redirection. -/
def skips (mode : Mode) (t : TokenType) : Bool :=
  mode == .file || t == .tokNormal || t == .tokLessThan || t == .tokGreaterThan ||
    t == .tok2GreaterThan

/-- One token; `none` when the outermost level refuses it. -/
def feedLevels : List Level → Level → Mode → TokenType → Option Reader
  | [], top, mode, t =>
    if Reader.refuses ⟨top, [], mode⟩ t then none else Reader.take ⟨top, [], mode⟩ t
  | g :: outer, top, mode, t =>
    if Reader.refuses ⟨top, g :: outer, mode⟩ t then
      if skips mode t then some ⟨g.drop, outer, .command⟩
      else feedLevels outer g.drop .command t
    else Reader.take ⟨top, g :: outer, mode⟩ t

def Reader.feed (s : Reader) (t : TokenType) : Option Reader := feedLevels s.outer s.top s.mode t

/-- The automaton before the first token. -/
def Reader.init : Reader := ⟨.blank, [], .command⟩

/-- The automaton after the tokens `ts`. -/
def scan (ts : List TokenType) : Option Reader := ts.foldlM Reader.feed .init

/-- The end of the line is a proper end. Levels that are still open are given up. -/
def Reader.finish (s : Reader) : Bool :=
  match s.outer.getLast? with
  | none => s.mode == .separator || (s.mode == .command && !s.top.isEmpty)
  | some g => g.words != 0

variable {e : Option TokenType} {f : Level} {outer : List Level} {mode : Mode} {t : TokenType}
  {rest : List TokenType}

/-- A level that refuses a token gives the line up if it is the outermost one. Otherwise the level
around it goes on, with the next token or with the same one. -/
theorem feed_refused (href : Reader.refuses ⟨f, outer, mode⟩ t = true) (tail : List TokenType) :
    (∃ ok, Stack.resume outer false tail = .inr ok ∧ ok = false ∧
      Reader.feed ⟨f, outer, mode⟩ t = none) ∨
    ∃ a, Stack.resume outer false tail = .inl a ∧ a.rest = tail ∧
      a.outer.length < outer.length ∧
      Reader.feed ⟨f, outer, mode⟩ t =
        if skips mode t then some ⟨a.top, a.outer, .command⟩
        else Reader.feed ⟨a.top, a.outer, .command⟩ t := by
  cases outer with
  | nil => exact Or.inl ⟨false, rfl, rfl, by simp [Reader.feed, feedLevels, href]⟩
  | cons g outer =>
    refine Or.inr ⟨_, rfl, rfl, by simp, ?_⟩
    simp only [Reader.feed, feedLevels, href, if_true]
    rfl

/-- A level that refuses a token and skips it. -/
theorem feed_skip (href : Reader.refuses ⟨f, outer, mode⟩ t = true) (hskip : skips mode t = true)
    (tail : List TokenType) :
    (∃ ok, Stack.resume outer false tail = .inr ok ∧ ok = false ∧
      Reader.feed ⟨f, outer, mode⟩ t = none) ∨
    ∃ a, Stack.resume outer false tail = .inl a ∧ a.rest = tail ∧
      a.outer.length < outer.length ∧
      Reader.feed ⟨f, outer, mode⟩ t = some ⟨a.top, a.outer, .command⟩ := by
  refine (feed_refused href tail).imp_right ?_
  rintro ⟨a, hresume, hrest, hlt, hfeed⟩
  exact ⟨a, hresume, hrest, hlt, hfeed.trans (if_pos hskip)⟩

/-- A level that refuses a token and leaves it to the level around it. -/
theorem feed_back (href : Reader.refuses ⟨f, outer, mode⟩ t = true) (hskip : skips mode t = false)
    (tail : List TokenType) :
    (∃ ok, Stack.resume outer false tail = .inr ok ∧ ok = false ∧
      Reader.feed ⟨f, outer, mode⟩ t = none) ∨
    ∃ a, Stack.resume outer false tail = .inl a ∧ a.rest = tail ∧
      a.outer.length < outer.length ∧
      Reader.feed ⟨f, outer, mode⟩ t = Reader.feed ⟨a.top, a.outer, .command⟩ t := by
  refine (feed_refused href tail).imp_right ?_
  rintro ⟨a, hresume, hrest, hlt, hfeed⟩
  exact ⟨a, hresume, hrest, hlt, hfeed.trans (if_neg (by simp [hskip]))⟩

theorem feed_take (href : Reader.refuses ⟨f, outer, mode⟩ t = false) :
    Reader.feed ⟨f, outer, mode⟩ t = Reader.take ⟨f, outer, mode⟩ t := by
  cases outer <;> simp [Reader.feed, feedLevels, href]

/-! ## The machine follows the automaton -/

/-- The automaton in the state of the machine. -/
def Stack.reader (a : Stack) : Reader := ⟨a.top, a.outer, .command⟩

/-- The steps that are left: a token opens a level at most. -/
def Stack.size (a : Stack) : Nat := 2 * a.rest.length + a.outer.length

/-- One step of the machine on the tokens `r` (and `tail` behind them, which it does not touch):
it rejects where the automaton does, or the automaton goes on in the same way from the new
state. -/
def Follows (e : Option TokenType) (a : Stack) (r tail : List TokenType) : Prop :=
  (a.step e = .inr false ∧ r.foldlM Reader.feed a.reader = none) ∨
  ∃ a' r', a.step e = .inl a' ∧ a'.rest = r' ++ tail ∧ r' <:+ r ∧ a'.size < a.size ∧
    r'.foldlM Reader.feed a'.reader = r.foldlM Reader.feed a.reader

variable {a : Stack} {r tail : List TokenType}

theorem follows_again (f' : Level) (outer' : List Level) (r' : List TokenType)
    (hrest : a.rest = r ++ tail)
    (hstep : a.step e = .inl ⟨f', outer', r' ++ tail⟩) (hsuf : r' <:+ r)
    (hsize : 2 * r'.length + outer'.length < 2 * r.length + a.outer.length)
    (hfold : r'.foldlM Reader.feed ⟨f', outer', .command⟩ = r.foldlM Reader.feed a.reader) :
    Follows e a r tail := by
  refine Or.inr ⟨_, r', hstep, rfl, hsuf, ?_, hfold⟩
  simp only [Stack.size, hrest, List.length_append]
  omega

/-- The level ends and the token that ended it is skipped. -/
theorem follows_skip (f : Level) (mode : Mode) (t : TokenType) (r' : List TokenType)
    (hrest : a.rest = r ++ tail)
    (hstep : a.step e = Stack.resume a.outer false (r' ++ tail)) (hsuf : r' <:+ r)
    (href : Reader.refuses ⟨f, a.outer, mode⟩ t = true) (hskip : skips mode t = true)
    (hfold : r.foldlM Reader.feed a.reader =
      (Reader.feed ⟨f, a.outer, mode⟩ t).bind (r'.foldlM Reader.feed)) : Follows e a r tail := by
  rcases feed_skip href hskip (r' ++ tail) with ⟨ok, hres, rfl, hfeed⟩ | ⟨a', hres, ha', hlt, hfeed⟩
  · exact Or.inl ⟨hstep.trans hres, by rw [hfold, hfeed]; rfl⟩
  · refine Or.inr ⟨a', r', hstep.trans hres, ha', hsuf, ?_, by rw [hfold, hfeed]; rfl⟩
    have := hsuf.length_le
    simp only [Stack.size, hrest, ha', List.length_append]
    omega

/-- The level ends and the token that ended it is read again. -/
theorem follows_back (hrest : a.rest = t :: r ++ tail)
    (hstep : a.step e = Stack.resume a.outer false (t :: r ++ tail))
    (href : a.top.refuses t = true) (hskip : skips .command t = false) :
    Follows e a (t :: r) tail := by
  have href' : Reader.refuses ⟨a.top, a.outer, .command⟩ t = true := href
  rcases feed_back href' hskip (t :: r ++ tail) with ⟨ok, hres, rfl, hfeed⟩ |
      ⟨a', hres, ha', hlt, hfeed⟩
  · refine Or.inl ⟨hstep.trans hres, ?_⟩
    rw [List.foldlM_cons, Stack.reader, hfeed]
    rfl
  · refine Or.inr ⟨a', t :: r, hstep.trans hres, ha', List.suffix_rfl, ?_, ?_⟩
    · simp only [Stack.size, hrest, ha']
      omega
    · rw [List.foldlM_cons, List.foldlM_cons, Stack.reader, Stack.reader, hfeed]

/-- The level ends with a closing parenthesis. -/
theorem follows_close (f : Level) (mode : Mode) (r' : List TokenType) (hmode : mode ≠ .file)
    (hrest : a.rest = r ++ tail)
    (hstep : a.step e = Stack.resume a.outer (!a.outer.isEmpty) (r' ++ tail)) (hsuf : r' <:+ r)
    (hfold : r.foldlM Reader.feed a.reader =
      (Reader.take ⟨f, a.outer, mode⟩ .tokCloseParen).bind (r'.foldlM Reader.feed)) :
    Follows e a r tail := by
  obtain ⟨top, outer, rest⟩ := a
  cases outer with
  | nil =>
    refine Or.inl ⟨hstep, ?_⟩
    rw [hfold]
    simp [Reader.take, hmode]
  | cons g outer =>
    have hlen := hsuf.length_le
    refine follows_again { g with sub := true } outer r' hrest hstep hsuf ?_ ?_
    · simp only [List.length_cons]
      omega
    · rw [hfold]
      simp [Reader.take, hmode]

/-- Behind `;` and `&`, only a closing parenthesis makes a difference. -/
theorem feed_separator (h : t ≠ .tokCloseParen) (f : Level) (outer : List Level) :
    Reader.feed ⟨f, outer, .separator⟩ t = Reader.feed ⟨f, outer, .command⟩ t := by
  have href : ∀ outer, Reader.refuses ⟨f, outer, .separator⟩ t =
      Reader.refuses ⟨f, outer, .command⟩ t := by
    intro outer
    simp [Reader.refuses, h]
  have htake : ∀ outer, Reader.take ⟨f, outer, .separator⟩ t =
      Reader.take ⟨f, outer, .command⟩ t := by
    intro outer
    cases t <;> simp [Reader.take] at h ⊢
  have hskip : skips .separator t = skips .command t := rfl
  cases outer <;> simp only [Reader.feed, feedLevels, href, htake, hskip]

/-- The tokens after which the parser looks at another one. -/
def looksAhead : TokenType → Bool
  | .tokLessThan | .tokGreaterThan | .tok2GreaterThan | .tokSemicolon | .tokAmpersand => true
  | _ => false

section cases
variable (e f outer r tail)

theorem normal_follows :
    Follows e ⟨f, outer, .tokNormal :: r ++ tail⟩ (.tokNormal :: r) tail := by
  by_cases hfull : f.words ≥ maxtokens ∨ f.sub = true
  · refine follows_skip f .command .tokNormal r rfl ?_
      (List.suffix_cons _ _) ?_ rfl (List.foldlM_cons ..)
    · simp [Stack.step, Effect.after, move, hfull]
    · simpa [Reader.refuses, Level.refuses] using hfull
  · refine follows_again { f with words := f.words + 1 } outer r rfl ?_
      (List.suffix_cons _ _) (by simp) ?_
    · simp [Stack.step, Effect.after, move, hfull]
    · have href : Reader.refuses ⟨f, outer, .command⟩ .tokNormal = false := by
        simpa [Reader.refuses, Level.refuses] using hfull
      simp only [List.foldlM_cons, Stack.reader, feed_take href]
      rfl

theorem redirect_follows
    (ht : t = .tokLessThan ∨ t = .tokGreaterThan ∨ t = .tok2GreaterThan)
    (hlook : f.isEmpty = false → r ≠ []) : Follows e ⟨f, outer, t :: r ++ tail⟩ (t :: r) tail := by
  have hmove : ∀ nested r, move e nested f (t :: r) = redirectMove f r := by
    rcases ht with rfl | rfl | rfl <;> exact fun _ _ => rfl
  have hskip : skips .command t = true := by rcases ht with rfl | rfl | rfl <;> rfl
  have href : Reader.refuses ⟨f, outer, .command⟩ t = f.isEmpty := by
    rcases ht with rfl | rfl | rfl <;> rfl
  have htake : Reader.take ⟨f, outer, .command⟩ t = some ⟨f, outer, .file⟩ := by
    rcases ht with rfl | rfl | rfl <;> rfl
  cases hempty : f.isEmpty with
  | true =>
    refine follows_skip f .command t r rfl ?_
      (List.suffix_cons _ _) (href.trans hempty) hskip (List.foldlM_cons ..)
    simp [Stack.step, Effect.after, hmove, redirectMove, hempty]
  | false =>
    obtain ⟨t', r, rfl⟩ := List.exists_cons_of_ne_nil (hlook hempty)
    have hfold : (t :: t' :: r).foldlM Reader.feed ⟨f, outer, .command⟩ =
        (Reader.feed ⟨f, outer, .file⟩ t').bind (r.foldlM Reader.feed) := by
      simp only [List.foldlM_cons, feed_take (href.trans hempty), htake]
      rfl
    have hsuf : r <:+ t :: t' :: r := (List.suffix_cons _ _).trans (List.suffix_cons _ _)
    by_cases hnormal : t' = .tokNormal
    · refine follows_again f outer r rfl ?_ hsuf ?_ ?_
      · simp [Stack.step, Effect.after, hmove, redirectMove, hempty, hnormal]
      · simp only [List.length_cons]
        omega
      · have hfile : Reader.refuses ⟨f, outer, .file⟩ t' = false := by
          simp [Reader.refuses, hnormal]
        rw [Stack.reader, hfold, feed_take hfile]
        rfl
    · refine follows_skip f .file t' r rfl ?_ hsuf ?_ rfl hfold
      · simp [Stack.step, Effect.after, hmove, redirectMove, hempty, hnormal]
      · simpa [Reader.refuses] using hnormal

theorem open_follows :
    Follows e ⟨f, outer, .tokOpenParen :: r ++ tail⟩ (.tokOpenParen :: r) tail := by
  refine follows_again .blank (f :: outer) r rfl rfl (List.suffix_cons _ _) ?_ ?_
  · simp only [List.length_cons]
    omega
  · have href : Reader.refuses ⟨f, outer, .command⟩ .tokOpenParen = false := rfl
    simp only [List.foldlM_cons, Stack.reader, feed_take href]
    rfl

theorem operator_follows
    (ht : t = .tokDoubleamp ∨ t = .tokDoublepipe ∨ t = .tokPipe) :
    Follows e ⟨f, outer, t :: r ++ tail⟩ (t :: r) tail := by
  have hmove : ∀ nested r, move e nested f (t :: r) =
      if f.isEmpty then .ret false (t :: r) else .again .blank r := by
    rcases ht with rfl | rfl | rfl <;> exact fun _ _ => rfl
  have hskip : skips .command t = false := by rcases ht with rfl | rfl | rfl <;> rfl
  have href : f.refuses t = f.isEmpty := by rcases ht with rfl | rfl | rfl <;> rfl
  have htake : Reader.take ⟨f, outer, .command⟩ t = some ⟨.blank, outer, .command⟩ := by
    rcases ht with rfl | rfl | rfl <;> rfl
  cases hempty : f.isEmpty with
  | true =>
    refine follows_back rfl ?_ (href.trans hempty) hskip
    simp [Stack.step, Effect.after, hmove, hempty]
  | false =>
    refine follows_again .blank outer r rfl ?_ (List.suffix_cons _ _) (by simp) ?_
    · simp [Stack.step, Effect.after, hmove, hempty]
    · have href' : Reader.refuses ⟨f, outer, .command⟩ t = false := href.trans hempty
      simp only [List.foldlM_cons, Stack.reader, feed_take href', htake]
      rfl

theorem close_follows :
    Follows e ⟨f, outer, .tokCloseParen :: r ++ tail⟩ (.tokCloseParen :: r) tail := by
  cases hempty : f.isEmpty with
  | true =>
    refine follows_back rfl ?_ hempty rfl
    simp [Stack.step, Effect.after, move, hempty]
  | false =>
    refine follows_close f .command r (by simp) rfl ?_ (List.suffix_cons _ _) ?_
    · simp [Stack.step, Effect.after, move, hempty, connectMove]
    · have href : Reader.refuses ⟨f, outer, .command⟩ .tokCloseParen = false := hempty
      simp only [List.foldlM_cons, Stack.reader, feed_take href]
      rfl

theorem separator_follows (ht : t = .tokSemicolon ∨ t = .tokAmpersand)
    (hlook : f.isEmpty = false → r ≠ []) : Follows e ⟨f, outer, t :: r ++ tail⟩ (t :: r) tail := by
  have hmove : ∀ nested r, move e nested f (t :: r) =
      if f.isEmpty then .ret false (t :: r) else separatorMove e nested t r := by
    rcases ht with rfl | rfl <;> exact fun _ _ => rfl
  have hskip : skips .command t = false := by rcases ht with rfl | rfl <;> rfl
  have href : f.refuses t = f.isEmpty := by rcases ht with rfl | rfl <;> rfl
  have htake : Reader.take ⟨f, outer, .command⟩ t = some ⟨.blank, outer, .separator⟩ := by
    rcases ht with rfl | rfl <;> rfl
  cases hempty : f.isEmpty with
  | true =>
    refine follows_back rfl ?_ (href.trans hempty) hskip
    simp [Stack.step, Effect.after, hmove, hempty]
  | false =>
    obtain ⟨t', r, rfl⟩ := List.exists_cons_of_ne_nil (hlook hempty)
    have href' : Reader.refuses ⟨f, outer, .command⟩ t = false := href.trans hempty
    have hfold : (t :: t' :: r).foldlM Reader.feed ⟨f, outer, .command⟩ =
        (Reader.feed ⟨.blank, outer, .separator⟩ t').bind (r.foldlM Reader.feed) := by
      simp only [List.foldlM_cons, feed_take href', htake]
      rfl
    by_cases hclose : t' = .tokCloseParen
    · subst hclose
      refine follows_close .blank .separator r (by simp) rfl ?_
        ((List.suffix_cons _ _).trans (List.suffix_cons _ _)) ?_
      · simp [Stack.step, Effect.after, hmove, hempty, separatorMove]
      · have hsep : Reader.refuses ⟨.blank, outer, .separator⟩ .tokCloseParen = false := rfl
        rw [Stack.reader, hfold, feed_take hsep]
    · refine follows_again .blank outer (t' :: r) rfl ?_ (List.suffix_cons _ _) (by simp) ?_
      · simp [Stack.step, Effect.after, hmove, hempty, separatorMove, hclose]
      · rw [Stack.reader, hfold, feed_separator hclose]
        rfl

/-- Every step on a token follows the automaton, unless it looks beyond the tokens in `r`. -/
theorem step_follows (hend : t ≠ .tokEnd) (herror : t ≠ .tokError)
    (hlook : looksAhead t = true → f.isEmpty = false → r ≠ []) :
    Follows e ⟨f, outer, t :: r ++ tail⟩ (t :: r) tail := by
  cases t with
  | tokEnd => exact absurd rfl hend
  | tokError => exact absurd rfl herror
  | tokNormal => exact normal_follows ..
  | tokLessThan => exact redirect_follows _ _ _ _ _ (Or.inl rfl) (hlook rfl)
  | tokGreaterThan => exact redirect_follows _ _ _ _ _ (Or.inr (Or.inl rfl)) (hlook rfl)
  | tok2GreaterThan => exact redirect_follows _ _ _ _ _ (Or.inr (Or.inr rfl)) (hlook rfl)
  | tokSemicolon => exact separator_follows _ _ _ _ _ (Or.inl rfl) (hlook rfl)
  | tokAmpersand => exact separator_follows _ _ _ _ _ (Or.inr rfl) (hlook rfl)
  | tokPipe => exact operator_follows _ _ _ _ _ (Or.inr (Or.inr rfl))
  | tokDoubleamp => exact operator_follows _ _ _ _ _ (Or.inl rfl)
  | tokDoublepipe => exact operator_follows _ _ _ _ _ (Or.inr (Or.inl rfl))
  | tokOpenParen => exact open_follows ..
  | tokCloseParen => exact close_follows ..

/-- A token that looks ahead is a redirection or a separator. -/
theorem looksAhead_cases (hlook : looksAhead t = true) (hempty : f.isEmpty = false) :
    ((∀ e nested r, move e nested f (t :: r) = redirectMove f r) ∧
      Reader.feed ⟨f, outer, .command⟩ t = some ⟨f, outer, .file⟩) ∨
    ((∀ e nested r, move e nested f (t :: r) = separatorMove e nested t r) ∧
      Reader.feed ⟨f, outer, .command⟩ t = some ⟨.blank, outer, .separator⟩) := by
  cases t with
  | tokLessThan | tokGreaterThan | tok2GreaterThan =>
    exact Or.inl ⟨fun _ _ _ => rfl, feed_take hempty⟩
  | tokSemicolon | tokAmpersand =>
    refine Or.inr ⟨fun _ _ _ => ?_, feed_take hempty⟩
    simp only [move, hempty]
    rfl
  | tokEnd | tokError | tokNormal | tokPipe | tokDoubleamp | tokDoublepipe | tokOpenParen
  | tokCloseParen => exact absurd hlook (by simp [looksAhead])

end cases

end SystemsProjects.Cmdparse
