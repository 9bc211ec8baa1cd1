import Mathlib.Data.List.Induction
import SystemsProjects.Cmdparse.Termination

/-!
# The grammar of command lines

The grammar that the comments of `cmdparse.c` describe (lines 263-268, 298-306 and 391-395), over
token types, and the lines on which the parser keeps to it. The parser returns a list of commands
for a line outside the grammar exactly when the line has no error and is misread: the automaton
accepts it although an opening parenthesis stands behind a word or a subshell of its command, or a
level was given up.
-/

namespace SystemsProjects.Cmdparse

open SystemsProjects.Lib

/-! ## The grammar -/

/-- `<`, `>` and `2>`. -/
def TokenType.isRedirect : TokenType → Bool
  | .tokLessThan | .tokGreaterThan | .tok2GreaterThan => true
  | _ => false

/-- `;` and `&`, which may end a line. -/
def TokenType.isSeparator : TokenType → Bool
  | .tokSemicolon | .tokAmpersand => true
  | _ => false

/-- The operators between two commands. -/
def TokenType.isOperator : TokenType → Bool
  | .tokSemicolon | .tokAmpersand | .tokPipe | .tokDoubleamp | .tokDoublepipe => true
  | _ => false

/-- `n` words and any number of redirections, in any order. -/
inductive Items : Nat → List TokenType → Prop
  | nil : Items 0 []
  | word {n : Nat} {ts : List TokenType} : Items n ts → Items (n + 1) (.tokNormal :: ts)
  | redirect {n : Nat} {t : TokenType} {ts : List TokenType} : t.isRedirect = true → Items n ts →
      Items n (t :: .tokNormal :: ts)

mutual

/-- A command: up to `MAXTOKENS` words and redirections, a word first, or one line in parentheses
with redirections behind it. -/
inductive IsCmd : List TokenType → Prop
  | words {n : Nat} {ts : List TokenType} : Items n ts → n + 1 ≤ maxtokens →
      IsCmd (.tokNormal :: ts)
  | paren {l rs : List TokenType} : IsLine l → Items 0 rs →
      IsCmd (.tokOpenParen :: (l ++ .tokCloseParen :: rs))

/-- A line: commands with operators between them, and `;` or `&` at the end if wanted. -/
inductive IsLine : List TokenType → Prop
  | single {c : List TokenType} : IsCmd c → IsLine c
  | trailing {c : List TokenType} {t : TokenType} : IsCmd c → t.isSeparator = true →
      IsLine (c ++ [t])
  | join {c l : List TokenType} {t : TokenType} : IsCmd c → t.isOperator = true → IsLine l →
      IsLine (c ++ t :: l)

end

/-! ## The automaton without stray parentheses -/

/-- The command cannot take the token, or the token is a parenthesis behind a word or a subshell
of the same command. -/
def Reader.strays (s : Reader) (t : TokenType) : Bool :=
  s.refuses t || (t == .tokOpenParen && !s.top.isEmpty)

/-- The automaton that stops at such a token. -/
def Reader.feedStrict (s : Reader) (t : TokenType) : Option Reader :=
  if s.strays t then none else s.feed t

/-- Between the commands of a line, or at its end. -/
def Reader.Complete (s : Reader) : Prop :=
  s.mode = .separator ∨ (s.mode = .command ∧ s.top.isEmpty = false)

variable {s s' : Reader} {t : TokenType} {ts : List TokenType} {f : Level} {outer : List Level}

theorem feedStrict_of_not_strays (h : s.strays t = false) : s.feedStrict t = s.take t := by
  obtain ⟨f, outer, mode⟩ := s
  have href : Reader.refuses ⟨f, outer, mode⟩ t = false := by
    simp only [Reader.strays, Bool.or_eq_false_iff] at h
    exact h.1
  simp only [Reader.feedStrict, h, feed_take href]
  rfl

theorem feedStrict_eq_some (h : s.feedStrict t = some s') :
    s.strays t = false ∧ s.take t = some s' ∧ s.feed t = some s' := by
  cases hstray : s.strays t with
  | true => simp [Reader.feedStrict, hstray] at h
  | false =>
    refine ⟨rfl, ?_, ?_⟩
    · rw [← feedStrict_of_not_strays hstray, h]
    · simpa [Reader.feedStrict, hstray] using h

/-! ## Lines of the grammar -/

theorem items_strict {n : Nat} (h : Items n ts) (outer : List Level)
    (hwords : f.words + n ≤ maxtokens) (hsub : f.sub = false ∨ n = 0) (hempty : f.isEmpty = false) :
    ts.foldlM Reader.feedStrict ⟨f, outer, .command⟩ =
      some ⟨{ f with words := f.words + n }, outer, .command⟩ := by
  induction h generalizing f with
  | nil => rfl
  | @word n ts _ ih =>
    have hsub' : f.sub = false := hsub.resolve_right (by simp)
    have hstray : Reader.strays ⟨f, outer, .command⟩ .tokNormal = false := by
      simp [Reader.strays, Reader.refuses, Level.refuses, hsub']
      omega
    have hempty' : Level.isEmpty { f with words := f.words + 1 } = false := by
      simp [Level.isEmpty]
    rw [List.foldlM_cons, feedStrict_of_not_strays hstray]
    refine (ih (f := { f with words := f.words + 1 }) (by dsimp only; omega) (Or.inl hsub')
      hempty').trans ?_
    simp only [Nat.add_comm n 1, Nat.add_assoc]
  | @redirect n t ts ht _ ih =>
    have hstray : Reader.strays ⟨f, outer, .command⟩ t = false := by
      cases t <;> simp [Reader.strays, Reader.refuses, Level.refuses, hempty,
        TokenType.isRedirect] at ht ⊢
    have htake : Reader.take ⟨f, outer, .command⟩ t = some ⟨f, outer, .file⟩ := by
      cases t <;> simp [Reader.take, TokenType.isRedirect] at ht ⊢
    have hfile : Reader.strays ⟨f, outer, .file⟩ .tokNormal = false := rfl
    rw [List.foldlM_cons, feedStrict_of_not_strays hstray, htake]
    refine Eq.trans ?_ (ih hwords hsub hempty)
    simp only [Option.bind_eq_bind, Option.bind_some, List.foldlM_cons,
      feedStrict_of_not_strays hfile]
    rfl

theorem separator_operator (ht : t.isSeparator = true) : t.isOperator = true := by
  cases t <;> simp [TokenType.isSeparator, TokenType.isOperator] at ht ⊢

/-- An operator behind a complete command. -/
theorem operator_strict (outer : List Level) (ht : t.isOperator = true)
    (hempty : f.isEmpty = false) :
    ∃ mode, mode ≠ .file ∧ (t.isSeparator = true → mode = .separator) ∧
      Reader.feedStrict ⟨f, outer, .command⟩ t = some ⟨.blank, outer, mode⟩ := by
  have hstray : Reader.strays ⟨f, outer, .command⟩ t = false := by
    cases t <;> simp [Reader.strays, Reader.refuses, Level.refuses, hempty,
      TokenType.isOperator] at ht ⊢
  rw [feedStrict_of_not_strays hstray]
  cases t with
  | tokSemicolon | tokAmpersand => exact ⟨.separator, by simp, fun _ => rfl, rfl⟩
  | tokPipe | tokDoubleamp | tokDoublepipe =>
    exact ⟨.command, by simp, fun h => absurd h (by simp [TokenType.isSeparator]), rfl⟩
  | tokEnd | tokError | tokNormal | tokLessThan | tokGreaterThan | tok2GreaterThan | tokOpenParen
  | tokCloseParen => exact absurd ht (by simp [TokenType.isOperator])

/-- A closing parenthesis behind a complete line. -/
theorem close_strict {g : Level} (hs : s.outer = g :: outer) (hc : s.Complete) :
    s.feedStrict .tokCloseParen = some ⟨{ g with sub := true }, outer, .command⟩ := by
  obtain ⟨f, o, mode⟩ := s
  obtain rfl : o = g :: outer := hs
  have hstray : Reader.strays ⟨f, g :: outer, mode⟩ .tokCloseParen = false := by
    rcases hc with hm | ⟨hm, hempty⟩
    · obtain rfl : mode = .separator := hm
      rfl
    · obtain rfl : mode = .command := hm
      simpa [Reader.strays, Reader.refuses, Level.refuses] using hempty
  have hmode : mode ≠ .file := by
    rcases hc with hm | ⟨hm, -⟩
    · obtain rfl : mode = .separator := hm
      simp
    · obtain rfl : mode = .command := hm
      simp
  rw [feedStrict_of_not_strays hstray]
  simp [Reader.take, hmode]

mutual

/-- The automaton reads a command of the grammar and stays at its level. -/
theorem cmd_strict {c : List TokenType} (hc : IsCmd c) (outer : List Level) (m : Mode)
    (hmode : m ≠ .file) : ∃ f, f.isEmpty = false ∧
      c.foldlM Reader.feedStrict ⟨.blank, outer, m⟩ = some ⟨f, outer, .command⟩ := by
  match hc with
  | @IsCmd.words n ts hitems hn =>
    have hstray : Reader.strays ⟨.blank, outer, m⟩ .tokNormal = false := by
      cases m <;> rfl
    have htake : Reader.take ⟨.blank, outer, m⟩ .tokNormal =
        some ⟨⟨1, false⟩, outer, .command⟩ := by
      simp [Reader.take, hmode, Level.blank]
    refine ⟨⟨1 + n, false⟩, by simp [Level.isEmpty], ?_⟩
    rw [List.foldlM_cons, feedStrict_of_not_strays hstray, htake]
    exact items_strict hitems outer (by dsimp only; omega) (Or.inl rfl) rfl
  | @IsCmd.paren l rs hl hitems =>
    have hstray : Reader.strays ⟨.blank, outer, m⟩ .tokOpenParen = false := by
      cases m <;> first | rfl | exact absurd rfl hmode
    have htake : Reader.take ⟨.blank, outer, m⟩ .tokOpenParen =
        some ⟨.blank, .blank :: outer, .command⟩ := by
      simp [Reader.take, hmode]
    obtain ⟨s, hs, houter, hcomplete⟩ := line_strict hl (.blank :: outer)
      .command (by simp)
    refine ⟨⟨0, true⟩, rfl, ?_⟩
    rw [List.foldlM_cons, feedStrict_of_not_strays hstray, htake, Option.bind_eq_bind,
      Option.bind_some, List.foldlM_append, hs, Option.bind_eq_bind, Option.bind_some,
      List.foldlM_cons, close_strict houter hcomplete]
    exact items_strict hitems outer (by simp [Level.blank]) (Or.inr rfl) rfl

/-- The automaton reads a line of the grammar and stays at its level. -/
theorem line_strict {l : List TokenType} (hl : IsLine l) (outer : List Level) (m : Mode)
    (hmode : m ≠ .file) : ∃ s, l.foldlM Reader.feedStrict ⟨.blank, outer, m⟩ = some s ∧
      s.outer = outer ∧ s.Complete := by
  match hl with
  | .single hc =>
    obtain ⟨f, hempty, hfold⟩ := cmd_strict hc outer m hmode
    exact ⟨_, hfold, rfl, Or.inr ⟨rfl, hempty⟩⟩
  | @IsLine.trailing c t hc ht =>
    obtain ⟨f, hempty, hfold⟩ := cmd_strict hc outer m hmode
    obtain ⟨m', -, hsep, hfeed⟩ := operator_strict outer (separator_operator ht) hempty
    refine ⟨⟨.blank, outer, m'⟩, ?_, rfl, Or.inl (hsep ht)⟩
    rw [List.foldlM_append, hfold, Option.bind_eq_bind, Option.bind_some, List.foldlM_cons, hfeed]
    rfl
  | @IsLine.join c l' t hc ht hl' =>
    obtain ⟨f, hempty, hfold⟩ := cmd_strict hc outer m hmode
    obtain ⟨m', hmode', -, hfeed⟩ := operator_strict outer ht hempty
    obtain ⟨s, hs, houter, hcomplete⟩ := line_strict hl' outer m' hmode'
    refine ⟨s, ?_, houter, hcomplete⟩
    rw [List.foldlM_append, hfold, Option.bind_eq_bind, Option.bind_some, List.foldlM_cons, hfeed]
    exact hs

end

/-! ## What the strict automaton has read -/

/-- Commands, each with an operator behind it. -/
inductive Before : List TokenType → Prop
  | nil : Before []
  | snoc {p c : List TokenType} {t : TokenType} : Before p → IsCmd c → t.isOperator = true →
      Before (p ++ (c ++ [t]))

/-- The tokens of a command of which a level is known. -/
inductive Begun : Level → List TokenType → Prop
  | blank : Begun .blank []
  | words {n : Nat} {ts : List TokenType} : Items n ts → n + 1 ≤ maxtokens →
      Begun ⟨n + 1, false⟩ (.tokNormal :: ts)
  | paren {l rs : List TokenType} : IsLine l → Items 0 rs →
      Begun ⟨0, true⟩ (.tokOpenParen :: (l ++ .tokCloseParen :: rs))

/-- The tokens up to the innermost open parenthesis. -/
inductive Opened : List Level → List TokenType → Prop
  | nil : Opened [] []
  | cons {outer : List Level} {q p : List TokenType} : Opened outer q → Before p →
      Opened (.blank :: outer) (q ++ (p ++ [.tokOpenParen]))

/-- What the mode says of the tokens `p ++ cur` of the innermost level. -/
inductive Current : Level → Mode → List TokenType → List TokenType → Prop
  | command {f : Level} {p cur : List TokenType} : Before p → Begun f cur →
      Current f .command p cur
  | file {f : Level} {p cur : List TokenType} {t : TokenType} : Before p → Begun f cur →
      f.isEmpty = false → t.isRedirect = true → Current f .file p (cur ++ [t])
  | separator {p c : List TokenType} {t : TokenType} : Before p → IsCmd c →
      t.isSeparator = true → Current .blank .separator (p ++ (c ++ [t])) []

/-- The strict automaton is in state `s` after the tokens `ts`. -/
def HasRead (s : Reader) (ts : List TokenType) : Prop :=
  ∃ q p cur, ts = q ++ (p ++ cur) ∧ Opened s.outer q ∧ Current s.top s.mode p cur

theorem Items.snoc_word {n : Nat} (h : Items n ts) : Items (n + 1) (ts ++ [.tokNormal]) := by
  induction h with
  | nil => exact .word .nil
  | word _ ih => exact .word ih
  | redirect ht _ ih => exact .redirect ht ih

theorem Items.snoc_redirect {n : Nat} (h : Items n ts) (ht : t.isRedirect = true) :
    Items n (ts ++ [t, .tokNormal]) := by
  induction h with
  | nil => exact .redirect ht .nil
  | word _ ih => exact .word ih
  | redirect ht' _ ih => exact .redirect ht' ih

theorem Before.line {p l : List TokenType} (hp : Before p) (hl : IsLine l) : IsLine (p ++ l) := by
  induction hp generalizing l with
  | nil => exact hl
  | snoc _ hc ht ih =>
    rw [List.append_assoc, List.append_assoc]
    exact ih (.join hc ht hl)

theorem Begun.cmd {cur : List TokenType} (h : Begun f cur) (hempty : f.isEmpty = false) :
    IsCmd cur := by
  cases h with
  | blank => exact absurd hempty (by simp [Level.isEmpty, Level.blank])
  | words hitems hn => exact .words hitems hn
  | paren hl hitems => exact .paren hl hitems

theorem Begun.eq_blank {cur : List TokenType} (h : Begun f cur) (hempty : f.isEmpty = true) :
    f = .blank ∧ cur = [] := by
  cases h with
  | blank => exact ⟨rfl, rfl⟩
  | words => exact absurd hempty (by simp [Level.isEmpty])
  | paren => exact absurd hempty (by simp [Level.isEmpty])

theorem Begun.word {cur : List TokenType} (h : Begun f cur) (hwords : f.words < maxtokens)
    (hsub : f.sub = false) :
    Begun { f with words := f.words + 1 } (cur ++ [.tokNormal]) := by
  cases h with
  | blank => exact .words .nil hwords
  | words hitems _ => exact .words hitems.snoc_word hwords
  | paren => exact absurd hsub (by simp)

theorem Begun.redirect {cur : List TokenType} (h : Begun f cur) (hempty : f.isEmpty = false)
    (ht : t.isRedirect = true) : Begun f (cur ++ [t, .tokNormal]) := by
  cases h with
  | blank => exact absurd hempty (by simp [Level.isEmpty, Level.blank])
  | words hitems hn => exact .words (hitems.snoc_redirect ht) hn
  | paren hl hitems =>
    simpa using Begun.paren hl (hitems.snoc_redirect ht)

/-- Outside a file name, the innermost level is a part of a line. -/
theorem Current.begun {p cur : List TokenType} {mode : Mode} (h : Current f mode p cur)
    (hmode : mode ≠ .file) : Before p ∧ Begun f cur := by
  cases h with
  | command hp hcur => exact ⟨hp, hcur⟩
  | file => exact absurd rfl hmode
  | separator hp hc ht => exact ⟨.snoc hp hc (separator_operator ht), .blank⟩

/-- At a complete place, the innermost level is a line. -/
theorem Current.line {p cur : List TokenType} (h : Current s.top s.mode p cur)
    (hc : s.Complete) : IsLine (p ++ cur) := by
  obtain ⟨f, outer, mode⟩ := s
  cases h with
  | command hp hcur =>
    rcases hc with hm | ⟨-, hempty⟩
    · exact absurd hm (by simp)
    · exact hp.line (.single (hcur.cmd hempty))
  | file => rcases hc with hm | ⟨hm, -⟩ <;> exact absurd hm (by simp)
  | separator hp hcmd ht =>
    rw [List.append_nil]
    exact hp.line (.trailing hcmd ht)

section parts
variable {q p cur : List TokenType} (hq : Opened outer q) (hp : Before p)
include hq hp

theorem HasRead.redirect (hcur : Begun f cur) (hempty : f.isEmpty = false)
    (ht : t.isRedirect = true) : HasRead ⟨f, outer, .file⟩ (q ++ (p ++ cur) ++ [t]) := by
  refine ⟨q, p, cur ++ [t], ?_, hq, .file hp hcur hempty ht⟩
  simp only [List.append_assoc]

theorem HasRead.operator {c : List TokenType} (hc : IsCmd c) (ht : t.isOperator = true) :
    HasRead ⟨.blank, outer, .command⟩ (q ++ (p ++ c) ++ [t]) := by
  refine ⟨q, p ++ (c ++ [t]), [], ?_, hq, .command (.snoc hp hc ht) .blank⟩
  simp only [List.append_assoc, List.append_nil]

theorem HasRead.separator {c : List TokenType} (hc : IsCmd c) (ht : t.isSeparator = true) :
    HasRead ⟨.blank, outer, .separator⟩ (q ++ (p ++ c) ++ [t]) := by
  refine ⟨q, p ++ (c ++ [t]), [], ?_, hq, .separator hp hc ht⟩
  simp only [List.append_assoc, List.append_nil]

end parts

/-- A closing parenthesis behind a line. -/
theorem HasRead.close {g : Level} {q l : List TokenType} (hq : Opened (g :: outer) q)
    (hl : IsLine l) : HasRead ⟨{ g with sub := true }, outer, .command⟩
      (q ++ l ++ [.tokCloseParen]) := by
  cases hq with
  | @cons _ q p hq hp =>
    have hbegun : Begun ⟨0, true⟩ (.tokOpenParen :: (l ++ [.tokCloseParen])) := .paren hl .nil
    refine ⟨q, p, _, ?_, hq, .command hp hbegun⟩
    simp only [List.append_assoc, List.cons_append, List.nil_append]

/-- One token, read in the mode for a command. -/
theorem HasRead.step_take {q p cur : List TokenType} {mode : Mode} (hmode : mode ≠ .file)
    (hq : Opened outer q) (hcur : Current f mode p cur)
    (hstray : Reader.strays ⟨f, outer, mode⟩ t = false) (hproper : t ≠ .tokEnd ∧ t ≠ .tokError)
    (htake : Reader.take ⟨f, outer, mode⟩ t = some s') : HasRead s' (q ++ (p ++ cur) ++ [t]) := by
  obtain ⟨hp, hbegun⟩ := hcur.begun hmode
  obtain ⟨href, hparen⟩ := Bool.or_eq_false_iff.mp hstray
  have href' : t ≠ .tokCloseParen → f.refuses t = false := by
    intro hclose
    cases mode with
    | command => exact href
    | file => exact absurd rfl hmode
    | separator => simpa [Reader.refuses, hclose] using href
  simp only [Reader.take, if_neg hmode] at htake
  cases t with
  | tokEnd => exact absurd rfl hproper.1
  | tokError => exact absurd rfl hproper.2
  | tokNormal =>
    obtain rfl := Option.some.inj htake
    have hfree := href' (by simp)
    simp only [Level.refuses, Bool.or_eq_false_iff, decide_eq_false_iff_not] at hfree
    refine ⟨q, p, cur ++ [.tokNormal], by simp, hq, .command hp ?_⟩
    exact hbegun.word (Nat.lt_of_not_le hfree.1) hfree.2
  | tokLessThan | tokGreaterThan | tok2GreaterThan =>
    obtain rfl := Option.some.inj htake
    exact HasRead.redirect hq hp hbegun (href' (by simp)) rfl
  | tokOpenParen =>
    obtain rfl := Option.some.inj htake
    obtain ⟨rfl, rfl⟩ := hbegun.eq_blank (by simpa using hparen)
    exact ⟨_, [], [], by simp, .cons hq hp, .command .nil .blank⟩
  | tokPipe | tokDoubleamp | tokDoublepipe =>
    obtain rfl := Option.some.inj htake
    exact HasRead.operator hq hp (hbegun.cmd (href' (by simp))) rfl
  | tokSemicolon | tokAmpersand =>
    obtain rfl := Option.some.inj htake
    exact HasRead.separator hq hp (hbegun.cmd (href' (by simp))) rfl
  | tokCloseParen =>
    cases outer with
    | nil => exact absurd htake (by simp)
    | cons g outer =>
      obtain rfl := Option.some.inj htake
      refine HasRead.close hq (Current.line (s := ⟨f, g :: outer, mode⟩) hcur ?_)
      cases mode with
      | command => exact Or.inr ⟨rfl, href⟩
      | file => exact absurd rfl hmode
      | separator => exact Or.inl rfl

/-- The strict automaton reads the parts of a line. -/
theorem HasRead.step (h : HasRead s ts) (hproper : t ≠ .tokEnd ∧ t ≠ .tokError)
    (hfeed : s.feedStrict t = some s') : HasRead s' (ts ++ [t]) := by
  obtain ⟨hstray, htake, -⟩ := feedStrict_eq_some hfeed
  obtain ⟨f, outer, mode⟩ := s
  obtain ⟨q, p, cur, rfl, hq, hcur⟩ := h
  by_cases hmode : mode = .file
  · subst hmode
    obtain rfl : t = .tokNormal := by
      simpa [Reader.strays, Reader.refuses] using (Bool.or_eq_false_iff.mp hstray).1
    obtain rfl := Option.some.inj htake
    cases hcur with
    | @file _ _ cur t hp hbegun hempty ht =>
      exact ⟨q, p, cur ++ [t, .tokNormal], by simp, hq, .command hp (hbegun.redirect hempty ht)⟩
  · exact HasRead.step_take hmode hq hcur hstray hproper htake

theorem hasRead_of_strict (hp : Proper ts) (h : ts.foldlM Reader.feedStrict .init = some s) :
    HasRead s ts := by
  induction ts using List.reverseRecOn generalizing s with
  | nil =>
    obtain rfl := Option.some.inj h
    exact ⟨[], [], [], rfl, .nil, .command .nil .blank⟩
  | append_singleton ts t ih =>
    rw [List.foldlM_append] at h
    obtain ⟨s₁, h₁, h₂⟩ := Option.bind_eq_some_iff.mp h
    have hp' : Proper ts := fun t ht => hp t (List.mem_append_left _ ht)
    refine (ih hp' h₁).step (hp t (by simp)) ?_
    simpa using h₂

/-! ## Misread lines -/

/-- On the way through the tokens `ts` the automaton comes to a token that strays. -/
def Strays (ts : List TokenType) : Prop :=
  ∃ p t r s, ts = p ++ t :: r ∧ scan p = some s ∧ s.strays t = true

/-- The automaton accepts the tokens although one of them strays or a level is still open. -/
def Misread (ts : List TokenType) : Prop :=
  ∃ s, scan ts = some s ∧ s.finish = true ∧ (s.outer ≠ [] ∨ Strays ts)

/-- Where the strict automaton goes, the other one goes, too. -/
theorem scan_of_strict (h : ts.foldlM Reader.feedStrict .init = some s) : scan ts = some s := by
  induction ts using List.reverseRecOn generalizing s with
  | nil => exact h
  | append_singleton ts t ih =>
    rw [List.foldlM_append] at h
    obtain ⟨s₁, h₁, h₂⟩ := Option.bind_eq_some_iff.mp h
    obtain ⟨-, -, hfeed⟩ := feedStrict_eq_some (s := s₁) (t := t) (by simpa using h₂)
    have hscan := ih h₁
    rw [scan] at hscan ⊢
    simp [List.foldlM_append, hscan, hfeed]

theorem strict_of_not_strays (hscan : scan ts = some s) (hstrays : ¬ Strays ts) :
    ts.foldlM Reader.feedStrict .init = some s := by
  induction ts using List.reverseRecOn generalizing s with
  | nil => exact hscan
  | append_singleton ts t ih =>
    rw [scan, List.foldlM_append] at hscan
    obtain ⟨s₁, h₁, h₂⟩ := Option.bind_eq_some_iff.mp hscan
    -- a stray token of the prefix is one of the whole
    have hprefix : ¬ Strays ts := by
      rintro ⟨p, u, r, s₂, rfl, hp, hu⟩
      exact hstrays ⟨p, u, r ++ [t], s₂, by simp, hp, hu⟩
    have hlast : s₁.strays t = false := by
      by_contra hstray
      exact hstrays ⟨ts, t, [], s₁, rfl, h₁, by simpa using hstray⟩
    simp [List.foldlM_append, ih h₁ hprefix, Reader.feedStrict, hlast] at h₂ ⊢
    exact h₂

/-- No token of a line of the grammar strays. -/
theorem IsLine.not_misread (h : IsLine ts) : ¬ Misread ts := by
  obtain ⟨s, hs, houter, -⟩ := line_strict h [] .command (by simp)
  rintro ⟨s', hs', -, hopen | ⟨p, t, r, s₁, rfl, hp, hstray⟩⟩
  · obtain rfl := Option.some.inj ((scan_of_strict hs).symm.trans hs')
    exact hopen houter
  · rw [List.foldlM_append] at hs
    obtain ⟨s₂, h₂, hrest⟩ := Option.bind_eq_some_iff.mp hs
    obtain rfl := Option.some.inj ((scan_of_strict h₂).symm.trans hp)
    rw [List.foldlM_cons] at hrest
    obtain ⟨s₃, hfeed, -⟩ := Option.bind_eq_some_iff.mp hrest
    exact absurd hstray (by simp [(feedStrict_eq_some hfeed).1])

/-- Without an open level, the automaton accepts at a complete place. -/
theorem complete_of_finish (houter : s.outer = []) (hfinish : s.finish = true) : s.Complete := by
  obtain ⟨f, outer, mode⟩ := s
  obtain rfl : outer = [] := houter
  simpa [Reader.finish, Reader.Complete] using hfinish

/-- The lines that the automaton accepts are those of the grammar and the misread ones. -/
theorem isLine_of_scan (hp : Proper ts) (hscan : scan ts = some s) (hfinish : s.finish = true)
    (hread : ¬ Misread ts) : IsLine ts := by
  have houter : s.outer = [] := by
    by_contra hopen
    exact hread ⟨s, hscan, hfinish, Or.inl hopen⟩
  have hstrays : ¬ Strays ts := fun h => hread ⟨s, hscan, hfinish, Or.inr h⟩
  obtain ⟨q, p, cur, rfl, hq, hcur⟩ := hasRead_of_strict hp (strict_of_not_strays hscan hstrays)
  rw [houter] at hq
  cases hq with
  | nil => exact hcur.line (complete_of_finish houter hfinish)

/-! ## Lines with an error -/

section error
variable {tn : TokenType} {ok : Bool} {rest r : List TokenType}

theorem separatorMove_error (h : separatorMove (some tn) false t rest = .ret ok r) :
    ok = false := by
  cases rest with
  | nil => simp [separatorMove] at h
  | cons t' rest =>
    by_cases hclose : t' = .tokCloseParen
    · simp only [separatorMove, if_pos hclose, Effect.ret.injEq] at h
      exact h.1.symm
    · simp [separatorMove, hclose] at h

theorem connectMove_error (h : connectMove (some tn) false t rest = .ret ok r) : ok = false := by
  cases t with
  | tokDoubleamp | tokDoublepipe | tokPipe => simp [connectMove] at h
  | tokSemicolon | tokAmpersand => exact separatorMove_error h
  | tokEnd | tokError | tokNormal | tokLessThan | tokGreaterThan | tok2GreaterThan | tokOpenParen
  | tokCloseParen => exact (Effect.ret.inj h).1.symm

theorem redirectMove_error (h : redirectMove f rest = .ret ok r) : ok = false := by
  unfold redirectMove at h
  split at h
  · exact (Effect.ret.inj h).1.symm
  · cases rest with
    | nil => exact (Effect.ret.inj h).1.symm
    | cons t' rest =>
      dsimp only at h
      split at h
      · exact absurd h (by simp)
      · exact (Effect.ret.inj h).1.symm

/-- The outermost level never ends with a list on a line with an error. -/
theorem move_error (h : move (some tn) false f rest = .ret ok r) : ok = false := by
  have hdone : ∀ t rest, (if f.isEmpty then Effect.ret false (t :: rest)
      else connectMove (some tn) false t rest) = .ret ok r → ok = false := by
    intro t rest h
    split at h
    · exact (Effect.ret.inj h).1.symm
    · exact connectMove_error h
  cases rest with
  | nil => exact hdone tn [] h
  | cons t rest =>
    cases t with
    | tokNormal =>
      simp only [move] at h
      split at h
      · exact (Effect.ret.inj h).1.symm
      · exact absurd h (by simp)
    | tokLessThan | tokGreaterThan | tok2GreaterThan => exact redirectMove_error h
    | tokOpenParen => exact absurd h (by simp [move])
    | tokEnd | tokError | tokSemicolon | tokAmpersand | tokPipe | tokDoubleamp | tokDoublepipe
    | tokCloseParen => exact hdone _ rest h

theorem ends_error {a : Stack} (h : Ends (Stack.step (some tn)) (.inl a) ok) : ok = false := by
  refine h.invariant (P := fun x => ∀ ok, x = .inr ok → ok = false) ?_ (by simp) ok rfl
  intro a _ ok hstep
  obtain ⟨f, outer, rest⟩ := a
  unfold Stack.step at hstep
  cases hmove : move (some tn) (!outer.isEmpty) f rest with
  | again g rest' => simp [hmove, Effect.after] at hstep
  | push rest' => simp [hmove, Effect.after] at hstep
  | ret ok' rest' =>
    cases outer with
    | nil =>
      simp only [hmove, Effect.after, Stack.resume, Sum.inr.injEq] at hstep
      rw [← hstep]
      exact move_error hmove
    | cons g outer =>
      rw [hmove] at hstep
      exact absurd hstep (by simp [Effect.after, Stack.resume])

end error

/-- On a line with an error the parser returns no commands. -/
theorem eq_nil_of_error {line : List UInt8} {l : List Command}
    (hend : (tokens line).2 ≠ .tokEnd) (hl : Returns line l) : l = [] := by
  have hne : types line ≠ [] := fun hnil => not_returns_of_error hend hnil l hl
  obtain ⟨tn, htn⟩ := Option.ne_none_iff_exists'.mp (mt List.getLast?_eq_none_iff.mp hne)
  have hends := (returns_iff_stack (Or.inr hne) (!l.isEmpty)).mp ⟨l, hl, rfl⟩
  rw [lineEnd, if_neg hend, htn] at hends
  simpa using ends_error hends

/-! ## The parser and the grammar -/

theorem verdict_iff : Reader.init.verdict ts = true ↔ ∃ s, scan ts = some s ∧ s.finish = true := by
  unfold Reader.verdict
  cases hscan : scan ts with
  | none =>
    rw [scan] at hscan
    simp [hscan]
  | some s =>
    rw [scan] at hscan
    simp [hscan]

/-- On a line without an error, the parser returns commands when the automaton accepts. -/
theorem scan_of_returns {line : List UInt8} {l : List Command} (hend : (tokens line).2 = .tokEnd)
    (hl : Returns line l) (hne : l ≠ []) : ∃ s, scan (types line) = some s ∧ s.finish = true := by
  obtain ⟨l', hl', hverdict⟩ := returns_of_end hend
  have hends := (returns_iff_stack (Or.inl hend) _).mp ⟨l, hl, rfl⟩
  have hends' := (returns_iff_stack (Or.inl hend) _).mp ⟨l', hl', rfl⟩
  rw [← verdict_iff, ← hverdict, ← hends.unique hends']
  simpa using hne

theorem returns_of_scan {line : List UInt8} (hend : (tokens line).2 = .tokEnd)
    (hscan : scan (types line) = some s) (hfinish : s.finish = true) :
    ∃ l, Returns line l ∧ l ≠ [] := by
  obtain ⟨l, hl, hverdict⟩ := returns_of_end hend
  rw [verdict_iff.mpr ⟨s, hscan, hfinish⟩] at hverdict
  exact ⟨l, hl, by simpa using hverdict⟩

/-- Commands are returned for lines of the grammar only, unless the line has no error and is
misread. -/
theorem returns_isLine_iff (line : List UInt8) :
    (∀ l, Returns line l → l ≠ [] → (tokens line).2 = .tokEnd ∧ IsLine (types line)) ↔
      ((tokens line).2 = .tokEnd → ¬ Misread (types line)) := by
  constructor
  · intro h hend hread
    obtain ⟨s, hscan, hfinish, -⟩ := id hread
    obtain ⟨l, hl, hne⟩ := returns_of_scan hend hscan hfinish
    exact (h l hl hne).2.not_misread hread
  · intro h l hl hne
    have hend : (tokens line).2 = .tokEnd := by
      by_contra hend
      exact hne (eq_nil_of_error hend hl)
    obtain ⟨s, hscan, hfinish⟩ := scan_of_returns hend hl hne
    exact ⟨hend, isLine_of_scan (types_proper line) hscan hfinish (h hend)⟩

/-- A line that the automaton accepts and the strict one does not. -/
theorem returns_of_verdict {line : List UInt8} (hend : (tokens line).2 = .tokEnd)
    (hverdict : Reader.init.verdict (types line) = true)
    (hstrict : (types line).foldlM Reader.feedStrict .init = none) :
    (∃ l, Returns line l ∧ l ≠ []) ∧ ¬ IsLine (types line) := by
  obtain ⟨s, hscan, hfinish⟩ := verdict_iff.mp hverdict
  refine ⟨returns_of_scan hend hscan hfinish, ?_⟩
  intro h
  obtain ⟨s', hs', -⟩ := line_strict h [] .command (by simp)
  exact absurd (hstrict.symm.trans hs') (by simp)

/-- `echo ( echo foo )` -/
def wordsAndSubshell : List UInt8 :=
  [101, 99, 104, 111, 32, 40, 32, 101, 99, 104, 111, 32, 102, 111, 111, 32, 41]

/-- `(a) (b)` -/
def twoSubshells : List UInt8 := [40, 97, 41, 32, 40, 98, 41]

/-- `a ( > b` -/
def brokenSubshell : List UInt8 := [97, 32, 40, 32, 62, 32, 98]

/-- The comment at `TOK_OPEN_PAREN` calls the first two syntax errors. -/
theorem returns_strayLines :
    ((∃ l, Returns wordsAndSubshell l ∧ l ≠ []) ∧ ¬ IsLine (types wordsAndSubshell)) ∧
      ((∃ l, Returns twoSubshells l ∧ l ≠ []) ∧ ¬ IsLine (types twoSubshells)) ∧
      (∃ l, Returns brokenSubshell l ∧ l ≠ []) ∧ ¬ IsLine (types brokenSubshell) := by
  refine ⟨?_, ?_, ?_⟩
  · exact returns_of_verdict (by decide +kernel) (by decide +kernel) (by decide +kernel)
  · exact returns_of_verdict (by decide +kernel) (by decide +kernel) (by decide +kernel)
  · exact returns_of_verdict (by decide +kernel) (by decide +kernel) (by decide +kernel)

end SystemsProjects.Cmdparse
