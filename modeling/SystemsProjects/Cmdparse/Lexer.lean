import Mathlib.Data.List.Basic

/-!
# The tokenizer of `cmdparse.c`

A line is the list of its characters up to the terminating NUL, and a position in it is the
suffix that starts there. `parse_gettoken` is translated with its quote state and its limit of
`TOKENSIZE - 1` characters; `tokens` collects what repeated calls deliver up to the first
`TOK_END` or `TOK_ERROR`.
-/

namespace SystemsProjects.Cmdparse

/-- `TOKENSIZE` (`cmdparse.h:16`). -/
def tokensize : Nat := 1024

/-- `tokentype_t` (`cmdparse.h:23-37`). -/
inductive TokenType where
  | tokError
  | tokEnd
  | tokNormal
  | tokLessThan
  | tokGreaterThan
  | tok2GreaterThan
  | tokSemicolon
  | tokAmpersand
  | tokPipe
  | tokDoubleamp
  | tokDoublepipe
  | tokOpenParen
  | tokCloseParen
  deriving DecidableEq, Repr

/-- `token_t`. -/
structure Token where
  type : TokenType
  buffer : List UInt8
  deriving DecidableEq, Repr

/-- `parsestate_t`. -/
structure ParseState where
  position : List UInt8
  lastPosition : Option (List UInt8)
  deriving DecidableEq, Repr

/-- `parse_init` (`cmdparse.c:32-37`). -/
def parseInit (line : List UInt8) : ParseState := ⟨line, none⟩

/-- `isspace` in the C locale. -/
def isspace (c : UInt8) : Bool := c == 32 || (9 ≤ c && c ≤ 13)

/-- The variables of the loop of `parse_gettoken` when it ends. -/
structure Scanned where
  str : List UInt8
  buffer : List UInt8
  quoteState : Nat
  anyQuotes : Bool

/-- The loop of `parse_gettoken` (`cmdparse.c:79-105`); `none` is `goto error`. -/
def scanToken : List UInt8 → List UInt8 → Nat → Bool → Option Scanned
  | [], buffer, quoteState, anyQuotes => some ⟨[], buffer, quoteState, anyQuotes⟩
  | c :: str, buffer, quoteState, anyQuotes =>
    if quoteState = 0 ∧ isspace c then some ⟨c :: str, buffer, quoteState, anyQuotes⟩
    -- the double quote
    else if c = 34 then scanToken str buffer (quoteState ^^^ 1) true
    else
      -- the backquote, which stays in the token
      let quoteState := if c = 96 then quoteState ^^^ 2 else quoteState
      let anyQuotes := if c = 96 then true else anyQuotes
      if buffer.length ≥ tokensize - 1 then none
      -- `(`, `)` and `;` end the token before them, or are a token
      else if (c = 40 ∨ c = 41 ∨ c = 59) ∧ quoteState = 0 then
        if buffer.length + 1 > 1 then some ⟨c :: str, buffer, quoteState, anyQuotes⟩
        else some ⟨str, buffer ++ [c], quoteState, anyQuotes⟩
      else scanToken str (buffer ++ [c]) quoteState anyQuotes

/-- The classification of a token (`cmdparse.c:123-146`). -/
def tokenType (anyQuotes : Bool) (buffer : List UInt8) : TokenType :=
  if anyQuotes then .tokNormal
  else if buffer = [60] then .tokLessThan
  else if buffer = [62] then .tokGreaterThan
  else if buffer = [50, 62] then .tok2GreaterThan
  else if buffer = [38] then .tokAmpersand
  else if buffer = [59] then .tokSemicolon
  else if buffer = [124] then .tokPipe
  else if buffer = [38, 38] then .tokDoubleamp
  else if buffer = [124, 124] then .tokDoublepipe
  else if buffer = [40] then .tokOpenParen
  else if buffer = [41] then .tokCloseParen
  else .tokNormal

/-- `parse_gettoken` (`cmdparse.c:52-152`). On an error the parse state keeps its old
`last_position`. -/
def parseGettoken (ps : ParseState) : Token × ParseState :=
  match ps.position.dropWhile isspace with
  | [] => (⟨.tokEnd, []⟩, { ps with lastPosition := some ps.position })
  | c :: str =>
    match scanToken (c :: str) [] 0 false with
    | none => (⟨.tokError, []⟩, ps)
    | some s =>
      if s.quoteState ≠ 0 then (⟨.tokError, []⟩, ps)
      else (⟨tokenType s.anyQuotes s.buffer, s.buffer⟩, ⟨s.str, some ps.position⟩)

/-- `parse_ungettoken` (`cmdparse.c:163-170`); `none` is the failed assertion. -/
def parseUngettoken (ps : ParseState) : Option ParseState :=
  match ps.lastPosition with
  | none => none
  | some p => some ⟨p, none⟩

/-! ## Progress -/

/-- One character: the loop stops before it (at a space, or at a separator behind other
characters), stops behind it, or goes on. -/
theorem scanToken_cons {c : UInt8} {s buffer : List UInt8} {q : Nat} {a : Bool} {sc : Scanned}
    (h : scanToken (c :: s) buffer q a = some sc) :
    (sc.str = c :: s ∧ ((q = 0 ∧ isspace c = true) ∨ buffer ≠ [])) ∨ sc.str = s ∨
      ∃ buffer' q' a', scanToken s buffer' q' a' = some sc := by
  simp only [scanToken] at h
  generalize (if c = 96 then q ^^^ 2 else q) = q' at h
  generalize (if c = 96 then true else a) = a' at h
  split at h
  · rename_i hspace
    obtain rfl := Option.some.inj h
    exact Or.inl ⟨rfl, Or.inl hspace⟩
  · split at h
    · exact Or.inr (Or.inr ⟨_, _, _, h⟩)
    · split at h
      · exact absurd h (by simp)
      · split at h
        · split at h
          · rename_i hlen
            obtain rfl := Option.some.inj h
            refine Or.inl ⟨rfl, Or.inr ?_⟩
            rintro rfl
            exact absurd hlen (by simp)
          · obtain rfl := Option.some.inj h
            exact Or.inr (Or.inl rfl)
        · exact Or.inr (Or.inr ⟨_, _, _, h⟩)

theorem scanToken_length_le {s buffer : List UInt8} {q : Nat} {a : Bool} {sc : Scanned}
    (h : scanToken s buffer q a = some sc) : sc.str.length ≤ s.length := by
  induction s generalizing buffer q a with
  | nil =>
    obtain rfl := Option.some.inj h
    exact Nat.le_refl _
  | cons c s ih =>
    rcases scanToken_cons h with ⟨hstr, -⟩ | hstr | ⟨_, _, _, hrest⟩
    · exact Nat.le_of_eq (congrArg List.length hstr)
    · rw [hstr]
      exact Nat.le_succ _
    · exact Nat.le_succ_of_le (ih hrest)

/-- A token has at least one character. -/
theorem scanToken_length_lt {c : UInt8} {s : List UInt8} {sc : Scanned} (hc : isspace c = false)
    (h : scanToken (c :: s) [] 0 false = some sc) : sc.str.length < (c :: s).length := by
  rcases scanToken_cons h with ⟨-, ⟨-, hspace⟩ | hne⟩ | hstr | ⟨_, _, _, hrest⟩
  · rw [hc] at hspace
    exact absurd hspace (by simp)
  · exact absurd rfl hne
  · rw [hstr]
    exact Nat.lt_succ_self _
  · exact Nat.lt_succ_of_le (scanToken_length_le hrest)

theorem ite_type_ne {p : Prop} [Decidable p] {a b x : TokenType} (ha : a ≠ x) (hb : b ≠ x) :
    (if p then a else b) ≠ x := by
  split
  · exact ha
  · exact hb

theorem tokenType_ne {x : TokenType} (a : Bool) (b : List UInt8)
    (hx : x = .tokEnd ∨ x = .tokError) : tokenType a b ≠ x := by
  unfold tokenType
  rcases hx with rfl | rfl
  · iterate 11 refine ite_type_ne (by decide) ?_
    decide
  · iterate 11 refine ite_type_ne (by decide) ?_
    decide

/-- The three ways `parse_gettoken` ends, whatever `last_position` is: at the end of the line, at
an error, or with a token that moves the position. -/
theorem parseGettoken_cases (p : List UInt8) :
    (∀ last, parseGettoken ⟨p, last⟩ = (⟨.tokEnd, []⟩, ⟨p, some p⟩)) ∨
    (∀ last, parseGettoken ⟨p, last⟩ = (⟨.tokError, []⟩, ⟨p, last⟩)) ∨
    ∃ t p', (∀ last, parseGettoken ⟨p, last⟩ = (t, ⟨p', some p⟩)) ∧ p'.length < p.length ∧
      t.type ≠ .tokEnd ∧ t.type ≠ .tokError := by
  cases hskip : p.dropWhile isspace with
  | nil => exact Or.inl fun last => by simp only [parseGettoken, hskip]
  | cons c str =>
    have hc : isspace c = false := by
      have := List.head?_dropWhile_not isspace p
      rw [hskip] at this
      simpa using this
    have hlen : (c :: str).length ≤ p.length := by
      rw [← hskip]
      exact (List.dropWhile_suffix _).length_le
    refine Or.inr ?_
    cases hscan : scanToken (c :: str) [] 0 false with
    | none => exact Or.inl fun last => by simp only [parseGettoken, hskip, hscan]
    | some s =>
      by_cases hq : s.quoteState ≠ 0
      · exact Or.inl fun last => by simp only [parseGettoken, hskip, hscan, if_pos hq]
      · refine Or.inr ⟨⟨tokenType s.anyQuotes s.buffer, s.buffer⟩, s.str, ?_, ?_, ?_⟩
        · intro last
          simp only [parseGettoken, hskip, hscan, if_neg hq]
        · exact Nat.lt_of_lt_of_le (scanToken_length_lt hc hscan) hlen
        · exact ⟨tokenType_ne _ _ (Or.inl rfl), tokenType_ne _ _ (Or.inr rfl)⟩

/-! ## The token stream of a line -/

/-- The tokens from a position on, and the type (`TOK_END` or `TOK_ERROR`) that ends them. -/
def tokensAux : Nat → List UInt8 → List Token × TokenType
  | 0, _ => ([], .tokError)
  | fuel + 1, p =>
    let r := parseGettoken ⟨p, none⟩
    if r.1.type = .tokEnd ∨ r.1.type = .tokError then ([], r.1.type)
    else (r.1 :: (tokensAux fuel r.2.position).1, (tokensAux fuel r.2.position).2)

/-- What repeated calls of `parse_gettoken` deliver; every token takes a character, so the length
of the line bounds their number. -/
def tokens (p : List UInt8) : List Token × TokenType := tokensAux (p.length + 1) p

theorem tokensAux_of_lt {p : List UInt8} {m n : Nat} (hm : p.length < m) (hn : p.length < n) :
    tokensAux m p = tokensAux n p := by
  induction m generalizing p n with
  | zero => omega
  | succ m ih =>
    cases n with
    | zero => omega
    | succ n =>
      simp only [tokensAux]
      rcases parseGettoken_cases p with h | h | ⟨t, p', h, hlen, hne⟩
      · simp [h]
      · simp [h]
      · have hrec : tokensAux m p' = tokensAux n p' := ih (by omega) (by omega)
        simp [h, hne, hrec]

/-- The three ways `parse_gettoken` ends, with the tokens from the position on. -/
theorem tokens_cases (p : List UInt8) :
    (tokens p = ([], .tokEnd) ∧
      ∀ last, parseGettoken ⟨p, last⟩ = (⟨.tokEnd, []⟩, ⟨p, some p⟩)) ∨
    (tokens p = ([], .tokError) ∧
      ∀ last, parseGettoken ⟨p, last⟩ = (⟨.tokError, []⟩, ⟨p, last⟩)) ∨
    ∃ t p', tokens p = (t :: (tokens p').1, (tokens p').2) ∧ p'.length < p.length ∧
      (t.type ≠ .tokEnd ∧ t.type ≠ .tokError) ∧
      ∀ last, parseGettoken ⟨p, last⟩ = (t, ⟨p', some p⟩) := by
  rcases parseGettoken_cases p with h | h | ⟨t, p', h, hlen, hne⟩
  · exact Or.inl ⟨by simp [tokens, tokensAux, h], h⟩
  · exact Or.inr (Or.inl ⟨by simp [tokens, tokensAux, h], h⟩)
  · refine Or.inr (Or.inr ⟨t, p', ?_, hlen, hne, h⟩)
    have hrec : tokensAux p.length p' = tokens p' := tokensAux_of_lt hlen (Nat.lt_succ_self _)
    rw [← hrec]
    simp [tokens, tokensAux, h, hne]

theorem parseGettoken_end {p : List UInt8} (h : tokens p = ([], .tokEnd))
    (last : Option (List UInt8)) : parseGettoken ⟨p, last⟩ = (⟨.tokEnd, []⟩, ⟨p, some p⟩) := by
  rcases tokens_cases p with ⟨-, hget⟩ | ⟨htoks, -⟩ | ⟨t, p', htoks, -⟩
  · exact hget last
  · rw [h] at htoks
    exact absurd htoks (by simp)
  · rw [h] at htoks
    exact absurd htoks (by simp)

theorem parseGettoken_error {p : List UInt8} (h : tokens p = ([], .tokError))
    (last : Option (List UInt8)) :
    parseGettoken ⟨p, last⟩ = (⟨.tokError, []⟩, ⟨p, last⟩) := by
  rcases tokens_cases p with ⟨htoks, -⟩ | ⟨-, hget⟩ | ⟨t, p', htoks, -⟩
  · rw [h] at htoks
    exact absurd htoks (by simp)
  · exact hget last
  · rw [h] at htoks
    exact absurd htoks (by simp)

theorem parseGettoken_token {p : List UInt8} {t : Token} {ts : List Token} {e : TokenType}
    (h : tokens p = (t :: ts, e)) :
    ∃ p', tokens p' = (ts, e) ∧ ∀ last, parseGettoken ⟨p, last⟩ = (t, ⟨p', some p⟩) := by
  rcases tokens_cases p with ⟨htoks, -⟩ | ⟨htoks, -⟩ | ⟨t', p', htoks, -, -, hget⟩
  · rw [h] at htoks
    exact absurd htoks (by simp)
  · rw [h] at htoks
    exact absurd htoks (by simp)
  · rw [h] at htoks
    obtain ⟨hcons, he⟩ := Prod.mk.inj htoks
    obtain ⟨rfl, hts⟩ := List.cons.inj hcons
    exact ⟨p', Prod.ext hts.symm he.symm, hget⟩

/-- A token that `parse_gettoken` delivers is the first of the stream. -/
theorem tokens_of_parseGettoken {p p' : List UInt8} {t : Token} {last : Option (List UInt8)}
    (h : parseGettoken ⟨p, last⟩ = (t, ⟨p', some p⟩))
    (hne : t.type ≠ .tokEnd ∧ t.type ≠ .tokError) :
    tokens p = (t :: (tokens p').1, (tokens p').2) := by
  rcases tokens_cases p with ⟨-, hget⟩ | ⟨-, hget⟩ | ⟨t', q, htoks, -, -, hget⟩
  · rw [hget last] at h
    exact absurd (Prod.mk.inj h).1 fun he => hne.1 (he ▸ rfl)
  · rw [hget last] at h
    exact absurd (Prod.mk.inj h).1 fun he => hne.2 (he ▸ rfl)
  · rw [hget last] at h
    obtain ⟨rfl, hps⟩ := Prod.mk.inj h
    obtain ⟨rfl, -⟩ := ParseState.mk.inj hps
    exact htoks

/-- The tokens before the end of the stream are proper ones. -/
theorem tokens_proper (p : List UInt8) :
    ((tokens p).2 = .tokEnd ∨ (tokens p).2 = .tokError) ∧
      ∀ t ∈ (tokens p).1, t.type ≠ .tokEnd ∧ t.type ≠ .tokError := by
  induction hn : p.length using Nat.strongRecOn generalizing p with
  | ind n ih =>
    rcases tokens_cases p with ⟨h, -⟩ | ⟨h, -⟩ | ⟨t, p', h, hlen, hne, -⟩
    · simp [h]
    · simp [h]
    · obtain ⟨hend, hall⟩ := ih p'.length (hn ▸ hlen) p' rfl
      rw [h]
      exact ⟨hend, List.forall_mem_cons.mpr ⟨hne, hall⟩⟩

end SystemsProjects.Cmdparse
