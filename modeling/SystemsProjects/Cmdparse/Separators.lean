import SystemsProjects.Cmdparse.Lexer

/-!
# Separators stand alone

`(`, `)` and `;` outside quotes end the word before them and are tokens of their own.
`parse_gettoken` decides this from the number of characters in its buffer, into which it has put
the separator already: behind a word of quotes only it takes the separator for the word, and behind
a word of `TOKENSIZE - 1` characters it finds no room for it. Everywhere else the tokens of a line
are those before the separator, the separator, and those behind it.
-/

namespace SystemsProjects.Cmdparse

/-- `(`, `)` or `;`. -/
def isSeparator (c : UInt8) : Bool := c == 40 || c == 41 || c == 59

/-- The type of a separator that is a token. -/
def separatorType (c : UInt8) : TokenType :=
  if c = 40 then .tokOpenParen else if c = 41 then .tokCloseParen else .tokSemicolon

/-- The quotes that are open behind a text: 1 for a double quote, 2 for a backquote. -/
def quoteAt (pre : List UInt8) : Nat :=
  pre.foldl (fun q c => if c = 34 then q ^^^ 1 else if c = 96 then q ^^^ 2 else q) 0

/-- The word that a text ends in: the open quotes, the characters that go into the token, whether it
has quotes, and whether there is a word at all. -/
structure OpenWord where
  quote : Nat
  chars : List UInt8
  quotes : Bool
  begun : Bool

/-- No word. -/
def OpenWord.blank : OpenWord := ⟨0, [], false, false⟩

/-- The word after one more character. -/
def OpenWord.next (w : OpenWord) (c : UInt8) : OpenWord :=
  if w.quote = 0 ∧ (isspace c = true ∨ isSeparator c = true) then .blank
  else if c = 34 then ⟨w.quote ^^^ 1, w.chars, true, true⟩
  else if c = 96 then ⟨w.quote ^^^ 2, w.chars ++ [c], true, true⟩
  else ⟨w.quote, w.chars ++ [c], w.quotes, true⟩

def wordAt (pre : List UInt8) : OpenWord := pre.foldl OpenWord.next .blank

/-- The token of a word. -/
def OpenWord.token (w : OpenWord) : Token := ⟨tokenType w.quotes w.chars, w.chars⟩

variable {c : UInt8} {p s x : List UInt8}

theorem isSeparator_iff : isSeparator c = true ↔ c = 40 ∨ c = 41 ∨ c = 59 := by
  simp [isSeparator, or_assoc]

theorem isSeparator_ne (h : isSeparator c = true) : c ≠ 34 ∧ c ≠ 96 ∧ isspace c = false := by
  rcases isSeparator_iff.mp h with rfl | rfl | rfl <;> decide

theorem isspace_ne (h : isspace c = true) : c ≠ 34 ∧ c ≠ 96 := by
  refine ⟨?_, ?_⟩
  · rintro rfl
    exact absurd h (by decide)
  · rintro rfl
    exact absurd h (by decide)

theorem OpenWord.next_end {w : OpenWord} (hq : w.quote = 0)
    (hc : isspace c = true ∨ isSeparator c = true) : w.next c = .blank := by
  rw [OpenWord.next, if_pos ⟨hq, hc⟩]

/-- Words end outside quotes only, so the quotes of the word are those of the text. -/
theorem foldl_next_quote (p : List UInt8) (w : OpenWord) :
    (p.foldl OpenWord.next w).quote =
      p.foldl (fun q c => if c = 34 then q ^^^ 1 else if c = 96 then q ^^^ 2 else q) w.quote := by
  induction p generalizing w with
  | nil => rfl
  | cons c p ih =>
    rw [List.foldl_cons, List.foldl_cons, ih]
    congr 1
    unfold OpenWord.next
    by_cases hend : w.quote = 0 ∧ (isspace c = true ∨ isSeparator c = true)
    · have hne : c ≠ 34 ∧ c ≠ 96 := by
        rcases hend.2 with h | h
        · exact isspace_ne h
        · exact ⟨(isSeparator_ne h).1, (isSeparator_ne h).2.1⟩
      rw [if_pos hend, if_neg hne.1, if_neg hne.2, hend.1]
      rfl
    · rw [if_neg hend]
      by_cases h34 : c = 34
      · simp only [if_pos h34]
      · by_cases h96 : c = 96
        · simp only [if_neg h34, if_pos h96]
        · simp only [if_neg h34, if_neg h96]

theorem wordAt_quote (pre : List UInt8) : (wordAt pre).quote = quoteAt pre :=
  foldl_next_quote pre .blank

/-! ## One step of the scan -/

section scan

variable {b : List UInt8} {q : Nat} {a : Bool}

theorem scanToken_space (hq : q = 0) (hc : isspace c = true) :
    scanToken (c :: s) b q a = some ⟨c :: s, b, q, a⟩ := by
  rw [scanToken, if_pos ⟨hq, hc⟩]

theorem scanToken_long (h34 : c ≠ 34) (hend : ¬ (q = 0 ∧ isspace c = true))
    (hlen : b.length ≥ tokensize - 1) : scanToken (c :: s) b q a = none := by
  rw [scanToken, if_neg hend, if_neg h34]
  simp only [if_pos hlen]

/-- A separator behind characters ends the token before it. -/
theorem scanToken_stop (hc : isSeparator c = true) (hlen : ¬ b.length ≥ tokensize - 1)
    (hb : b ≠ []) : scanToken (c :: s) b 0 a = some ⟨c :: s, b, 0, a⟩ := by
  obtain ⟨h34, h96, hspace⟩ := isSeparator_ne hc
  have hpos : b.length + 1 > 1 := Nat.succ_lt_succ (List.length_pos_iff.mpr hb)
  rw [scanToken, if_neg (by simp [hspace]), if_neg h34]
  simp only [if_neg h96, if_neg hlen, isSeparator_iff.mp hc, and_self, if_true, if_pos hpos]

/-- A separator in an empty buffer is the token. -/
theorem scanToken_alone (hc : isSeparator c = true) :
    scanToken (c :: s) [] 0 a = some ⟨s, [c], 0, a⟩ := by
  obtain ⟨h34, h96, hspace⟩ := isSeparator_ne hc
  have hlen : ¬ ([] : List UInt8).length ≥ tokensize - 1 := by decide
  have hpos : ¬ ([] : List UInt8).length + 1 > 1 := by decide
  rw [scanToken, if_neg (by simp [hspace]), if_neg h34]
  simp only [if_neg h96, if_neg hlen, isSeparator_iff.mp hc, and_self, if_true, if_neg hpos,
    List.nil_append]

/-- Every other character goes into the word. -/
theorem scanToken_next (begun : Bool) (hend : ¬ (q = 0 ∧ (isspace c = true ∨ isSeparator c = true)))
    (hroom : c = 34 ∨ ¬ b.length ≥ tokensize - 1) {w : OpenWord}
    (hw : OpenWord.next ⟨q, b, a, begun⟩ c = w) :
    scanToken (c :: s) b q a = scanToken s w.chars w.quote w.quotes ∧ w.begun = true ∧
      (b.length ≤ tokensize - 1 → w.chars.length ≤ tokensize - 1) := by
  have hspace : ¬ (q = 0 ∧ isspace c = true) := fun h => hend ⟨h.1, Or.inl h.2⟩
  subst hw
  rw [scanToken, if_neg hspace, OpenWord.next, if_neg hend]
  by_cases h34 : c = 34
  · simp only [if_pos h34, true_and]
    exact id
  · have hlen : ¬ b.length ≥ tokensize - 1 := hroom.resolve_left h34
    have hfits : (b ++ [c]).length ≤ tokensize - 1 := by
      rw [List.length_append]
      exact Nat.not_le.mp hlen
    by_cases h96 : c = 96
    · subst h96
      have hsep : ¬ ((96 : UInt8) = 40 ∨ (96 : UInt8) = 41 ∨ (96 : UInt8) = 59) := by decide
      simp only [if_neg h34, if_true, if_neg hlen, if_neg (fun h => hsep (And.left h)), true_and]
      exact fun _ => hfits
    · have hsep : ¬ ((c = 40 ∨ c = 41 ∨ c = 59) ∧ q = 0) :=
        fun h => hend ⟨h.2, Or.inr (isSeparator_iff.mpr h.1)⟩
      simp only [if_neg h34, if_neg h96, if_neg hlen, if_neg hsep, true_and]
      exact fun _ => hfits

end scan

/-! ## The scan of a text with more behind it -/

/-- The scan ends inside `p`, or fails inside `p`, or goes on behind `p` in the word that `p` ends
in. -/
theorem scanToken_append (p : List UInt8) (w : OpenWord) (hw : w.chars.length ≤ tokensize - 1) :
    (∃ sc : Scanned, sc.quoteState = 0 ∧ p.foldl OpenWord.next w = wordAt sc.str ∧
      ∀ x, scanToken (p ++ x) w.chars w.quote w.quotes = some { sc with str := sc.str ++ x }) ∨
    (∀ x, scanToken (p ++ x) w.chars w.quote w.quotes = none) ∨
    (((p.foldl OpenWord.next w).chars.length ≤ tokensize - 1 ∧
        ((p.foldl OpenWord.next w).begun = true ∨ p = [])) ∧
      ∀ x, scanToken (p ++ x) w.chars w.quote w.quotes =
        scanToken x (p.foldl OpenWord.next w).chars (p.foldl OpenWord.next w).quote
          (p.foldl OpenWord.next w).quotes) := by
  induction p generalizing w with
  | nil => exact Or.inr (Or.inr ⟨⟨hw, Or.inr rfl⟩, fun _ => rfl⟩)
  | cons c p ih =>
    obtain ⟨q, b, a, begun⟩ := w
    dsimp only at hw
    by_cases hspace : q = 0 ∧ isspace c = true
    · -- a blank ends the word
      refine Or.inl ⟨⟨c :: p, b, q, a⟩, hspace.1, ?_, fun x => scanToken_space hspace.1 hspace.2⟩
      rw [wordAt, List.foldl_cons, List.foldl_cons, OpenWord.next_end hspace.1 (Or.inl hspace.2),
        OpenWord.next_end rfl (Or.inl hspace.2)]
    · by_cases hlong : c ≠ 34 ∧ b.length ≥ tokensize - 1
      · exact Or.inr (Or.inl fun x => scanToken_long hlong.1 hspace hlong.2)
      · by_cases hsep : q = 0 ∧ isSeparator c = true
        · -- a separator ends the word, or is a token
          obtain ⟨rfl, hc⟩ := hsep
          have hlen : ¬ b.length ≥ tokensize - 1 := fun h => hlong ⟨(isSeparator_ne hc).1, h⟩
          have hnext := OpenWord.next_end (w := ⟨0, b, a, begun⟩) rfl (Or.inr hc)
          by_cases hb : b = []
          · subst hb
            refine Or.inl ⟨⟨p, [c], 0, a⟩, rfl, ?_, fun x => scanToken_alone hc⟩
            rw [wordAt, List.foldl_cons, hnext]
          · refine Or.inl ⟨⟨c :: p, b, 0, a⟩, rfl, ?_, fun x => scanToken_stop hc hlen hb⟩
            rw [wordAt, List.foldl_cons, List.foldl_cons, hnext,
              OpenWord.next_end rfl (Or.inr hc)]
        · have hend : ¬ (q = 0 ∧ (isspace c = true ∨ isSeparator c = true)) := by
            rintro ⟨hq, h | h⟩
            · exact hspace ⟨hq, h⟩
            · exact hsep ⟨hq, h⟩
          have hroom : c = 34 ∨ ¬ b.length ≥ tokensize - 1 := by
            rw [not_and_or, not_not] at hlong
            exact hlong
          have hnext := fun s => scanToken_next (s := s) (a := a) begun hend hroom rfl
          have hfits := (hnext p).2.2 hw
          simp only [List.cons_append, List.foldl_cons, (hnext _).1]
          rcases ih (OpenWord.next ⟨q, b, a, begun⟩ c) hfits with h | h | ⟨⟨hlen, hbegun⟩, h⟩
          · exact Or.inl h
          · exact Or.inr (Or.inl h)
          · refine Or.inr (Or.inr ⟨⟨hlen, Or.inl ?_⟩, h⟩)
            rcases hbegun with hbegun | rfl
            · exact hbegun
            · exact (hnext []).2.1

/-- The tokens behind a scan. -/
def afterScan : Option Scanned → List Token × TokenType
  | none => ([], .tokError)
  | some sc =>
    if sc.quoteState ≠ 0 then ([], .tokError)
    else (⟨tokenType sc.anyQuotes sc.buffer, sc.buffer⟩ :: (tokens sc.str).1, (tokens sc.str).2)

/-- The tokens of a text, by the first of them. -/
theorem tokens_eq (p : List UInt8) :
    tokens p = if (p.dropWhile isspace).isEmpty then ([], .tokEnd)
      else afterScan (scanToken (p.dropWhile isspace) [] 0 false) := by
  cases hskip : p.dropWhile isspace with
  | nil =>
    have hget : ∀ last, parseGettoken ⟨p, last⟩ = (⟨.tokEnd, []⟩, ⟨p, some p⟩) := by
      intro last
      simp only [parseGettoken, hskip]
    simp [tokens, tokensAux, hget]
  | cons c s =>
    rw [List.isEmpty_cons, if_neg (by simp)]
    cases hscan : scanToken (c :: s) [] 0 false with
    | none =>
      have hget : ∀ last, parseGettoken ⟨p, last⟩ = (⟨.tokError, []⟩, ⟨p, last⟩) := by
        intro last
        simp only [parseGettoken, hskip, hscan]
      simp [tokens, tokensAux, hget, afterScan]
    | some sc =>
      by_cases hq : sc.quoteState ≠ 0
      · have hget : ∀ last, parseGettoken ⟨p, last⟩ = (⟨.tokError, []⟩, ⟨p, last⟩) := by
          intro last
          simp only [parseGettoken, hskip, hscan, if_pos hq]
        simp [tokens, tokensAux, hget, afterScan, hq]
      · have hget : parseGettoken ⟨p, none⟩ =
            (⟨tokenType sc.anyQuotes sc.buffer, sc.buffer⟩, ⟨sc.str, some p⟩) := by
          simp only [parseGettoken, hskip, hscan, if_neg hq]
        rw [afterScan, if_neg hq]
        exact tokens_of_parseGettoken hget
          ⟨tokenType_ne _ _ (Or.inl rfl), tokenType_ne _ _ (Or.inr rfl)⟩

theorem tokens_nil : tokens [] = ([], .tokEnd) := tokens_eq []

theorem tokens_word (hc : isspace c = false) :
    tokens (c :: s) = afterScan (scanToken (c :: s) [] 0 false) := by
  have hskip : (c :: s).dropWhile isspace = c :: s := by simp [hc]
  rw [tokens_eq, hskip, List.isEmpty_cons, if_neg (by simp)]

/-- Blanks before the tokens do not matter. -/
theorem tokens_space (hc : isspace c = true) : tokens (c :: s) = tokens s := by
  have hskip : (c :: s).dropWhile isspace = s.dropWhile isspace := by simp [hc]
  rw [tokens_eq, tokens_eq s, hskip]

theorem tokens_blanks (b : List UInt8) (hb : ∀ c ∈ b, isspace c = true) (s : List UInt8) :
    tokens (b ++ s) = tokens s := by
  induction b with
  | nil => rfl
  | cons c b ih =>
    obtain ⟨hc, hb⟩ := List.forall_mem_cons.mp hb
    rw [List.cons_append, tokens_space hc, ih hb]

theorem tokens_separator (hc : isSeparator c = true) :
    tokens (c :: s) = (⟨separatorType c, [c]⟩ :: (tokens s).1, (tokens s).2) := by
  rw [tokens_word (isSeparator_ne hc).2.2, scanToken_alone hc]
  have htype : tokenType false [c] = separatorType c := by
    rcases isSeparator_iff.mp hc with rfl | rfl | rfl <;> decide
  simp [afterScan, htype]

/-! ## The tokens of a text with more behind it -/

/-- The tokens of the text `x` behind the word `w`. -/
def tokensFrom (w : OpenWord) (x : List UInt8) : List Token × TokenType :=
  if w.begun then afterScan (scanToken x w.chars w.quote w.quotes) else tokens x

/-- The tokens `ts` before a stream. -/
def prepend (ts : List Token) (r : List Token × TokenType) : List Token × TokenType :=
  (ts ++ r.1, r.2)

/-- The stream has an error inside `pre`, or some tokens of `pre` and then what the word at its end
and the text behind it give. -/
theorem tokens_append (pre : List UInt8) :
    (∃ ts, ∀ x, tokens (pre ++ x) = (ts, .tokError)) ∨
      ((wordAt pre).chars.length ≤ tokensize - 1 ∧
        ∃ ts, ∀ x, tokens (pre ++ x) = prepend ts (tokensFrom (wordAt pre) x)) := by
  induction hn : pre.length using Nat.strongRecOn generalizing pre with
  | ind n ih =>
    cases pre with
    | nil => exact Or.inr ⟨Nat.zero_le _, [], fun x => rfl⟩
    | cons c s =>
      by_cases hc : isspace c = true
      · -- a blank before the tokens
        have hword : wordAt (c :: s) = wordAt s := by
          rw [wordAt, List.foldl_cons, OpenWord.next_end rfl (Or.inl hc)]
          rfl
        rw [hword]
        simp only [List.cons_append, tokens_space hc]
        exact ih s.length (by rw [← hn]; exact Nat.lt_succ_self _) s rfl
      · have hc : isspace c = false := by simpa using hc
        have hscan := scanToken_append (c :: s) .blank (Nat.zero_le _)
        simp only [List.cons_append, tokens_word hc]
        rcases hscan with ⟨sc, hq, hword, hscan⟩ | hscan | ⟨⟨hlen, hbegun⟩, hscan⟩
        · -- the first token ends inside `pre`
          have hlt : sc.str.length < n := by
            have h := hscan []
            simp only [List.append_nil] at h
            rw [← hn]
            exact scanToken_length_lt hc h
          have hrest : ∀ x, afterScan (scanToken (c :: (s ++ x)) [] 0 false) =
              prepend [⟨tokenType sc.anyQuotes sc.buffer, sc.buffer⟩] (tokens (sc.str ++ x)) := by
            intro x
            rw [show scanToken (c :: (s ++ x)) [] 0 false = _ from hscan x]
            simp [afterScan, hq, prepend]
          simp only [hrest]
          rw [show wordAt (c :: s) = wordAt sc.str from hword]
          rcases ih sc.str.length hlt sc.str rfl with ⟨ts, hts⟩ | ⟨hlen, ts, hts⟩
          · exact Or.inl ⟨_ :: ts, fun x => by rw [hts x]; rfl⟩
          · exact Or.inr ⟨hlen, _ :: ts, fun x => by rw [hts x]; rfl⟩
        · refine Or.inl ⟨[], fun x => ?_⟩
          rw [show scanToken (c :: (s ++ x)) [] 0 false = none from hscan x]
          rfl
        · have hbegun : (wordAt (c :: s)).begun = true := hbegun.resolve_right (by simp)
          refine Or.inr ⟨hlen, [], fun x => ?_⟩
          rw [show scanToken (c :: (s ++ x)) [] 0 false = _ from hscan x]
          simp only [tokensFrom, hbegun, if_true, prepend, List.nil_append]
          rfl

/-! ## Separators -/

variable {w : OpenWord}

/-- The text ends behind a word. -/
theorem tokensFrom_nil (hq : w.quote = 0) :
    tokensFrom w [] = (if w.begun then [w.token] else [], .tokEnd) := by
  unfold tokensFrom
  by_cases hbegun : w.begun = true
  · simp [hbegun, scanToken, afterScan, hq, tokens_nil, OpenWord.token]
  · simp [hbegun, tokens_nil]

/-- A blank behind a word. -/
theorem tokensFrom_space (hq : w.quote = 0) (hc : isspace c = true) :
    tokensFrom w (c :: s) = prepend (if w.begun then [w.token] else []) (tokens s) := by
  unfold tokensFrom
  by_cases hbegun : w.begun = true
  · rw [if_pos hbegun, hq, scanToken_space rfl hc]
    simp only [afterScan, hbegun, if_true, ne_eq, not_true_eq_false, if_false, tokens_space hc]
    rfl
  · simp only [hbegun]
    exact tokens_space hc

/-- A separator behind a word that has characters, and room for one more. -/
theorem tokensFrom_separator (hq : w.quote = 0) (hc : isSeparator c = true)
    (hw : w.begun = true → w.chars ≠ [] ∧ w.chars.length < tokensize - 1) :
    tokensFrom w (c :: s) = prepend (if w.begun then [w.token] else []) (tokens (c :: s)) := by
  unfold tokensFrom
  by_cases hbegun : w.begun = true
  · obtain ⟨hne, hlen⟩ := hw hbegun
    rw [if_pos hbegun, hq, scanToken_stop hc (Nat.not_le.mpr hlen) hne]
    simp only [afterScan, hbegun, if_true, ne_eq, not_true_eq_false, if_false]
    rfl
  · simp only [hbegun]
    rfl

/-- A separator behind a word without room for it. -/
theorem tokensFrom_full (hc : isSeparator c = true) (hbegun : w.begun = true)
    (hlen : w.chars.length = tokensize - 1) : tokensFrom w (c :: s) = ([], .tokError) := by
  obtain ⟨h34, -, hspace⟩ := isSeparator_ne hc
  rw [tokensFrom, if_pos hbegun, scanToken_long h34 (by simp [hspace]) (Nat.le_of_eq hlen.symm)]
  rfl

/-- A separator behind a word of quotes only becomes the word. -/
theorem tokensFrom_quotes (hq : w.quote = 0) (hc : isSeparator c = true) (hbegun : w.begun = true)
    (hchars : w.chars = []) :
    tokensFrom w (c :: s) = (⟨tokenType w.quotes [c], [c]⟩ :: (tokens s).1, (tokens s).2) := by
  rw [tokensFrom, if_pos hbegun, hq, hchars, scanToken_alone hc]
  rfl

/-- The separator `c` behind `pre` is one token, the characters of the same word before it are
another, and the tokens before and behind are those of the two parts. -/
structure StandsAlone (pre : List UInt8) (c : UInt8) (rest : List UInt8) : Prop where
  word : (wordAt pre).begun = true → (tokens pre).1.getLast? = some (wordAt pre).token
  split : tokens (pre ++ c :: rest) =
    ((tokens pre).1 ++ ⟨separatorType c, [c]⟩ :: (tokens rest).1, (tokens rest).2)

/-- Blanks around `c` do not change the tokens. -/
def BlanksFree (pre : List UInt8) (c : UInt8) (rest : List UInt8) : Prop :=
  ∀ b b', (∀ d ∈ b, isspace d = true) → (∀ d ∈ b', isspace d = true) →
    tokens (pre ++ b ++ c :: (b' ++ rest)) = tokens (pre ++ c :: rest)

/-- The text is read without an error, and the word it ends in consists of quotes only or is as long
as a token can be. -/
def Blocks (pre : List UInt8) : Prop :=
  (tokens pre).2 = .tokEnd ∧ (wordAt pre).begun = true ∧
    ((wordAt pre).chars = [] ∨ (wordAt pre).chars.length = tokensize - 1)

section

variable {pre rest : List UInt8} {ts : List Token}
  (hts : ∀ x, tokens (pre ++ x) = prepend ts (tokensFrom (wordAt pre) x))
  (hq : (wordAt pre).quote = 0) (hc : isSeparator c = true)
  (hok : (wordAt pre).begun = true →
    (wordAt pre).chars ≠ [] ∧ (wordAt pre).chars.length < tokensize - 1)

include hts hq

theorem tokens_of_append : tokens pre =
    prepend ts (if (wordAt pre).begun then [(wordAt pre).token] else [], .tokEnd) := by
  rw [← tokensFrom_nil hq]
  simpa using hts []

include hc hok

/-- The word ends before the separator, and the stream goes on with it. -/
theorem tokens_split (rest : List UInt8) : tokens (pre ++ c :: rest) = prepend ts
    (prepend (if (wordAt pre).begun then [(wordAt pre).token] else []) (tokens (c :: rest))) := by
  rw [hts, tokensFrom_separator hq hc hok]

theorem standsAlone_of_split : StandsAlone pre c rest := by
  refine ⟨fun hbegun => ?_, ?_⟩
  · rw [tokens_of_append hts hq]
    simp [prepend, hbegun]
  · rw [tokens_split hts hq hc hok, tokens_of_append hts hq, tokens_separator hc]
    simp [prepend]

theorem blanksFree_of_split : BlanksFree pre c rest := by
  intro b b' hb hb'
  cases b with
  | nil =>
    rw [List.append_nil, tokens_split hts hq hc hok, tokens_split hts hq hc hok,
      tokens_separator hc, tokens_separator hc, tokens_blanks b' hb']
  | cons d b =>
    obtain ⟨hd, hb⟩ := List.forall_mem_cons.mp hb
    rw [List.append_assoc, hts, List.cons_append, tokensFrom_space hq hd, tokens_blanks b hb,
      tokens_split hts hq hc hok, tokens_separator hc, tokens_separator hc, tokens_blanks b' hb']

end

/-- Outside quotes a separator stands alone, unless an error ends the tokens before it, and blanks
around it do not matter; except behind a word of quotes only and a word of `TOKENSIZE - 1`
characters. -/
theorem standsAlone_iff (pre : List UInt8) (hc : isSeparator c = true) (hq : quoteAt pre = 0)
    (rest : List UInt8) :
    (((tokens pre).2 = .tokEnd → StandsAlone pre c rest) ∧ BlanksFree pre c rest) ↔
      ¬ Blocks pre := by
  rw [← wordAt_quote] at hq
  rcases tokens_append pre with ⟨ts, hts⟩ | ⟨hlen, ts, hts⟩
  · -- the error stands before the separator
    have hpre : tokens pre = (ts, .tokError) := by simpa using hts []
    refine iff_of_true ⟨fun hend => ?_, fun b b' _ _ => ?_⟩ fun hblocks => ?_
    · rw [hpre] at hend
      exact absurd hend (by simp)
    · rw [List.append_assoc, hts, hts]
    · have hend := hblocks.1
      rw [hpre] at hend
      exact absurd hend (by simp)
  · by_cases hok : (wordAt pre).begun = true →
        (wordAt pre).chars ≠ [] ∧ (wordAt pre).chars.length < tokensize - 1
    · refine iff_of_true ⟨fun _ => standsAlone_of_split hts hq hc hok,
        blanksFree_of_split hts hq hc hok⟩ ?_
      · rintro ⟨-, hbegun, hbad⟩
        obtain ⟨hne, hlt⟩ := hok hbegun
        rcases hbad with hnil | hfull
        · exact hne hnil
        · exact absurd hfull (Nat.ne_of_lt hlt)
    · have hbegun : (wordAt pre).begun = true := by
        by_contra hb
        exact hok fun h => absurd h hb
      have hbad : (wordAt pre).chars = [] ∨ (wordAt pre).chars.length = tokensize - 1 := by
        by_contra hno
        rw [not_or] at hno
        exact hok fun _ => ⟨hno.1, Nat.lt_of_le_of_ne hlen hno.2⟩
      have hpre := tokens_of_append hts hq
      have hend : (tokens pre).2 = .tokEnd := by rw [hpre]; rfl
      refine iff_of_false ?_ (not_not.mpr ⟨hend, hbegun, hbad⟩)
      rintro ⟨halone, -⟩
      -- the stream is at least one token short
      have hsplit := (halone hend).split
      rw [hts, hpre, if_pos hbegun] at hsplit
      have hcount := congrArg (fun r => r.1.length) hsplit
      rcases hbad with hnil | hfull
      · rw [tokensFrom_quotes hq hc hbegun hnil] at hcount
        simp [prepend] at hcount
      · rw [tokensFrom_full hc hbegun hfull] at hcount
        simp [prepend] at hcount

/-- `a;b`. -/
theorem standsAlone_word : StandsAlone [97] 59 [98] ∧ BlanksFree [97] 59 [98] := by
  have h := (standsAlone_iff [97] (c := 59) rfl rfl [98]).mpr ?_
  · exact ⟨h.1 (by decide +kernel), h.2⟩
  · rintro ⟨-, -, h | h⟩
    · exact absurd h (by decide)
    · exact absurd h (by decide)

/-- `""(`: the parenthesis becomes a word. -/
theorem quotes_take_separator :
    ¬ ∀ pre c rest, isSeparator c = true → quoteAt pre = 0 →
      ((tokens pre).2 = .tokEnd → StandsAlone pre c rest) ∧ BlanksFree pre c rest := by
  intro h
  have halone := (h [34, 34] 40 [] rfl rfl).1 (by decide +kernel)
  have htoks : tokens [34, 34, 40] = ([⟨.tokNormal, [40]⟩], .tokEnd) := by decide +kernel
  have hpre : tokens [34, 34] = ([⟨.tokNormal, []⟩], .tokEnd) := by decide +kernel
  have hsplit := halone.split
  rw [show [34, 34] ++ [(40 : UInt8)] = [34, 34, 40] from rfl, htoks, hpre, tokens_nil] at hsplit
  exact absurd hsplit (by decide)

end SystemsProjects.Cmdparse
