import SystemsProjects.Cmdparse.Reading

/-!
# When the parser returns

On a line without `TOK_ERROR` the parser returns, and the automaton says whether it returns a
list. On an error as the first token `parse_ungettoken` fails its assertion. On a later error the
parser returns unless the token before the error is an opening parenthesis that `cmd_parse` takes
for the start of a subshell: then `parse_ungettoken` goes back before that parenthesis again and
again.
-/

namespace SystemsProjects.Cmdparse

open SystemsProjects.Lib

variable {f : Level} {outer : List Level} {t tn : TokenType} {r : List TokenType} {a : Stack}

/-- The tokens of a line are neither `TOK_END` nor `TOK_ERROR`. -/
def Proper (ts : List TokenType) : Prop := ∀ t ∈ ts, t ≠ .tokEnd ∧ t ≠ .tokError

theorem types_proper (line : List UInt8) : Proper (types line) := by
  intro t ht
  obtain ⟨tok, htok, rfl⟩ := List.mem_map.mp ht
  exact (tokens_proper line).2 tok htok

theorem Proper.suffix (h : Proper r) {r' : List TokenType} (hsuf : r' <:+ r) : Proper r' :=
  fun t ht => h t (hsuf.subset ht)

/-! ## Lines without an error -/

/-- Whether the automaton accepts the tokens `r` from a state. -/
def Reader.verdict (s : Reader) (r : List TokenType) : Bool :=
  match r.foldlM Reader.feed s with
  | some s' => s'.finish
  | none => false

/-- An open level at the end of the line is given up. -/
theorem finish_drop (f g : Level) (outer : List Level) (mode : Mode) :
    Reader.finish ⟨f, g :: outer, mode⟩ = Reader.finish ⟨g.drop, outer, .command⟩ := by
  cases outer with
  | nil => simp [Reader.finish, Level.drop, Level.isEmpty, bne]
  | cons h outer =>
    obtain ⟨b, hb⟩ := Option.ne_none_iff_exists'.mp
      (mt List.getLast?_eq_none_iff.mp (List.cons_ne_nil h outer))
    simp only [Reader.finish, List.getLast?_cons_cons, hb]

/-- The level ends at the end of the line. -/
theorem ends_resume_end {s : Reader} {ok : Bool}
    (hnil : s.outer = [] → ok = s.finish) (hcons : s.outer ≠ [] → ok = false)
    (ih : ∀ f outer, outer.length < s.outer.length →
      Ends (Stack.step none) (.inl ⟨f, outer, []⟩) (Reader.finish ⟨f, outer, .command⟩)) :
    Ends (Stack.step none) (Stack.resume s.outer ok []) s.finish := by
  obtain ⟨f, outer, mode⟩ := s
  cases outer with
  | nil => exact ends_inr.mpr (hnil rfl).symm
  | cons g outer =>
    rw [hcons (by simp), finish_drop]
    exact ih g.drop outer (by simp)

/-- The last token looks ahead and finds the end of the line. -/
theorem ends_lookahead {t : TokenType} {f : Level} {outer : List Level}
    (hlook : looksAhead t = true) (hempty : f.isEmpty = false)
    (ih : ∀ f' outer', outer'.length < outer.length →
      Ends (Stack.step none) (.inl ⟨f', outer', []⟩) (Reader.finish ⟨f', outer', .command⟩)) :
    Ends (Stack.step none) (.inl ⟨f, outer, [t]⟩) (Reader.verdict ⟨f, outer, .command⟩ [t]) := by
  have hpop : ∀ {s : Reader} {ok : Bool}, s.outer = outer → (outer = [] → ok = s.finish) →
      (outer ≠ [] → ok = false) → Ends (Stack.step none) (Stack.resume outer ok []) s.finish := by
    rintro s ok rfl hnil hcons
    exact ends_resume_end hnil hcons ih
  rcases looksAhead_cases f outer hlook hempty with ⟨hmove, hfeed⟩ | ⟨hmove, hfeed⟩
  · have hverdict : Reader.verdict ⟨f, outer, .command⟩ [t] = Reader.finish ⟨f, outer, .file⟩ := by
      simp [Reader.verdict, List.foldlM_cons, hfeed]
    rw [ends_inl, Stack.step, hmove, redirectMove, hempty, hverdict]
    refine hpop rfl ?_ fun _ => rfl
    rintro rfl
    rfl
  · have hverdict : Reader.verdict ⟨f, outer, .command⟩ [t] =
        Reader.finish ⟨.blank, outer, .separator⟩ := by
      simp [Reader.verdict, List.foldlM_cons, hfeed]
    rw [ends_inl, Stack.step, hmove, separatorMove, hverdict]
    refine hpop rfl ?_ ?_
    · rintro rfl
      rfl
    · intro hne
      simp [hne]

/-- On a line that ends with `TOK_END` the machine halts with the verdict of the automaton. -/
theorem ends_verdict (a : Stack) (hp : Proper a.rest) :
    Ends (Stack.step none) (.inl a) (a.reader.verdict a.rest) := by
  induction hn : a.size using Nat.strongRecOn generalizing a with
  | ind n ih =>
    subst hn
    obtain ⟨f, outer, rest⟩ := a
    -- levels that end at the end of the line
    have hshort : ∀ f' outer', outer'.length < 2 * rest.length + outer.length →
        Ends (Stack.step none) (.inl ⟨f', outer', []⟩) (Reader.finish ⟨f', outer', .command⟩) := by
      intro f' outer' hlt
      exact ih _ (by simpa [Stack.size] using hlt) ⟨f', outer', []⟩ (by simp [Proper]) rfl
    cases rest with
    | nil =>
      rw [ends_inl]
      refine ends_resume_end (s := ⟨f, outer, .command⟩) ?_ ?_ ?_
      · rintro rfl
        simp [Reader.finish]
      · intro hne
        simp [hne]
      · intro f' outer' hlt
        exact hshort f' outer' (by simpa using hlt)
    | cons t r =>
      obtain ⟨⟨hend, herror⟩, hp'⟩ := List.forall_mem_cons.mp hp
      by_cases hlook : looksAhead t = true → f.isEmpty = false → r ≠ []
      · have hfollows : Follows none ⟨f, outer, t :: r⟩ (t :: r) [] := by
          simpa using step_follows none f outer r [] hend herror hlook
        rcases hfollows with ⟨hstep, hfold⟩ | ⟨a', r', hstep, ha', hsuf, hsize, hfold⟩
        · rw [ends_inl, hstep, ends_inr, Reader.verdict, hfold]
        · rw [List.append_nil] at ha'
          rw [ends_inl, hstep, Reader.verdict, ← hfold]
          have hends := ih _ hsize a' (ha' ▸ hp.suffix hsuf) rfl
          rwa [Reader.verdict, ha'] at hends
      · simp only [Classical.not_imp, not_not] at hlook
        obtain ⟨hlook, hempty, rfl⟩ := hlook
        refine ends_lookahead hlook hempty fun f' outer' hlt => hshort f' outer' ?_
        simp only [List.length_cons]
        omega

/-! ## Errors that do not follow an opening parenthesis -/

/-- What `cmd_line_parse` does when it reads the token before the error once more. -/
theorem connectMove_last (tn : TokenType) (nested : Bool) :
    (∃ ok, connectMove (some tn) nested tn [] = .ret ok []) ∨
    connectMove (some tn) nested tn [] = .again .blank [] ∨
    (connectMove (some tn) nested tn [] = .again .blank [tn] ∧
      ∀ e nested, move e nested .blank [tn] = .ret false [tn]) := by
  cases tn with
  | tokDoubleamp | tokDoublepipe | tokPipe => exact Or.inr (Or.inl rfl)
  | tokSemicolon | tokAmpersand => exact Or.inr (Or.inr ⟨rfl, fun _ _ => rfl⟩)
  | tokEnd | tokError | tokNormal | tokLessThan | tokGreaterThan | tok2GreaterThan | tokOpenParen
  | tokCloseParen => exact Or.inl ⟨_, rfl⟩

section popped
variable (hpop : ∀ ok, ∀ rest ∈ [[], [tn]],
  Halts (Stack.step (some tn)) (Stack.resume outer ok rest))
include hpop

theorem halts_blank_of_pop (hempty : f.isEmpty = true) :
    Halts (Stack.step (some tn)) (.inl ⟨f, outer, []⟩) := by
  simp only [halts_inl, Stack.step, move, hempty, if_true, Effect.after]
  exact hpop false [tn] (by simp)

theorem halts_connect_of_pop (f : Level) :
    Halts (Stack.step (some tn))
      ((connectMove (some tn) (!outer.isEmpty) tn []).after f outer) := by
  rcases connectMove_last tn (!outer.isEmpty) with ⟨ok, h⟩ | h | ⟨h, hmove⟩
  · rw [h]
    exact hpop ok [] (by simp)
  · rw [h]
    exact halts_blank_of_pop hpop rfl
  · rw [h, Effect.after, halts_inl, Stack.step, hmove]
    exact hpop false [tn] (by simp)

theorem halts_nil_of_pop (f : Level) : Halts (Stack.step (some tn)) (.inl ⟨f, outer, []⟩) := by
  cases hempty : f.isEmpty with
  | true => exact halts_blank_of_pop hpop hempty
  | false =>
    simp only [halts_inl, Stack.step, move, hempty]
    exact halts_connect_of_pop hpop f

theorem halts_last_of_pop (hparen : tn ≠ .tokOpenParen) (f : Level) :
    Halts (Stack.step (some tn)) (.inl ⟨f, outer, [tn]⟩) := by
  have hcontrol : (∀ nested, move (some tn) nested f [tn] =
      if f.isEmpty then .ret false [tn] else connectMove (some tn) nested tn []) →
      Halts (Stack.step (some tn)) (.inl ⟨f, outer, [tn]⟩) := by
    intro hmove
    simp only [halts_inl, Stack.step, hmove]
    cases f.isEmpty with
    | true => exact hpop false [tn] (by simp)
    | false => exact halts_connect_of_pop hpop f
  have hfail : (∀ nested, move (some tn) nested f [tn] = .ret false []) →
      Halts (Stack.step (some tn)) (.inl ⟨f, outer, [tn]⟩) := by
    intro hmove
    simp only [halts_inl, Stack.step, hmove]
    exact hpop false [] (by simp)
  cases tn with
  | tokOpenParen => exact absurd rfl hparen
  | tokNormal =>
    by_cases hfull : f.words ≥ maxtokens ∨ f.sub = true
    · exact hfail fun _ => by simp only [move, if_pos hfull]
    · simp only [halts_inl, Stack.step, move, if_neg hfull]
      exact halts_nil_of_pop hpop _
  | tokLessThan | tokGreaterThan | tok2GreaterThan =>
    refine hfail fun _ => ?_
    simp only [move, redirectMove, ite_self]
  | tokEnd | tokError | tokSemicolon | tokAmpersand | tokPipe | tokDoubleamp | tokDoublepipe
  | tokCloseParen => exact hcontrol fun _ => rfl

/-- A level halts with at most one token left, if the levels around it do. -/
theorem halts_of_pop (hparen : tn ≠ .tokOpenParen) (f : Level) :
    ∀ rest ∈ [[], [tn]], Halts (Stack.step (some tn)) (.inl ⟨f, outer, rest⟩) := by
  refine List.forall_mem_cons.mpr ⟨halts_nil_of_pop hpop f, List.forall_mem_cons.mpr ⟨?_, by simp⟩⟩
  exact halts_last_of_pop hpop hparen f

end popped

/-- With at most one token before the error, the machine halts: every level ends after a few
steps. -/
theorem halts_short (hparen : tn ≠ .tokOpenParen) (outer : List Level) (f : Level) :
    ∀ rest ∈ [[], [tn]], Halts (Stack.step (some tn)) (.inl ⟨f, outer, rest⟩) := by
  induction outer generalizing f with
  | nil => exact halts_of_pop (fun ok _ _ => halts_inr ok) hparen f
  | cons g outer ih => exact halts_of_pop (fun ok => ih { g with sub := ok }) hparen f

/-- On an error that does not follow an opening parenthesis the machine halts. -/
theorem halts_of_error (hparen : tn ≠ .tokOpenParen) (hp : Proper a.rest)
    (hlast : a.rest = [] ∨ a.rest.getLast? = some tn) :
    Halts (Stack.step (some tn)) (.inl a) := by
  refine halts_of_measure
    (P := fun a => Proper a.rest ∧ (a.rest = [] ∨ a.rest.getLast? = some tn))
    Stack.size ?_ ⟨hp, hlast⟩
  rintro ⟨f, outer, rest⟩ ⟨hp, hlast⟩
  cases rest with
  | nil => exact Or.inl (halts_short hparen outer f [] (by simp))
  | cons t r =>
    have htn : (t :: r).getLast? = some tn := hlast.resolve_left (by simp)
    by_cases hr : r = []
    · subst hr
      obtain rfl : t = tn := by simpa using htn
      exact Or.inl (halts_short hparen outer f [t] (by simp))
    · obtain ⟨⟨hend, herror⟩, -⟩ := List.forall_mem_cons.mp hp
      have hfollows : Follows (some tn) ⟨f, outer, t :: r⟩ (t :: r) [] := by
        simpa using step_follows (some tn) f outer r [] hend herror fun _ _ => hr
      rcases hfollows with ⟨hstep, -⟩ | ⟨a', r', hstep, ha', hsuf, hsize, -⟩
      · rw [halts_inl, hstep]
        exact Or.inl (halts_inr false)
      · rw [List.append_nil] at ha'
        subst ha'
        refine Or.inr ⟨a', hstep, ⟨hp.suffix hsuf, ?_⟩, hsize⟩
        by_cases hnil : a'.rest = []
        · exact Or.inl hnil
        · obtain ⟨u, hu⟩ := hsuf
          exact Or.inr (by rw [← htn, ← hu, List.getLast?_append_of_ne_nil _ hnil])

/-! ## Errors behind an opening parenthesis -/

/-- An opening parenthesis before the error, read as the start of a subshell: the machine opens
the level, goes back and opens it again. -/
theorem not_halts_paren (f : Level) (outer : List Level) :
    ¬ Halts (Stack.step (some .tokOpenParen)) (.inl ⟨f, outer, [.tokOpenParen]⟩) := by
  refine not_halts_of_cycle (P := fun a => ∃ f outer, a = ⟨f, outer, [.tokOpenParen]⟩ ∨
    a = ⟨.blank, f :: outer, []⟩) ?_ ⟨f, outer, Or.inl rfl⟩
  rintro a ⟨f, outer, rfl | rfl⟩
  · exact ⟨_, rfl, f, outer, Or.inr rfl⟩
  · exact ⟨_, rfl, f.drop, outer, Or.inl rfl⟩

/-- A parenthesis that was taken for a file name ends its level. A level around it that has words
reads the parenthesis again and ends, too; one without words leaves it to the next level, which
opens it. -/
theorem halts_resume_paren (outer : List Level) :
    Halts (Stack.step (some .tokOpenParen)) (Stack.resume outer false []) ↔
      ∀ g ∈ outer.dropLast, g.words ≠ 0 := by
  induction outer with
  | nil => exact iff_of_true (halts_inr false) (by simp)
  | cons g outer ih =>
    have hdrop : g.drop.isEmpty = (g.words == 0) := by simp [Level.drop, Level.isEmpty]
    change Halts (Stack.step (some .tokOpenParen)) (.inl (⟨g.drop, outer, []⟩ : Stack)) ↔ _
    by_cases hg : g.words = 0
    · have hstep : Stack.step (some .tokOpenParen) ⟨g.drop, outer, []⟩ =
          Stack.resume outer false [.tokOpenParen] := by
        simp [Stack.step, Effect.after, move, hdrop, hg]
      rw [halts_inl, hstep]
      cases outer with
      | nil => exact iff_of_true (halts_inr false) (by simp)
      | cons h outer => exact iff_of_false (not_halts_paren _ _) (by simp [hg])
    · have hstep : Stack.step (some .tokOpenParen) ⟨g.drop, outer, []⟩ =
          Stack.resume outer false [] := by
        simp [Stack.step, Effect.after, move, hdrop, hg, connectMove]
      rw [halts_inl, hstep, ih]
      cases outer with
      | nil => simp
      | cons h outer => simp [hg]

/-- From a state of the automaton, the tokens `r` lead to a place where an opening parenthesis
before an error makes the parser loop. -/
def Reader.LoopsAfter (s : Reader) (r : List TokenType) : Prop :=
  ∃ s', r.foldlM Reader.feed s = some s' ∧ (s'.mode = .file → ∃ g ∈ s'.outer.dropLast, g.words = 0)

theorem halts_iff_paren (a : Stack) (hrest : a.rest = r ++ [.tokOpenParen]) (hp : Proper a.rest) :
    Halts (Stack.step (some .tokOpenParen)) (.inl a) ↔ ¬ a.reader.LoopsAfter r := by
  induction hn : a.size using Nat.strongRecOn generalizing a r with
  | ind n ih =>
    subst hn
    obtain ⟨f, outer, rest⟩ := a
    obtain rfl : rest = r ++ [.tokOpenParen] := hrest
    cases r with
    | nil =>
      refine iff_of_false (not_halts_paren f outer) (not_not.mpr ⟨_, rfl, ?_⟩)
      intro hmode
      exact absurd hmode (by simp [Stack.reader])
    | cons t r =>
      obtain ⟨⟨hend, herror⟩, -⟩ := List.forall_mem_cons.mp hp
      by_cases hlook : looksAhead t = true → f.isEmpty = false → r ≠ []
      · rcases step_follows (some .tokOpenParen) f outer r [.tokOpenParen] hend herror hlook with
          ⟨hstep, hfold⟩ | ⟨a', r', hstep, ha', hsuf, hsize, hfold⟩
        · rw [halts_inl, hstep]
          refine iff_of_true (halts_inr false) ?_
          rintro ⟨s', hs', -⟩
          rw [hfold] at hs'
          exact absurd hs' (by simp)
        · have hp' : Proper a'.rest := by
            obtain ⟨u, hu⟩ := hsuf
            exact hp.suffix ⟨u, by rw [ha', ← List.append_assoc, hu]⟩
          rw [halts_inl, hstep, ih _ hsize a' ha' hp' rfl, Reader.LoopsAfter, hfold,
            Reader.LoopsAfter]
      · -- the token before the parenthesis looks ahead
        simp only [Classical.not_imp, not_not] at hlook
        obtain ⟨hlook, hempty, rfl⟩ := hlook
        rcases looksAhead_cases f outer hlook hempty with ⟨hmove, hfeed⟩ | ⟨hmove, hfeed⟩
        · have hstep : Stack.step (some .tokOpenParen) ⟨f, outer, [t] ++ [.tokOpenParen]⟩ =
              Stack.resume outer false [] := by
            simp [Stack.step, Effect.after, hmove, redirectMove, hempty]
          rw [halts_inl, hstep, halts_resume_paren]
          simp [Reader.LoopsAfter, List.foldlM_cons, Stack.reader, hfeed]
        · have hstep : Stack.step (some .tokOpenParen) ⟨f, outer, [t] ++ [.tokOpenParen]⟩ =
              .inl ⟨.blank, outer, [.tokOpenParen]⟩ := by
            simp [Stack.step, Effect.after, hmove, separatorMove]
          rw [halts_inl, hstep]
          refine iff_of_false (not_halts_paren _ _) ?_
          simp [Reader.LoopsAfter, List.foldlM_cons, Stack.reader, hfeed]

/-! ## Lines -/

/-- The last token is an opening parenthesis, and the tokens before it do not make the outermost
command fail. It is not taken for the file name of a redirection; or it is, and one of the levels
around that redirection, apart from the outermost, has no words. -/
def Loops (ts : List TokenType) : Prop :=
  ∃ r, ts = r ++ [.tokOpenParen] ∧ Reader.init.LoopsAfter r

theorem exists_returns_iff {line : List UInt8}
    (h : (tokens line).2 = .tokEnd ∨ types line ≠ []) :
    (∃ l, Returns line l) ↔
      Halts (Stack.step (lineEnd line)) (.inl (Stack.init (types line))) := by
  constructor
  · rintro ⟨l, hl⟩
    exact ⟨_, (returns_iff_stack h _).mp ⟨l, hl, rfl⟩⟩
  · rintro ⟨ok, hok⟩
    obtain ⟨l, hl, -⟩ := (returns_iff_stack h ok).mpr hok
    exact ⟨l, hl⟩

/-- Without an error, the parser returns, and the automaton says whether it returns a list. -/
theorem returns_of_end {line : List UInt8} (hend : (tokens line).2 = .tokEnd) :
    ∃ l, Returns line l ∧ (!l.isEmpty) = Reader.init.verdict (types line) := by
  refine (returns_iff_stack (Or.inl hend) _).mpr ?_
  rw [lineEnd, if_pos hend]
  exact ends_verdict (Stack.init (types line)) (types_proper line)

/-- With an error behind the first token, the parser returns unless it loops. -/
theorem returns_iff_of_error {line : List UInt8} (hend : (tokens line).2 ≠ .tokEnd)
    (hne : types line ≠ []) : (∃ l, Returns line l) ↔ ¬ Loops (types line) := by
  obtain ⟨tn, htn⟩ := Option.ne_none_iff_exists'.mp (mt List.getLast?_eq_none_iff.mp hne)
  rw [exists_returns_iff (Or.inr hne), lineEnd, if_neg hend, htn]
  by_cases hparen : tn = .tokOpenParen
  · subst hparen
    obtain ⟨r, hr⟩ := List.getLast?_eq_some_iff.mp htn
    rw [halts_iff_paren (Stack.init (types line)) hr (types_proper line)]
    refine not_congr ⟨fun h => ⟨r, hr, h⟩, ?_⟩
    rintro ⟨r', hr', h⟩
    obtain rfl : r = r' := List.append_cancel_right (hr.symm.trans hr')
    exact h
  · refine iff_of_true (halts_of_error hparen (types_proper line) (Or.inr htn)) ?_
    rintro ⟨r, hr, -⟩
    rw [hr, List.getLast?_concat, Option.some.injEq] at htn
    exact hparen htn.symm

/-- The parser returns on a line exactly when the line has no error token, or has one that is not
the first token and does not make it loop. -/
theorem returns_iff (line : List UInt8) :
    (∃ l, Returns line l) ↔
      (tokens line).2 = .tokEnd ∨ (types line ≠ [] ∧ ¬ Loops (types line)) := by
  by_cases hend : (tokens line).2 = .tokEnd
  · obtain ⟨l, hl, -⟩ := returns_of_end hend
    exact iff_of_true ⟨l, hl⟩ (Or.inl hend)
  · by_cases hnil : types line = []
    · refine iff_of_false ?_ (by simp [hend, hnil])
      rintro ⟨l, hl⟩
      exact not_returns_of_error hend hnil l hl
    · rw [returns_iff_of_error hend hnil]
      simp [hend, hnil]

/-- The parser loops on an opening parenthesis with a double quote behind it, and fails its
assertion on a double quote alone. -/
theorem not_returns_quote : (¬ ∃ l, Returns [40, 34] l) ∧ ¬ ∃ l, Returns [34] l := by
  have htoks : tokens [40, 34] = ([⟨.tokOpenParen, [40]⟩], .tokError) := by decide +kernel
  have htoks' : tokens [34] = ([], .tokError) := by decide +kernel
  refine ⟨?_, ?_⟩
  · have hne : types [40, 34] ≠ [] := by simp [types, htoks]
    rw [returns_iff_of_error (by simp [htoks]) hne, not_not, types, htoks]
    exact ⟨[], rfl, .init, rfl, by simp [Reader.init]⟩
  · rintro ⟨l, hl⟩
    exact not_returns_of_error (by simp [htoks']) (by simp [types, htoks']) l hl

end SystemsProjects.Cmdparse
