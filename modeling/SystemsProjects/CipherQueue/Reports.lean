import SystemsProjects.CipherQueue.Ciphered

/-!
# Which scripts are executed or reported to the end

A script of the ciphered queue program runs without a fault exactly when every line it comes to has
what its command needs, and a last line `dequeue` counts as a command only with its newline.
-/

namespace SystemsProjects.CipherQueue

open SystemsProjects.Lib

/-! ## The lines of a file -/

/-- The text is empty or ends with a newline. -/
def Ended (body : List UInt8) : Prop := body = [] ∨ ∃ b, body = b ++ [10]

theorem Ended.newline_cons {b : List UInt8} (h : Ended b) : Ended (10 :: b) := by
  rcases h with rfl | ⟨b, rfl⟩
  · exact Or.inr ⟨[], rfl⟩
  · exact Or.inr ⟨10 :: b, rfl⟩

theorem Ended.cons {b : List UInt8} (h : Ended b) (hne : b ≠ []) (c : UInt8) : Ended (c :: b) := by
  rcases h with hb | ⟨b, rfl⟩
  · exact absurd hb hne
  · exact Or.inr ⟨c :: b, rfl⟩

theorem getlines_newline_cons (s : List UInt8) : getlines (10 :: s) = [10] :: getlines s := by
  rw [getlines, if_pos rfl]

theorem getlines_eq_nil {s : List UInt8} (h : getlines s = []) : s = [] := by
  cases s with
  | nil => rfl
  | cons c s =>
    unfold getlines at h
    split_ifs at h
    split at h
    · exact absurd h (List.cons_ne_nil _ _)
    · exact absurd h (List.cons_ne_nil _ _)

/-- Any other character begins the first line. -/
theorem getlines_cons {c : UInt8} (hc : c ≠ 10) (s : List UInt8) :
    s = [] ∧ getlines (c :: s) = [[c]] ∨
      ∃ line lines, getlines s = line :: lines ∧ getlines (c :: s) = (c :: line) :: lines := by
  cases hs : getlines s with
  | nil =>
    refine Or.inl ⟨getlines_eq_nil hs, ?_⟩
    rw [getlines, if_neg hc, hs]
  | cons line lines =>
    refine Or.inr ⟨line, lines, rfl, ?_⟩
    rw [getlines, if_neg hc, hs]

theorem getlines_append_newline (b s : List UInt8) :
    getlines (b ++ 10 :: s) = getlines (b ++ [10]) ++ getlines s := by
  induction b with
  | nil =>
    rw [List.nil_append, List.nil_append, getlines_newline_cons, getlines_newline_cons, getlines]
    rfl
  | cons c b ih =>
    rw [List.cons_append, List.cons_append]
    by_cases hc : c = 10
    · rw [hc, getlines_newline_cons, getlines_newline_cons, ih]
      rfl
    · rcases getlines_cons hc (b ++ [10]) with ⟨hnil, -⟩ | ⟨line, lines, heq, hcons⟩
      · exact absurd hnil (List.append_ne_nil_of_right_ne_nil b (List.cons_ne_nil _ _))
      · rw [hcons, getlines, if_neg hc, ih, heq]
        rfl

/-- Behind an ended text the lines start anew. -/
theorem getlines_append {body : List UInt8} (h : Ended body) (s : List UInt8) :
    getlines (body ++ s) = getlines body ++ getlines s := by
  rcases h with rfl | ⟨b, rfl⟩
  · rfl
  · rw [List.append_assoc, List.singleton_append]
    exact getlines_append_newline b s

/-- A line without a newline is the last one, and what is before it is ended. -/
theorem getlines_unended {file line : List UInt8} {pre post : List (List UInt8)}
    (h : getlines file = pre ++ line :: post) (hline : 10 ∉ line) :
    ∃ body, Ended body ∧ file = body ++ line ∧ getlines body = pre ∧ post = [] := by
  induction file generalizing pre line with
  | nil => exact absurd h.symm (List.append_ne_nil_of_right_ne_nil pre (List.cons_ne_nil _ _))
  | cons c file ih =>
    by_cases hc : c = 10
    · subst hc
      rw [getlines_newline_cons] at h
      cases pre with
      | nil =>
        obtain ⟨rfl, -⟩ := List.cons.inj h
        exact absurd List.mem_cons_self hline
      | cons p pre =>
        obtain ⟨rfl, htail⟩ := List.cons.inj h
        obtain ⟨body, hended, rfl, hbody, hpost⟩ := ih htail hline
        refine ⟨10 :: body, hended.newline_cons, rfl, ?_, hpost⟩
        rw [getlines_newline_cons, hbody]
    · rcases getlines_cons hc file with ⟨rfl, hcons⟩ | ⟨line', lines, hfile, hcons⟩
      · rw [hcons] at h
        cases pre with
        | nil =>
          obtain ⟨rfl, rfl⟩ := List.cons.inj h
          exact ⟨[], Or.inl rfl, rfl, rfl, rfl⟩
        | cons p pre =>
          have hlen := (List.cons.inj h).2
          exact absurd hlen.symm (List.append_ne_nil_of_right_ne_nil pre (List.cons_ne_nil _ _))
      · rw [hcons] at h
        cases pre with
        | nil =>
          -- the line goes on in the rest of the file
          obtain ⟨rfl, rfl⟩ := List.cons.inj h
          rw [List.mem_cons, not_or] at hline
          have hfile' : getlines file = [] ++ line' :: lines := hfile
          obtain ⟨body, -, hfileeq, hbody, hpost⟩ := ih hfile' hline.2
          rw [getlines_eq_nil hbody, List.nil_append] at hfileeq
          exact ⟨[], Or.inl rfl, by rw [hfileeq]; rfl, rfl, hpost⟩
        | cons p pre =>
          obtain ⟨rfl, rfl⟩ := List.cons.inj h
          have hfile' : getlines file = (line' :: pre) ++ line :: post := hfile
          obtain ⟨body, hended, rfl, hbody, hpost⟩ := ih hfile' hline
          have hne : body ≠ [] := by
            rintro rfl
            exact absurd hbody.symm (List.cons_ne_nil _ _)
          refine ⟨c :: body, hended.cons hne c, rfl, ?_, hpost⟩
          rw [getlines, if_neg hc, hbody]

/-! ## The lines that a run comes to -/

/-- The run over `lines` from `st` comes to `line` in the state `st'`. -/
def Reached (st : State) (lines : List (List UInt8)) (st' : State) (line : List UInt8) : Prop :=
  ∃ pre post, lines = pre ++ line :: post ∧ pre.foldlM processLine2 st = .ok st'

section Run
variable {st st' : State} {l : List (Nat × List UInt8)} {line line' : List UInt8}
  {lines : List (List UInt8)}

theorem not_reached_nil : ¬Reached st [] st' line := by
  rintro ⟨pre, post, h, -⟩
  exact absurd h.symm (List.append_ne_nil_of_right_ne_nil pre (List.cons_ne_nil _ _))

theorem Reached.here (st : State) (line : List UInt8) (lines : List (List UInt8)) :
    Reached st (line :: lines) st line :=
  ⟨[], lines, rfl, rfl⟩

theorem Reached.next {st₁ : State} (hstep : processLine2 st line = .ok st₁)
    (h : Reached st₁ lines st' line') : Reached st (line :: lines) st' line' := by
  obtain ⟨pre, post, rfl, hpre⟩ := h
  refine ⟨line :: pre, post, rfl, ?_⟩
  rw [List.foldlM_cons, hstep]
  exact hpre

/-- A line that is come to is the first one, or is come to behind the first one. -/
theorem Reached.cases (h : Reached st (line :: lines) st' line') :
    st' = st ∧ line' = line ∨
      ∃ st₁, processLine2 st line = .ok st₁ ∧ Reached st₁ lines st' line' := by
  obtain ⟨pre, post, heq, hpre⟩ := h
  cases pre with
  | nil =>
    obtain ⟨rfl, -⟩ := List.cons.inj heq
    exact Or.inl ⟨(Except.ok.inj hpre).symm, rfl⟩
  | cons p pre =>
    obtain ⟨rfl, rfl⟩ := List.cons.inj heq
    rw [List.foldlM_cons] at hpre
    cases hstep : processLine2 st line with
    | error e =>
      rw [hstep] at hpre
      exact nomatch hpre
    | ok st₁ =>
      rw [hstep] at hpre
      exact Or.inr ⟨st₁, rfl, pre, post, rfl, hpre⟩

theorem Reached.holds (hq : Holds st.heap st.q l) (h : Reached st lines st' line) :
    ∃ l', Holds st'.heap st'.q l' := by
  obtain ⟨pre, post, -, hpre⟩ := h
  exact run_holds hq hpre

/-- A run faults at no line exactly when every line it comes to has what its command needs. -/
theorem run_not_faults_iff (hq : Holds st.heap st.q l) (lines : List (List UInt8)) :
    (∀ f, (lines.foldlM processLine2 st >>= finish) ≠ .error (.fault f)) ↔
      ∀ st' line, Reached st lines st' line → LineOk st'.q line := by
  induction lines generalizing st l with
  | nil =>
    constructor
    · intro _ st' line h
      exact absurd h not_reached_nil
    · intro _ f
      rw [List.foldlM_nil]
      change finish st ≠ _
      rw [finish_eq hq]
      exact nofun
  | cons line lines ih =>
    rw [List.foldlM_cons]
    rcases processLine2_cases hq line with ⟨hok, hreports⟩ | ⟨hbad, f, hfault⟩
    · rcases hreports with ⟨st₁, hstep, hexec⟩ | ⟨-, hexit⟩
      · obtain ⟨l₁, hq₁⟩ := hexec.holds
        rw [hstep, stop_bind, ih hq₁]
        constructor
        · intro hrest st' line' h
          rcases h.cases with ⟨rfl, rfl⟩ | ⟨st₂, hstep', h⟩
          · exact hok
          · rw [hstep] at hstep'
            obtain rfl := Except.ok.inj hstep'
            exact hrest st' line' h
        · intro hall st' line' h
          exact hall st' line' (h.next hstep)
      · rw [hexit]
        constructor
        · intro _ st' line' h
          rcases h.cases with ⟨rfl, rfl⟩ | ⟨st₂, hstep, -⟩
          · exact hok
          · rw [hexit] at hstep
            exact nomatch hstep
        · intro _ f
          exact nofun
    · rw [hfault]
      constructor
      · intro h
        exact absurd rfl (h f)
      · intro h
        exact absurd (h st line (Reached.here st line lines)) hbad

/-! ## The last line `dequeue` -/

/-- A line that is one word, and no ciphered command, goes to the queue commands. -/
theorem processLine2_word (st : State) {line tok : List UInt8}
    (hfirst : strtok 32 (cstring line) = some (tok, [])) (henc : tok ≠ encodeEnqueueWord)
    (hdec : tok ≠ dequeueDecodeWord) : processLine2 st line = queueAction st tok [] := by
  unfold processLine2
  rw [hfirst]
  dsimp only
  unfold cipheredAction
  rw [if_neg henc, if_neg hdec]

/-- Without its newline `dequeue` is an unknown command. -/
theorem processLine2_bare_dequeue (st : State) : processLine2 st dequeueWord = error st := by
  have hfirst : strtok 32 (cstring dequeueWord) = some (dequeueWord, []) := by decide
  rw [processLine2_word st hfirst (by decide) (by decide)]
  unfold queueAction
  rw [if_neg (by decide), if_neg (by decide), if_neg (by decide)]

theorem processLine2_dequeue (st : State) :
    processLine2 st (dequeueWord ++ [10]) = dequeueLine st := by
  have hfirst : strtok 32 (cstring (dequeueWord ++ [10])) = some (dequeueWord ++ [10], []) := by
    decide
  rw [processLine2_word st hfirst (by decide) (by decide)]
  unfold queueAction
  rw [if_neg (by decide), if_neg (by decide), if_pos rfl]

/-- `dequeue` as the last line of a file does what it does with its newline. -/
def LastDequeueSame (st : State) (file : List UInt8) : Prop :=
  ∀ body, Ended body → file = body ++ dequeueWord →
    runFile processLine2 st file = runFile processLine2 st (file ++ [10])

theorem runFile_eq_fault_iff {file : List UInt8} {f : Fault} :
    runFile processLine2 st file = .fault f ↔
      ((getlines file).foldlM processLine2 st >>= finish) = .error (.fault f) := by
  unfold runFile
  constructor
  · intro h
    split at h
    · exact nomatch h
    · exact nomatch h
    · rename_i f' heq
      rw [heq, Outcome.fault.inj h]
  · intro h
    rw [h]

theorem getlines_dequeue {body : List UInt8} (h : Ended body) :
    getlines (body ++ dequeueWord) = getlines body ++ [dequeueWord] ∧
      getlines (body ++ dequeueWord ++ [10]) = getlines body ++ [dequeueWord ++ [10]] := by
  constructor
  · have hsingle : getlines dequeueWord = [dequeueWord] := by decide
    rw [getlines_append h, hsingle]
  · rw [List.append_assoc, getlines_append h]
    rfl

/-- When the run comes to a last line `dequeue`, the newline makes a difference. -/
theorem last_dequeue_differs {body : List UInt8} (hbody : Ended body)
    (hrun : (getlines body).foldlM processLine2 st = .ok st') (hq : Holds st'.heap st'.q l) :
    runFile processLine2 st (body ++ dequeueWord) ≠
      runFile processLine2 st (body ++ dequeueWord ++ [10]) := by
  have hbare : ((getlines (body ++ dequeueWord)).foldlM processLine2 st >>= finish) =
      .error (.exit (st'.out ++ errorText)) := by
    rw [(getlines_dequeue hbody).1, List.foldlM_append, hrun, stop_bind, List.foldlM_cons,
      processLine2_bare_dequeue, error_eq hq]
    rfl
  have hfull : ∃ out, ((getlines (body ++ dequeueWord ++ [10])).foldlM processLine2 st >>=
      finish) = .ok out := by
    rw [(getlines_dequeue hbody).2, List.foldlM_append, hrun, stop_bind, List.foldlM_cons,
      processLine2_dequeue]
    obtain ⟨st₁, hline, hdone⟩ := dequeueLine_performed hq
    rw [hline, stop_bind]
    exact ⟨_, finish_eq hdone.holds⟩
  obtain ⟨out, hfull⟩ := hfull
  unfold runFile
  rw [hbare, hfull]
  exact nofun

/-- Every line that the run comes to is executed or reported. -/
def ReportsAll (st : State) (file : List UInt8) : Prop :=
  ∀ st' l' line, Reached st (getlines file) st' line → Holds st'.heap st'.q l' →
    Reports st' l' line (processLine2 st' line)

/-- The program executes or reports every line it comes to, without a fault, and takes a last line
`dequeue` as it takes it with its newline, exactly when every line it comes to has what its command
needs and none is a `dequeue` without a newline. -/
theorem runFile_reports_iff (hq : Holds st.heap st.q l) (file : List UInt8) :
    ReportsAll st file ∧ (∀ f, runFile processLine2 st file ≠ .fault f) ∧ LastDequeueSame st file ↔
      ∀ st' line, Reached st (getlines file) st' line →
        LineOk st'.q line ∧ line ≠ dequeueWord := by
  have hfaults : (∀ f, runFile processLine2 st file ≠ .fault f) ↔
      ∀ st' line, Reached st (getlines file) st' line → LineOk st'.q line := by
    simp only [Ne, runFile_eq_fault_iff]
    exact run_not_faults_iff hq (getlines file)
  rw [hfaults]
  constructor
  · intro h st' line hreached
    obtain ⟨-, hok, hsame⟩ := h
    refine ⟨hok st' line hreached, ?_⟩
    rintro rfl
    obtain ⟨l', hq'⟩ := hreached.holds hq
    obtain ⟨pre, post, hlines, hrun⟩ := hreached
    obtain ⟨body, hbody, rfl, rfl, -⟩ := getlines_unended hlines (by decide)
    exact last_dequeue_differs hbody hrun hq' (hsame body hbody rfl)
  · intro h
    refine ⟨?_, fun st' line hreached => (h st' line hreached).1, ?_⟩
    · intro st' l' line hreached hq'
      rcases processLine2_cases hq' line with ⟨-, hreports⟩ | ⟨hbad, -⟩
      · exact hreports
      · exact absurd (h st' line hreached).1 hbad
    rintro body hbody rfl
    unfold runFile
    rw [(getlines_dequeue hbody).1, (getlines_dequeue hbody).2, List.foldlM_append,
      List.foldlM_append]
    cases hrun : (getlines body).foldlM processLine2 st with
    | error e => rfl
    | ok st' =>
      have hreached : Reached st (getlines (body ++ dequeueWord)) st' dequeueWord :=
        ⟨getlines body, [], (getlines_dequeue hbody).1, hrun⟩
      exact absurd rfl (h st' dequeueWord hreached).2

theorem dequeue_file_reports :
    ReportsAll State.start (dequeueWord ++ [10]) ∧
      (∀ f, runFile processLine2 State.start (dequeueWord ++ [10]) ≠ .fault f) ∧
      LastDequeueSame State.start (dequeueWord ++ [10]) := by
  refine (runFile_reports_iff Holds.start (dequeueWord ++ [10])).mpr ?_
  intro st' line hreached
  have hlines : Reached State.start [dequeueWord ++ [10]] st' line := hreached
  rcases hlines.cases with ⟨rfl, heq⟩ | ⟨st₁, -, hrest⟩
  · rw [heq]
    have hfirst : strtok 32 (cstring (dequeueWord ++ [10])) = some (dequeueWord ++ [10], []) := by
      decide
    rw [lineOk_iff hfirst]
    refine ⟨⟨?_, ?_, ?_⟩, by decide⟩
    · intro h
      exact absurd h (by decide)
    · intro h
      exact absurd h (by decide)
    · intro h
      exact absurd h (by decide)
  · exact absurd hrest not_reached_nil

/-- A word behind `enqueue`, or behind the key of `encode_enqueue`, may be missing, `dequeue_decode`
may come on an empty queue, a line may be blank, and `dequeue` may lack its newline. -/
theorem script_faults :
    cipheredQueueMain (enqueueWord ++ [32, 10]) = .fault .nullString ∧
      cipheredQueueMain (encodeEnqueueWord ++ [32, 49, 10]) = .fault .nullString ∧
      cipheredQueueMain (dequeueDecodeWord ++ [32, 49, 10]) = .fault .nullNode ∧
      cipheredQueueMain [32] = .fault .nullString ∧
      cipheredQueueMain dequeueWord = .errored [69, 82, 82, 79, 82, 10] ∧
      cipheredQueueMain (dequeueWord ++ [10]) = .finished (nullText ++ finallyText ++ [10]) := by
  decide

end Run

end SystemsProjects.CipherQueue
