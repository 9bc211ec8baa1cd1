import SystemsProjects.Lib.Decimal
import SystemsProjects.CipherQueue.Caesar
import SystemsProjects.CipherQueue.Program

/-!
# The ciphered queue program

`ciphered_queue_main.c` adds `encode_enqueue` and `dequeue_decode` to the commands. A line is cut by
several calls of `strtok`, and what they find is used without a test for `NULL`.
-/

namespace SystemsProjects.CipherQueue

open SystemsProjects.Lib

/-- `encode_enqueue`. -/
def encodeEnqueueWord : List UInt8 :=
  [101, 110, 99, 111, 100, 101, 95, 101, 110, 113, 117, 101, 117, 101]

/-- `dequeue_decode`. -/
def dequeueDecodeWord : List UInt8 :=
  [100, 101, 113, 117, 101, 117, 101, 95, 100, 101, 99, 111, 100, 101]

/-- `int key = atoi(key_s)`. -/
def keyOf (action : List UInt8) : BitVec 32 := atoiInt action

/-- `encode_enqueue` (`ciphered_queue_main.c:35-38`). -/
def encodeEnqueue (st : State) (data : List UInt8) (key : BitVec 32) : Except Stop State :=
  enqueueLine st (some (encode data key))

/-- `dequeue_decode` (`ciphered_queue_main.c:40-51`). -/
def dequeueDecode (st : State) (key : BitVec 32) : Except Stop State := do
  let (node, q) ← call (dequeue st.heap st.q)
  let (_, data) ← call (st.heap.loadNode node)
  let encMsg ← call (st.heap.loadString data)
  let msg := if encMsg = illchar then encMsg else decode encMsg key
  let heap ← call (freeNode st.heap node)
  .ok { heap := heap, q := q, out := st.out ++ msg ++ [10] }

/-- The branch of `encode_enqueue` in `process_line2`, for the text behind the first token. -/
def encodeEnqueueLine (st : State) (rest : List UInt8) : Except Stop State :=
  match strtok 32 rest with
  | none => .error (.fault .nullString)
  | some (keyText, rest) =>
    match strtok 10 rest with
    | none => .error (.fault .nullString)
    | some (word, _) => encodeEnqueue st word (keyOf keyText)

/-- The branch of `dequeue_decode` in `process_line2`. -/
def dequeueDecodeLine (st : State) (rest : List UInt8) : Except Stop State :=
  match strtok 32 rest with
  | none => .error (.fault .nullString)
  | some (keyText, _) => dequeueDecode st (keyOf keyText)

/-- The branches of `process_line2`. -/
def cipheredAction (st : State) (action rest : List UInt8) : Except Stop State :=
  if action = encodeEnqueueWord then encodeEnqueueLine st rest
  else if action = dequeueDecodeWord then dequeueDecodeLine st rest
  else queueAction st action rest

/-- `process_line2` (`ciphered_queue_main.c:62-100`). -/
def processLine2 (st : State) (line : List UInt8) : Except Stop State :=
  match strtok 32 (cstring line) with
  | none => .error (.fault .nullString)
  | some (action, rest) => cipheredAction st action rest

/-- `main` of `ciphered_queue_main.c`. -/
def cipheredQueueMain (file : List UInt8) : Outcome := runFile processLine2 State.start file

/-! ## What a line does -/

/-- The four commands, with what they are given. -/
inductive Command where
  | enqueue (w : List UInt8)
  | dequeue
  | encodeEnqueue (key : BitVec 32) (w : List UInt8)
  | dequeueDecode (key : BitVec 32)

/-- The first word of the line of a command. -/
def Command.first : Command → List UInt8
  | .enqueue _ => enqueueWord
  | .dequeue => dequeueWord ++ [10]
  | .encodeEnqueue _ _ => encodeEnqueueWord
  | .dequeueDecode _ => dequeueDecodeWord

/-- The text begins with the word `t`, up to a delimiter or its end. -/
def Cut (delim : UInt8) (s t r : List UInt8) : Prop := t ≠ [] ∧ delim ∉ t ∧ Begins delim s t r

/-- A line asks for a command: the words of a line end at blanks, and what is enqueued at the
newline. -/
inductive Asks (s : List UInt8) : Command → Prop
  | enqueue {r w r' : List UInt8} (first : Cut 32 s enqueueWord r) (word : Cut 10 r w r') :
      Asks s (.enqueue w)
  | dequeue {r : List UInt8} (first : Cut 32 s (dequeueWord ++ [10]) r) : Asks s .dequeue
  | encodeEnqueue {r key r' w r'' : List UInt8} (first : Cut 32 s encodeEnqueueWord r)
      (second : Cut 32 r key r') (word : Cut 10 r' w r'') : Asks s (.encodeEnqueue (keyOf key) w)
  | dequeueDecode {r key r' : List UInt8} (first : Cut 32 s dequeueDecodeWord r)
      (second : Cut 32 r key r') : Asks s (.dequeueDecode (keyOf key))

/-- `x` has come behind the elements, in a node of its own, and nothing is printed. -/
structure Appended (st : State) (l : List (Nat × List UInt8)) (x : List UInt8) (st' : State) :
    Prop where
  holds : Holds st'.heap st'.q (l ++ [(st.heap.length, x)])
  size : st'.heap.length = st.heap.length + 2
  out : st'.out = st.out

/-- The first element, if there is one, is taken away, and `text` is printed. -/
structure Taken (st : State) (l : List (Nat × List UInt8)) (text : List UInt8) (st' : State) :
    Prop where
  holds : Holds st'.heap st'.q l.tail
  size : st'.heap.length = st.heap.length
  out : st'.out = st.out ++ text

/-- A command is performed on a queue with the elements `l`. -/
def Command.Performed (st : State) (l : List (Nat × List UInt8)) (st' : State) : Command → Prop
  | .enqueue w => Appended st l w st'
  | .dequeue => Taken st l (l.head?.elim nullText fun node => node.2 ++ [10]) st'
  | .encodeEnqueue key w => Appended st l (encode w key) st'
  | .dequeueDecode key => ∃ node ∈ l.head?,
      Taken st l ((if node.2 = illchar then node.2 else decode node.2 key) ++ [10]) st'

/-- A line was executed: the command it asks for is performed. -/
def Executed (st : State) (l : List (Nat × List UInt8)) (line : List UInt8) (st' : State) : Prop :=
  ∃ c, Asks (cstring line) c ∧ c.Performed st l st'

/-- A line reads on where `strtok` found nothing, or takes a node from an empty queue. -/
def Faults (r : Except Stop State) : Prop := ∃ f, r = .error (.fault f)

/-- A line is executed, or it asks for no command and `ERROR` is printed and the program exits. -/
def Reports (st : State) (l : List (Nat × List UInt8)) (line : List UInt8) (r : Except Stop State) :
    Prop :=
  (∃ st', r = .ok st' ∧ Executed st l line st') ∨
    (∀ c, ¬Asks (cstring line) c) ∧ r = .error (.exit (st.out ++ errorText))

section Branches
variable {st : State} {l : List (Nat × List UInt8)} {rest : List UInt8}

theorem enqueueLine_appended (hq : Holds st.heap st.q l) (w : List UInt8) :
    ∃ st', enqueueLine st (some w) = .ok st' ∧ Appended st l w st' := by
  obtain ⟨st', hline, hout, hlen, hholds⟩ := enqueueLine_eq hq w
  exact ⟨st', hline, hholds, hlen, hout⟩

theorem dequeueLine_performed (hq : Holds st.heap st.q l) :
    ∃ st', dequeueLine st = .ok st' ∧ Command.dequeue.Performed st l st' := by
  cases l with
  | nil => exact ⟨_, dequeueLine_nil hq, hq, rfl, rfl⟩
  | cons n l =>
    obtain ⟨st', hline, hout, hlen, hholds⟩ := dequeueLine_cons hq
    exact ⟨st', hline, hholds, hlen, by rw [hout, List.append_assoc]; rfl⟩

/-- On a queue with a first element `dequeue_decode` prints its string as it is, when that is the
error text, and decoded otherwise. -/
theorem dequeueDecode_cons {a : Nat} {s : List UInt8} (hq : Holds st.heap st.q ((a, s) :: l))
    (key : BitVec 32) :
    ∃ st', dequeueDecode st key = .ok st' ∧
      st'.out = st.out ++ (if s = illchar then s else decode s key) ++ [10] ∧
      st'.heap.length = st.heap.length ∧ Holds st'.heap st'.q l := by
  obtain ⟨-, ha, ⟨p, hlink⟩, q', hdeq, hholds⟩ := hq.dequeue_cons
  obtain ⟨hnode, hstring⟩ := loadString_of_link hlink
  obtain ⟨h', hfree, hlen, hholds'⟩ := hholds.freeNode hlink ha
  refine ⟨⟨h', q', _⟩, ?_, rfl, hlen, hholds'⟩
  unfold dequeueDecode
  rw [hdeq, call_ok, stop_bind]
  dsimp only
  rw [hnode, call_ok, stop_bind]
  dsimp only
  rw [hstring, call_ok, stop_bind, hfree, call_ok, stop_bind]

/-- On an empty queue it reads a field of the `NULL` node. -/
theorem dequeueDecode_nil (hq : Holds st.heap st.q []) (key : BitVec 32) :
    dequeueDecode st key = .error (.fault .nullNode) := by
  unfold dequeueDecode
  rw [hq.dequeue_nil, call_ok, stop_bind]
  rfl

end Branches

/-! ## The lines that are executed or reported -/

/-- The text has something besides its newline. -/
def HasWord (s : List UInt8) : Prop := ∃ c ∈ s, c ≠ 10

/-- The line has what its command needs: it is not blank; behind `enqueue` and a blank comes a word;
behind `encode_enqueue` come a key and a word; behind `dequeue_decode` comes a key, and the queue is
not empty. -/
structure LineOk (q : Queue) (line : List UInt8) : Prop where
  notBlank : ∃ c ∈ cstring line, c ≠ 32
  enqueue : ∀ r, Begins 32 (cstring line) enqueueWord r → HasWord r
  encodeEnqueue : ∀ r, Begins 32 (cstring line) encodeEnqueueWord r →
    ∃ key r', key ≠ [] ∧ 32 ∉ key ∧ Begins 32 r key r' ∧ HasWord r'
  dequeueDecode : ∀ r, Begins 32 (cstring line) dequeueDecodeWord r →
    (∃ c ∈ r, c ≠ 32) ∧ q.head ≠ none

theorem Cut.strtok {delim : UInt8} {s t r : List UInt8} (h : Cut delim s t r) :
    strtok delim s = some (t, r) :=
  strtok_eq_some_iff.mpr h

theorem Asks.first {s : List UInt8} {c : Command} (h : Asks s c) :
    ∃ r, strtok 32 s = some (c.first, r) := by
  cases h with
  | enqueue hfirst _ => exact ⟨_, hfirst.strtok⟩
  | dequeue hfirst => exact ⟨_, hfirst.strtok⟩
  | encodeEnqueue hfirst _ _ => exact ⟨_, hfirst.strtok⟩
  | dequeueDecode hfirst _ => exact ⟨_, hfirst.strtok⟩

theorem strtok_newline_none {s : List UInt8} : strtok 10 s = none ↔ ¬HasWord s := by
  rw [HasWord, ← strtok_ne_none_iff, not_not]

/-- The condition for a line whose first token is known. -/
theorem lineOk_iff {q : Queue} {line action rest : List UInt8}
    (h : strtok 32 (cstring line) = some (action, rest)) :
    LineOk q line ↔ (action = enqueueWord → HasWord rest) ∧
      (action = encodeEnqueueWord →
        ∃ key r', key ≠ [] ∧ 32 ∉ key ∧ Begins 32 rest key r' ∧ HasWord r') ∧
      (action = dequeueDecodeWord → (∃ c ∈ rest, c ≠ 32) ∧ q.head ≠ none) := by
  obtain ⟨hne, hblank, hbegins⟩ := strtok_eq_some_iff.mp h
  have honly : ∀ t r, t ≠ [] → 32 ∉ t → Begins 32 (cstring line) t r → t = action ∧ r = rest := by
    intro t r ht htb hr
    rw [strtok_of_begins ht htb hr, Option.some.injEq, Prod.mk.injEq] at h
    exact h
  constructor
  · intro hok
    refine ⟨?_, ?_, ?_⟩
    · rintro rfl
      exact hok.enqueue rest hbegins
    · rintro rfl
      exact hok.encodeEnqueue rest hbegins
    · rintro rfl
      exact hok.dequeueDecode rest hbegins
  · intro hok
    obtain ⟨henq, henc, hdec⟩ := hok
    refine ⟨?_, ?_, ?_, ?_⟩
    · apply strtok_ne_none_iff.mp
      rw [h]
      exact Option.some_ne_none _
    · intro r hr
      obtain ⟨haction, rfl⟩ := honly enqueueWord r (by decide) (by decide) hr
      exact henq haction.symm
    · intro r hr
      obtain ⟨haction, rfl⟩ := honly encodeEnqueueWord r (by decide) (by decide) hr
      exact henc haction.symm
    · intro r hr
      obtain ⟨haction, rfl⟩ := honly dequeueDecodeWord r (by decide) (by decide) hr
      exact hdec haction.symm

section Line
variable {st : State} {l : List (Nat × List UInt8)} {line rest : List UInt8}

/-- The error exit, for a line whose first word is the first one of no command. -/
theorem error_reports (hq : Holds st.heap st.q l) {action : List UInt8}
    (hfirst : strtok 32 (cstring line) = some (action, rest))
    (h : ∀ c : Command, c.first ≠ action) : Reports st l line (error st) := by
  refine Or.inr ⟨?_, error_eq hq⟩
  intro c hc
  obtain ⟨r, hr⟩ := hc.first
  rw [hfirst, Option.some.injEq, Prod.mk.injEq] at hr
  exact h c hr.1.symm

/-- `queueAction` needs nothing but the word of an `enqueue`. -/
theorem queueAction_reports (hq : Holds st.heap st.q l) {action : List UInt8}
    (hfirst : strtok 32 (cstring line) = some (action, rest)) (henc : action ≠ encodeEnqueueWord)
    (hdec : action ≠ dequeueDecodeWord) (h : action = enqueueWord → HasWord rest) :
    Reports st l line (queueAction st action rest) := by
  have hcut : Cut 32 (cstring line) action rest := strtok_eq_some_iff.mp hfirst
  unfold queueAction
  split_ifs with hbare henq hdeq
  · refine error_reports hq hfirst fun c => ?_
    rw [hbare]
    cases c with
    | enqueue w => exact show enqueueWord ≠ enqueueWord ++ [10] by decide
    | dequeue => decide
    | encodeEnqueue key w => exact show encodeEnqueueWord ≠ enqueueWord ++ [10] by decide
    | dequeueDecode key => exact show dequeueDecodeWord ≠ enqueueWord ++ [10] by decide
  · subst henq
    obtain ⟨⟨w, r⟩, hr⟩ := Option.ne_none_iff_exists'.mp (strtok_ne_none_iff.mpr (h rfl))
    obtain ⟨st', hline, happ⟩ := enqueueLine_appended hq w
    rw [hr]
    exact Or.inl ⟨st', hline, .enqueue w, .enqueue hcut (strtok_eq_some_iff.mp hr), happ⟩
  · subst hdeq
    obtain ⟨st', hline, hdone⟩ := dequeueLine_performed hq
    exact Or.inl ⟨st', hline, .dequeue, .dequeue hcut, hdone⟩
  · refine error_reports hq hfirst fun c => ?_
    cases c with
    | enqueue w => exact Ne.symm henq
    | dequeue => exact Ne.symm hdeq
    | encodeEnqueue key w => exact Ne.symm henc
    | dequeueDecode key => exact Ne.symm hdec

theorem queueAction_faults (h : ¬HasWord rest) : Faults (queueAction st enqueueWord rest) := by
  refine ⟨.nullString, ?_⟩
  unfold queueAction
  rw [if_neg (by decide), if_pos rfl, strtok_newline_none.mpr h]
  rfl

theorem encodeEnqueueLine_reports (hq : Holds st.heap st.q l)
    (hfirst : strtok 32 (cstring line) = some (encodeEnqueueWord, rest))
    (h : ∃ key r', key ≠ [] ∧ 32 ∉ key ∧ Begins 32 rest key r' ∧ HasWord r') :
    Reports st l line (encodeEnqueueLine st rest) := by
  obtain ⟨key, r', hne, hblank, hbegins, hword⟩ := h
  have hkey : Cut 32 rest key r' := ⟨hne, hblank, hbegins⟩
  obtain ⟨⟨word, _⟩, hr⟩ := Option.ne_none_iff_exists'.mp (strtok_ne_none_iff.mpr hword)
  obtain ⟨st', hline, happ⟩ := enqueueLine_appended hq (encode word (keyOf key))
  refine Or.inl ⟨st', ?_, .encodeEnqueue (keyOf key) word, ?_, happ⟩
  · unfold encodeEnqueueLine
    rw [hkey.strtok]
    dsimp only
    rw [hr]
    exact hline
  · exact .encodeEnqueue (strtok_eq_some_iff.mp hfirst) hkey (strtok_eq_some_iff.mp hr)

theorem encodeEnqueueLine_faults
    (h : ¬∃ key r', key ≠ [] ∧ 32 ∉ key ∧ Begins 32 rest key r' ∧ HasWord r') :
    Faults (encodeEnqueueLine st rest) := by
  refine ⟨.nullString, ?_⟩
  unfold encodeEnqueueLine
  cases hkey : strtok 32 rest with
  | none => rfl
  | some r =>
    obtain ⟨key, r'⟩ := r
    obtain ⟨hne, hblank, hbegins⟩ := strtok_eq_some_iff.mp hkey
    have hword : strtok 10 r' = none := by
      rw [strtok_newline_none]
      intro hword
      exact h ⟨key, r', hne, hblank, hbegins, hword⟩
    dsimp only
    rw [hword]

theorem dequeueDecodeLine_reports (hq : Holds st.heap st.q l)
    (hfirst : strtok 32 (cstring line) = some (dequeueDecodeWord, rest))
    (hkey : ∃ c ∈ rest, c ≠ 32) (hhead : st.q.head ≠ none) :
    Reports st l line (dequeueDecodeLine st rest) := by
  obtain ⟨⟨key, _⟩, hr⟩ := Option.ne_none_iff_exists'.mp (strtok_ne_none_iff.mpr hkey)
  cases l with
  | nil => exact absurd (hq.head_eq_none.mpr rfl) hhead
  | cons n l =>
    obtain ⟨st', hline, hout, hlen, hholds⟩ := dequeueDecode_cons hq (keyOf key)
    refine Or.inl ⟨st', ?_, .dequeueDecode (keyOf key), ?_, n, rfl, hholds, hlen, ?_⟩
    · unfold dequeueDecodeLine
      rw [hr]
      exact hline
    · exact .dequeueDecode (strtok_eq_some_iff.mp hfirst) (strtok_eq_some_iff.mp hr)
    · rw [hout, List.append_assoc]

theorem dequeueDecodeLine_faults (hq : Holds st.heap st.q l)
    (h : ¬((∃ c ∈ rest, c ≠ 32) ∧ st.q.head ≠ none)) : Faults (dequeueDecodeLine st rest) := by
  unfold dequeueDecodeLine
  cases hkey : strtok 32 rest with
  | none => exact ⟨.nullString, rfl⟩
  | some r =>
    have hsome : ∃ c ∈ rest, c ≠ 32 := by
      apply strtok_ne_none_iff.mp
      rw [hkey]
      exact Option.some_ne_none r
    have hhead : st.q.head = none := by
      by_contra hhead
      exact h ⟨hsome, hhead⟩
    rw [hq.head_eq_none] at hhead
    subst hhead
    exact ⟨.nullNode, dequeueDecode_nil hq _⟩

/-- A line that has what it needs is executed or reported, and any other line faults. -/
theorem processLine2_cases (hq : Holds st.heap st.q l) (line : List UInt8) :
    LineOk st.q line ∧ Reports st l line (processLine2 st line) ∨
      ¬LineOk st.q line ∧ Faults (processLine2 st line) := by
  unfold processLine2
  cases hfirst : strtok 32 (cstring line) with
  | none =>
    refine Or.inr ⟨?_, .nullString, rfl⟩
    intro hok
    exact strtok_ne_none_iff.mpr hok.notBlank hfirst
  | some r =>
    obtain ⟨action, rest⟩ := r
    rw [lineOk_iff hfirst]
    dsimp only
    unfold cipheredAction
    by_cases henc : action = encodeEnqueueWord
    · subst henc
      rw [if_pos rfl]
      by_cases hargs : ∃ key r', key ≠ [] ∧ 32 ∉ key ∧ Begins 32 rest key r' ∧ HasWord r'
      · refine Or.inl ⟨⟨fun h => ?_, fun _ => hargs, fun h => ?_⟩,
          encodeEnqueueLine_reports hq hfirst hargs⟩
        · exact absurd h (by decide)
        · exact absurd h (by decide)
      · exact Or.inr ⟨fun h => hargs (h.2.1 rfl), encodeEnqueueLine_faults hargs⟩
    rw [if_neg henc]
    by_cases hdec : action = dequeueDecodeWord
    · subst hdec
      rw [if_pos rfl]
      by_cases hargs : (∃ c ∈ rest, c ≠ 32) ∧ st.q.head ≠ none
      · refine Or.inl ⟨⟨fun h => ?_, fun h => absurd h henc, fun _ => hargs⟩,
          dequeueDecodeLine_reports hq hfirst hargs.1 hargs.2⟩
        exact absurd h (by decide)
      · exact Or.inr ⟨fun h => hargs (h.2.2 rfl), dequeueDecodeLine_faults hq hargs⟩
    rw [if_neg hdec]
    by_cases hword : action = enqueueWord → HasWord rest
    · exact Or.inl ⟨⟨hword, fun h => absurd h henc, fun h => absurd h hdec⟩,
        queueAction_reports hq hfirst henc hdec hword⟩
    · refine Or.inr ⟨fun h => hword h.1, ?_⟩
      rw [Classical.not_imp] at hword
      rw [hword.1]
      exact queueAction_faults hword.2

theorem processLine2_executed (hq : Holds st.heap st.q l) {st' : State}
    (h : processLine2 st line = .ok st') : Executed st l line st' := by
  rcases processLine2_cases hq line with ⟨-, hreports⟩ | ⟨-, f, hfault⟩
  · rcases hreports with ⟨st₁, hst₁, hexec⟩ | hexit
    · rw [hst₁] at h
      obtain rfl := Except.ok.inj h
      exact hexec
    · rw [hexit.2] at h
      exact nomatch h
  · rw [hfault] at h
    exact nomatch h

/-- Every line that is executed does one of two things to the elements. -/
theorem Executed.cases {st' : State} (h : Executed st l line st') :
    (∃ x, Appended st l x st') ∨ ∃ text, Taken st l text st' := by
  obtain ⟨c, -, hc⟩ := h
  cases c with
  | enqueue w => exact Or.inl ⟨w, hc⟩
  | dequeue => exact Or.inr ⟨_, hc⟩
  | encodeEnqueue key w => exact Or.inl ⟨_, hc⟩
  | dequeueDecode key =>
    obtain ⟨node, -, htaken⟩ := hc
    exact Or.inr ⟨_, htaken⟩

theorem Executed.holds {st' : State} (h : Executed st l line st') :
    ∃ l', Holds st'.heap st'.q l' := by
  rcases h.cases with ⟨x, happ⟩ | ⟨text, htaken⟩
  · exact ⟨_, happ.holds⟩
  · exact ⟨_, htaken.holds⟩

/-- What every executed line keeps is kept by a run. -/
theorem run_preserves {P : State → Prop}
    (hstep : ∀ st line st', P st → processLine2 st line = .ok st' → P st')
    {lines : List (List UInt8)} {st' : State} (h : P st)
    (hrun : lines.foldlM processLine2 st = .ok st') : P st' := by
  induction lines generalizing st with
  | nil =>
    rw [List.foldlM_nil] at hrun
    obtain rfl := Except.ok.inj hrun
    exact h
  | cons line lines ih =>
    rw [List.foldlM_cons] at hrun
    cases hline : processLine2 st line with
    | error e =>
      rw [hline] at hrun
      exact nomatch hrun
    | ok st₁ =>
      rw [hline] at hrun
      exact ih (hstep st line st₁ h hline) hrun

theorem run_holds {lines : List (List UInt8)} {st' : State} (hq : Holds st.heap st.q l)
    (hrun : lines.foldlM processLine2 st = .ok st') : ∃ l', Holds st'.heap st'.q l' := by
  refine run_preserves (P := fun st => ∃ l, Holds st.heap st.q l) ?_ ⟨l, hq⟩ hrun
  intro st line st' h hline
  obtain ⟨l, hq⟩ := h
  exact (processLine2_executed hq hline).holds

end Line

end SystemsProjects.CipherQueue
