import SystemsProjects.Lib.CString
import SystemsProjects.CipherQueue.Queue

/-!
# The queue program

`queue_main.c` reads a file line by line. `process_line` cuts a line with `strtok`, runs its command
and, on a line it does not know, ends the program. `ciphered_queue_main.c` has the same `main` and
the same handling of `enqueue` and `dequeue`, so both are stated here for any `process_line`.
-/

namespace SystemsProjects.CipherQueue

open SystemsProjects.Lib

/-- What the program has: its queue, on the heap, and what it has printed. -/
structure State where
  heap : Heap
  q : Queue
  out : List UInt8
  deriving DecidableEq, Repr

/-- A line that ends the program, with all that was printed, or is undefined. -/
inductive Stop where
  | exit (out : List UInt8)
  | fault (f : Fault)
  deriving DecidableEq, Repr

/-- How the program ends: with status 0, by `exit(1)`, or in undefined behaviour. -/
inductive Outcome where
  | finished (out : List UInt8)
  | errored (out : List UInt8)
  | fault (f : Fault)
  deriving DecidableEq, Repr

/-- A function of `queue.c` as a step of the program. -/
def call {α : Type} (r : Except Fault α) : Except Stop α := r.mapError Stop.fault

/-! The words of the commands and the fixed texts of the program, by their bytes. -/

/-- `enqueue`. -/
def enqueueWord : List UInt8 := [101, 110, 113, 117, 101, 117, 101]

/-- `dequeue`. -/
def dequeueWord : List UInt8 := [100, 101, 113, 117, 101, 117, 101]

/-- `ERROR\n`. -/
def errorText : List UInt8 := [69, 82, 82, 79, 82, 10]

/-- `NULL\n`. -/
def nullText : List UInt8 := [78, 85, 76, 76, 10]

/-- `error` (`queue_main.c:21-25`). -/
def error (st : State) : Except Stop State := do
  let _ ← call (freeQueue st.heap st.q)
  .error (.exit (st.out ++ errorText))

/-- The branch of `enqueue` (`queue_main.c:39-41`) with what the second `strtok` found. -/
def enqueueLine (st : State) (action : Option (List UInt8)) : Except Stop State := do
  let (heap, q) ← call (enqueue st.heap st.q action)
  .ok { st with heap := heap, q := q }

/-- The branch of `dequeue` (`queue_main.c:42-49`). -/
def dequeueLine (st : State) : Except Stop State := do
  let (node, q) ← call (dequeue st.heap st.q)
  if node = none then .ok { st with q := q, out := st.out ++ nullText }
  else do
    let (_, data) ← call (st.heap.loadNode node)
    let s ← call (st.heap.loadString data)
    let heap ← call (freeNode st.heap node)
    .ok { heap := heap, q := q, out := st.out ++ s ++ [10] }

/-- The branches of `process_line`, for the first token of the line and the text behind it. -/
def queueAction (st : State) (action rest : List UInt8) : Except Stop State :=
  if action = enqueueWord ++ [10] then error st
  else if action = enqueueWord then enqueueLine st ((strtok 10 rest).map Prod.fst)
  else if action = dequeueWord ++ [10] then dequeueLine st
  else error st

/-- The C string at the head of a line. -/
def cstring (line : List UInt8) : List UInt8 := line.takeWhile (· != 0)

/-- `process_line` (`queue_main.c:35-53`). -/
def processLine (st : State) (line : List UInt8) : Except Stop State :=
  match strtok 32 (cstring line) with
  | none => .error (.fault .nullString)
  | some (action, rest) => queueAction st action rest

/-- The lines that `getline` reads from a file, each with its newline; the last may have none. -/
def getlines : List UInt8 → List (List UInt8)
  | [] => []
  | c :: s =>
    if c = 10 then [c] :: getlines s
    else
      match getlines s with
      | [] => [[c]]
      | line :: lines => (c :: line) :: lines

/-- The state before the first line. -/
def State.start : State := ⟨[], ⟨none, none⟩, []⟩

/-- `final_print` and `free_and_close`. -/
def finish (st : State) : Except Stop (List UInt8) := do
  let text ← call (printQueue st.heap st.q)
  let _ ← call (freeQueue st.heap st.q)
  .ok (st.out ++ text)

/-- The loop of `main` (`queue_main.c:82-86`) and what follows it, with the function that is called
for each line of the file. -/
def runFile (process : State → List UInt8 → Except Stop State) (st : State) (file : List UInt8) :
    Outcome :=
  match (getlines file).foldlM process st >>= finish with
  | .ok out => .finished out
  | .error (.exit out) => .errored out
  | .error (.fault f) => .fault f

/-- `main` of `queue_main.c`. -/
def queueMain (file : List UInt8) : Outcome := runFile processLine State.start file

/-! ## Lines -/

theorem getlines_line {line : List UInt8} (hline : 10 ∉ line) (s : List UInt8) :
    getlines (line ++ 10 :: s) = (line ++ [10]) :: getlines s := by
  induction line with
  | nil => exact if_pos rfl
  | cons c line ih =>
    rw [List.mem_cons, not_or] at hline
    rw [List.cons_append, getlines, if_neg (Ne.symm hline.1), ih hline.2]
    rfl

theorem cstring_eq_self {line : List UInt8} (h : 0 ∉ line) : cstring line = line := by
  unfold cstring
  rw [List.takeWhile_eq_self_iff]
  intro c hc
  rw [bne_iff_ne]
  exact ne_of_mem_of_not_mem hc h

/-! ## The branches on a queue with given elements -/

theorem call_ok {α : Type} (a : α) : call (.ok a : Except Fault α) = .ok a := (rfl)

theorem stop_bind {α β : Type} (a : α) (f : α → Except Stop β) :
    (Except.ok a >>= f) = f a := (rfl)

section Branches
variable {st : State} {l : List (Nat × List UInt8)}

/-- The error exit prints its line and faults on nothing. -/
theorem error_eq (hq : Holds st.heap st.q l) :
    error st = .error (.exit (st.out ++ errorText)) := by
  obtain ⟨h', hfree⟩ := hq.freeQueue
  unfold error
  rw [hfree, call_ok, stop_bind]

theorem enqueueLine_eq (hq : Holds st.heap st.q l) (w : List UInt8) :
    ∃ st', enqueueLine st (some w) = .ok st' ∧ st'.out = st.out ∧
      st'.heap.length = st.heap.length + 2 ∧
      Holds st'.heap st'.q (l ++ [(st.heap.length, w)]) := by
  obtain ⟨h', q', henq, hholds, hlen⟩ := hq.enqueue w
  refine ⟨{ st with heap := h', q := q' }, ?_, rfl, hlen, hholds⟩
  unfold enqueueLine
  rw [henq, call_ok, stop_bind]

theorem dequeueLine_nil (hq : Holds st.heap st.q []) :
    dequeueLine st = .ok { st with out := st.out ++ nullText } := by
  unfold dequeueLine
  rw [hq.dequeue_nil, call_ok, stop_bind]
  exact if_pos rfl

theorem dequeueLine_cons {a : Nat} {s : List UInt8} (hq : Holds st.heap st.q ((a, s) :: l)) :
    ∃ st', dequeueLine st = .ok st' ∧ st'.out = st.out ++ s ++ [10] ∧
      st'.heap.length = st.heap.length ∧ Holds st'.heap st'.q l := by
  obtain ⟨-, ha, ⟨p, hlink⟩, q', hdeq, hholds⟩ := hq.dequeue_cons
  obtain ⟨hnode, hstring⟩ := loadString_of_link hlink
  obtain ⟨h', hfree, hlen, hholds'⟩ := hholds.freeNode hlink ha
  refine ⟨⟨h', q', st.out ++ s ++ [10]⟩, ?_, rfl, hlen, hholds'⟩
  unfold dequeueLine
  rw [hdeq, call_ok, stop_bind]
  dsimp only
  rw [if_neg (Option.some_ne_none a), hnode, call_ok, stop_bind]
  dsimp only
  rw [hstring, call_ok, stop_bind, hfree, call_ok, stop_bind]

/-- The end of the program prints the elements in order. -/
theorem finish_eq (hq : Holds st.heap st.q l) :
    finish st = .ok (st.out ++ (finallyText ++ listText (l.map Prod.snd) ++ [10])) := by
  obtain ⟨h', hfree⟩ := hq.freeQueue
  unfold finish
  rw [hq.printQueue, call_ok, stop_bind, hfree, call_ok, stop_bind]

end Branches

theorem Holds.start : Holds State.start.heap State.start.q [] := Holds.empty [] none

/-! ## The abstract queue -/

/-- A string that a line can carry: not empty, without a newline or a NUL. -/
structure Word where
  text : List UInt8
  nonempty : text ≠ []
  noNewline : 10 ∉ text
  noNul : 0 ∉ text

/-- The commands of a script. -/
inductive Cmd where
  | enqueue (w : Word)
  | dequeue

/-- The line of a command. -/
def Cmd.text : Cmd → List UInt8
  | .enqueue w => enqueueWord ++ [32] ++ w.text ++ [10]
  | .dequeue => dequeueWord ++ [10]

/-- What a command leaves of the list and what it prints. -/
def fifoStep : List (List UInt8) → Cmd → List (List UInt8) × List UInt8
  | es, .enqueue w => (es ++ [w.text], [])
  | [], .dequeue => ([], nullText)
  | e :: es, .dequeue => (es, e ++ [10])

/-- What a script prints on a queue with the elements `es`, the oldest first. -/
def fifo : List (List UInt8) → List Cmd → List UInt8
  | es, [] => finallyText ++ listText es ++ [10]
  | es, c :: cs => (fifoStep es c).2 ++ fifo (fifoStep es c).1 cs

theorem getlines_script (cmds : List Cmd) :
    getlines (cmds.flatMap Cmd.text) = cmds.map Cmd.text := by
  induction cmds with
  | nil => rfl
  | cons c cmds ih =>
    rw [List.flatMap_cons, List.map_cons]
    cases c with
    | enqueue w =>
      have hline : 10 ∉ enqueueWord ++ [32] ++ w.text := by
        rw [List.mem_append, not_or]
        exact ⟨by decide, w.noNewline⟩
      rw [Cmd.text, List.append_assoc, List.singleton_append, getlines_line hline, ih]
    | dequeue =>
      have hline : 10 ∉ dequeueWord := by decide
      rw [Cmd.text, List.append_assoc, List.singleton_append, getlines_line hline, ih]

/-- A line `enqueue w` reaches `enqueue` with the word as it stands, blanks included. -/
theorem processLine_enqueue (st : State) (w : Word) :
    processLine st (Cmd.enqueue w).text = enqueueLine st (some w.text) := by
  have hzero : 0 ∉ (Cmd.enqueue w).text := by
    simp only [Cmd.text, List.mem_append, not_or]
    exact ⟨⟨by decide, w.noNul⟩, by decide⟩
  have hfirst : strtok 32 (Cmd.enqueue w).text = some (enqueueWord, w.text ++ [10]) := by
    apply strtok_of_begins (by decide) (by decide)
    refine ⟨[], List.forall_mem_nil _, Or.inr ?_⟩
    rw [Cmd.text, List.append_assoc, List.append_assoc]
    rfl
  have hsecond : strtok 10 (w.text ++ [10]) = some (w.text, []) :=
    strtok_of_begins w.nonempty w.noNewline ⟨[], List.forall_mem_nil _, Or.inr rfl⟩
  unfold processLine
  rw [cstring_eq_self hzero, hfirst]
  dsimp only
  unfold queueAction
  rw [if_neg (by decide), if_pos rfl, hsecond]
  rfl

theorem processLine_dequeue (st : State) : processLine st Cmd.dequeue.text = dequeueLine st := by
  have hfirst : strtok 32 (cstring Cmd.dequeue.text) = some (dequeueWord ++ [10], []) := by decide
  unfold processLine
  rw [hfirst]
  dsimp only
  unfold queueAction
  rw [if_neg (by decide), if_neg (by decide), if_pos rfl]

/-- One line simulates one command of the list queue. -/
theorem processLine_simulates {st : State} {l : List (Nat × List UInt8)}
    (hq : Holds st.heap st.q l) (c : Cmd) :
    ∃ st' l', processLine st c.text = .ok st' ∧ Holds st'.heap st'.q l' ∧
      l'.map Prod.snd = (fifoStep (l.map Prod.snd) c).1 ∧
      st'.out = st.out ++ (fifoStep (l.map Prod.snd) c).2 := by
  cases c with
  | enqueue w =>
    obtain ⟨st', hline, hout, -, hholds⟩ := enqueueLine_eq hq w.text
    refine ⟨st', _, ?_, hholds, ?_, ?_⟩
    · rw [processLine_enqueue, hline]
    · rw [List.map_append]
      rfl
    · rw [hout]
      exact (List.append_nil _).symm
  | dequeue =>
    rw [processLine_dequeue]
    cases l with
    | nil => exact ⟨_, [], dequeueLine_nil hq, hq, rfl, rfl⟩
    | cons n l =>
      obtain ⟨st', hline, hout, -, hholds⟩ := dequeueLine_cons hq
      exact ⟨st', l, hline, hholds, rfl, by rw [hout, List.append_assoc]; rfl⟩

/-- A whole script from a queue with given elements. -/
theorem script_simulates (cmds : List Cmd) {st : State} {l : List (Nat × List UInt8)}
    (hq : Holds st.heap st.q l) :
    ((cmds.map Cmd.text).foldlM processLine st >>= finish) =
      .ok (st.out ++ fifo (l.map Prod.snd) cmds) := by
  induction cmds generalizing st l with
  | nil =>
    rw [List.map_nil, List.foldlM_nil]
    exact finish_eq hq
  | cons c cmds ih =>
    obtain ⟨st', l', hline, hholds, hl', hout⟩ := processLine_simulates hq c
    rw [List.map_cons, List.foldlM_cons, hline, stop_bind, ih hholds, hl', hout, List.append_assoc]
    rfl

/-- The queue program is a first-in first-out queue: on every script of `enqueue w` and `dequeue`
lines it prints what the list queue prints. -/
theorem queueMain_fifo (cmds : List Cmd) :
    queueMain (cmds.flatMap Cmd.text) = .finished (fifo [] cmds) := by
  unfold queueMain runFile
  rw [getlines_script, script_simulates cmds Holds.start]
  rfl

end SystemsProjects.CipherQueue
